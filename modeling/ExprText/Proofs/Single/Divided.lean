import ExprText.Proofs.Single.Basic

/-! # Divided texts

A block that is not in braces adds the texts of its statements to that of the node around it as they are. So
one that has several statements divides the texts of all nodes above it, up to the next pair of braces. -/

namespace ExprText

open Text Render RenderM Session

/-- A node under the given nodes whose text is more than one statement: a block, not in braces, that declares
    a local before a statement or has a statement after one with a semicolon, or a node in which the text of
    such a block stands outside of all braces. -/
inductive Session.Divided (s : Session) : List Expr → Expr → Prop
  | declared {path : List Expr} {e c : Expr} {i : Nat} (position : Position.under e path.head? ≠ .value)
    (mem : i ∈ e.locals) (fresh : ∀ a ∈ path, i ∉ a.locals) (unassigned : ∀ d ∈ e.shown, d.assignsTo i = false)
    (statement : c ∈ e.shown) (text : s.textAt (e :: path) c ≠ "") : s.Divided path e
  | statements {path front back : List Expr} {e c d : Expr} (block : e.isBlock = true)
    (position : Position.under e path.head? = .statement) (shown : e.shown = front ++ c :: back)
    (kept : s.statementAt (e :: path) c ≠ "") (ended : ¬ClosesBrace (s.statementAt (e :: path) c))
    (later : d ∈ back) (text : s.textAt (e :: path) d ≠ "") : s.Divided path e
  | inner {path : List Expr} {e c : Expr} (block : e.isBlock = true)
    (position : Position.under e path.head? ≠ .value) (statement : c ∈ e.shown)
    (h : s.Divided (e :: path) c) : s.Divided path e
  | followed {path : List Expr} {i : Nat} {test ifTrue ifFalse : Expr} {ty : Ty}
    (layout : Layout.of ifTrue ifFalse ty = .guard)
    (second : s.Divided (.conditional i test ifTrue ifFalse ty :: path) ifFalse) :
    s.Divided path (.conditional i test ifTrue ifFalse ty)
  | last {path : List Expr} {e c : Expr} (last : e.last? = some c) (concat : e.isConcat = false)
    (unchecked : carriesChecked path.head? e = false) (part : s.Divided (e :: path) c) : s.Divided path e

namespace Text.Several
variable {text : String}

theorem strippedAt_eq (h : Several text) (path : List Expr) (c : Expr) : strippedAt path c text = text := by
  rcases strippedAt_cases path c text with heq | heq <;> rw [heq]
  exact h.withoutParens_eq

theorem bodyAt_eq {s : Session} {path : List Expr} {c : Expr} {indent : String}
    (h : Several (s.textAt path c)) : (s.bodyAt path indent c).text = s.textAt path c := by
  unfold Session.bodyAt
  dsimp only
  rw [h.strippedAt_eq, ite_self]

end Text.Several

section Lines
variable {s : Session} {path : List Expr}

/-- What is written after a semicolon is another statement. -/
theorem several_foldl_write (position : Position) {ls : List Line} {lines : Lines} {a : String}
    (hbalanced : ∀ l ∈ ls, Balanced (s.textAt path l.statement)) (ha : Balanced a)
    (hlines : lines.text = a ++ ";") {l : Line} (hl : l ∈ ls) (hsome : s.textAt path l.statement ≠ "") :
    Several (ls.foldl (Line.write s path position) lines).text := by
  obtain ⟨added, hadded, heq⟩ := exists_foldl_write position hbalanced lines
  have hne : lines.text ≠ "" := by
    rw [hlines]
    exact append_ne_empty (.inr (by decide))
  -- What is added is balanced, and it is not empty since it starts on a new line.
  obtain ⟨after, hafter, hends⟩ := exists_after position ls hne
  have hsame : added = after := String.append_right_inj lines.text |>.mp (heq.symm.trans hafter)
  refine ⟨a, added, ha, hadded, ?_, by rw [heq, hlines]⟩
  rcases hends with ⟨-, hnone⟩ | hhead
  · exact absurd (hnone l hl) hsome
  · rintro rfl
    rw [← hsame] at hhead
    cases hhead

/-- Several statements are added to the lines of a block as they are. -/
theorem Line.exists_write_several (position : Position) {l : Line} (h : Several (s.textAt path l.statement))
    (lines : Lines) :
    ∃ added, Several added ∧ (l.write s path position lines).text = lines.text ++ added := by
  have hgaps : ∀ w ∈ ["", "\n", "\n\n"], Balanced w := fun w hw => (unbroken_gap w hw).balanced
  by_cases hreturned : ∃ c, l = .returned c
  · obtain ⟨c, rfl⟩ := hreturned
    have hsome : ¬(s.textAt path c).isEmpty = true := by simpa [Line.statement] using h.ne_empty
    have hword : Balanced "return " := by decide
    refine ⟨(if lines.text.isEmpty then "" else "\n\n") ++ "return " ++ s.textAt path c ++ ";",
      .append_right (.append_left (.append ?_ hword) h) (by decide), ?_⟩
    · split <;> decide
    · rw [Line.write, Line.statement, if_neg hsome, Line.add, Lines.pushReturn]
      have hsame : strippedAt path c (s.textAt path c) = s.textAt path c := h.strippedAt_eq path c
      simp only [hsame, ite_self, String.append_assoc]
  · obtain ⟨gap, hgap, -, hline⟩ := Line.exists_write_terminated position
      (fun c hc => hreturned ⟨c, hc⟩) h.ne_empty lines
    refine ⟨_, .append_left (hgaps gap hgap) (.terminated (.append_left l.unbroken_word.balanced ?_)),
      hline.trans String.append_assoc⟩
    rw [Session.statementAt, h.strippedAt_eq]
    exact h

end Lines

namespace Session.Concludes
variable {root e c d : Expr} {settings : Settings} {qualified : Bool} {s : Session} {path : List Expr}
  (h : s.Concludes root settings qualified) (he : root.Reaches path e)
include h he

/-- A local that is declared before the statements. -/
theorem several_of_declared {i : Nat} (hposition : Position.under e path.head? ≠ .value) (hi : i ∈ e.locals)
    (hfresh : ∀ a ∈ path, i ∉ a.locals) (hunassigned : ∀ d ∈ e.shown, d.assignsTo i = false)
    (hc : c ∈ e.shown) (hsome : s.textAt (e :: path) c ≠ "") : Several (s.textAt path e) := by
  have hblock : e.isBlock = true := by
    cases e with
    | block => rfl
    | _ => cases hi
  have hgiven := h.given path e he
  obtain ⟨known, hmeets, hwrites⟩ := h.records.writes he hblock hgiven
  have hknown : i ∉ known := by
    intro hmem
    obtain ⟨a, ha, hlocal⟩ := hmeets.mem_locals hmem
    exact hfresh a ha hlocal
  have hupFront : ∃ v ∈ (e.plan path.head? known).upFront, v.id = i :=
    Expr.exists_mem_upFront hi hknown hunassigned
  obtain ⟨v, hv, -⟩ := hupFront
  obtain ⟨a, ha, hdeclared⟩ := Plan.exists_declared (h.balanced_upFront he) (List.ne_nil_of_mem hv)
  rw [← hwrites.statements] at hc
  obtain ⟨l, hl, rfl⟩ := List.mem_map.mp hc
  rw [hwrites.text_eq hposition, Plan.written]
  exact several_foldl_write _ (h.balanced_lines he hgiven hwrites) ha hdeclared hl hsome

/-- A statement that is given a semicolon, before another one. -/
theorem several_of_statements (hblock : e.isBlock = true)
    (hposition : Position.under e path.head? = .statement) {front back : List Expr}
    (hshown : e.shown = front ++ c :: back) (hkept : s.statementAt (e :: path) c ≠ "")
    (hopen : ¬ClosesBrace (s.statementAt (e :: path) c)) (hd : d ∈ back)
    (hsome : s.textAt (e :: path) d ≠ "") : Several (s.textAt path e) := by
  have hgiven := h.given path e he
  obtain ⟨known, -, hwrites⟩ := h.records.writes he hblock hgiven
  have hreturned : ∀ l ∈ (e.plan path.head? known).lines, ∀ d, l ≠ .returned d :=
    e.not_returned (e.returnsValue_of_statement hposition) known
  have hbalanced := h.balanced_lines he hgiven hwrites
  obtain ⟨first, rest, hsplit, -, hrest⟩ := List.map_eq_append_iff.mp (hwrites.statements.trans hshown)
  obtain ⟨l, later, rfl, rfl, rfl⟩ := List.map_eq_cons_iff.mp hrest
  obtain ⟨k, hk, rfl⟩ := List.mem_map.mp hd
  obtain ⟨before, hbefore, heq⟩ := Plan.exists_before (h.balanced_upFront he) hbalanced hsplit .statement
  rw [hsplit, List.forall_mem_append, List.forall_mem_cons] at hbalanced hreturned
  have hconcluded := h.concluded (e :: path) l.statement (.step he (by simp [hshown]))
  have hstripped : Concluded (s.statementAt (e :: path) l.statement) := concluded_strippedAt hconcluded
  obtain ⟨gap, hgap, -, hline⟩ := Line.exists_write_statement .statement hreturned.2.1 hconcluded hkept before
  rw [hstripped.terminated_eq_iff.mpr ⟨hkept, hopen⟩] at hline
  have hbody : Balanced (unterminated (s.statementAt (e :: path) l.statement)) :=
    (balanced_strippedAt (e :: path) l.statement hbalanced.2.1).unterminated
  have hword := (hbefore.append (unbroken_gap gap hgap).balanced).append l.unbroken_word.balanced
  rw [hwrites.text_eq (by simp [hposition]), hposition, heq]
  refine several_foldl_write .statement hbalanced.2.2 (hword.append hbody) ?_ hk hsome
  rw [hline]
  simp only [String.append_assoc]

/-- The text of a statement of several, in that of its block. -/
theorem several_of_inner (hblock : e.isBlock = true) (hposition : Position.under e path.head? ≠ .value)
    (hc : c ∈ e.shown) (hseveral : Several (s.textAt (e :: path) c)) : Several (s.textAt path e) := by
  have hgiven := h.given path e he
  obtain ⟨known, -, hwrites⟩ := h.records.writes he hblock hgiven
  have hbalanced := h.balanced_lines he hgiven hwrites
  rw [← hwrites.statements] at hc
  obtain ⟨l, hl, rfl⟩ := List.mem_map.mp hc
  obtain ⟨front, back, hsplit⟩ := List.append_of_mem hl
  obtain ⟨before, hbefore, heq⟩ := Plan.exists_before (h.balanced_upFront he) hbalanced hsplit
    (Position.under e path.head?)
  rw [hsplit, List.forall_mem_append, List.forall_mem_cons] at hbalanced
  obtain ⟨added, hadded, hline⟩ := Line.exists_write_several (Position.under e path.head?) hseveral before
  obtain ⟨after, hafter, hlast⟩ := exists_foldl_write (Position.under e path.head?) hbalanced.2.2
    (l.write s (e :: path) (Position.under e path.head?) before)
  rw [hwrites.text_eq hposition, heq, hlast, hline]
  exact (hadded.append_left hbefore).append_right hafter

omit he

/-- The text of a divided node is more than one statement. -/
theorem several_of_divided (hdivided : s.Divided path e) : root.Reaches path e →
    Several (s.textAt path e) := by
  induction hdivided with
  | declared hposition hi hfresh hunassigned hc hsome =>
    intro he
    exact h.several_of_declared he hposition hi hfresh hunassigned hc hsome
  | statements hblock hposition hshown hkept hopen hd hsome =>
    intro he
    exact h.several_of_statements he hblock hposition hshown hkept hopen hd hsome
  | inner hblock hposition hc _ ih =>
    intro he
    exact h.several_of_inner he hblock hposition hc (ih (.step he hc))
  | @followed path i test ifTrue ifFalse ty hlayout _ ih =>
    intro he
    have hwrites := h.layout_writes he (h.given _ _ he)
    have hsecond := ih (.step he (Expr.mem_shown_second (by simp [hlayout])))
    generalize s.textAt path (.conditional i test ifTrue ifFalse ty) = text at hwrites ⊢
    rw [hlayout] at hwrites
    cases hwrites with
    | guard hcondition hbody =>
      have hgap : Balanced "\n\n" := by decide
      refine .append_left ((balanced_ifBlock hcondition hbody).append hgap) (.terminated ?_)
      rw [hsecond.bodyAt_eq]
      exact hsecond
  | @last path e c hlast hconcat hchecked _ ih =>
    intro he
    obtain ⟨hreaches, front, hleads, -, heq, -⟩ := h.exists_front he hchecked hconcat hlast
    have hbelow := ih hreaches
    have hpart : s.lastAt path e c = s.textAt (e :: path) c := by
      rcases s.lastAt_cases path e c with hsame | hsame <;> rw [hsame]
      exact hbelow.withoutParens_eq
    rw [heq, hpart]
    exact hbelow.append_left hleads.balanced

end Session.Concludes

end ExprText
