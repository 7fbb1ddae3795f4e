import ExprText.Proofs.Composed.Layouts
import ExprText.Proofs.Composed.Tails

/-! # Single statements

The text of a node is one statement if it is an expression, a loop, or a block or a conditional in braces. A
block that is not in braces is one if its statements are, and if none of them but the last has to end in a
semicolon. Where a node ends with the text of another one, that decides. -/

namespace ExprText

open Text Render RenderM Session

/-! ### Lines -/

/-- Whether the first of two statements of a block is not ended by a semicolon, where both have a text. -/
def Session.ClosesBefore (s : Session) (path : List Expr) (c d : Expr) : Prop :=
  s.textAt path c ≠ "" → s.textAt path d ≠ "" → ClosesBrace (s.statementAt path c)

section Lines
variable {s : Session} {path : List Expr}

theorem foldl_write_of_empty (position : Position) : ∀ {ls : List Line} (lines : Lines),
    (∀ l ∈ ls, s.textAt path l.statement = "") → ls.foldl (Line.write s path position) lines = lines
  | [], _, _ => rfl
  | l :: ls, lines, h => by
    obtain ⟨hl, hls⟩ := List.forall_mem_cons.mp h
    rw [List.foldl_cons, Line.write_of_empty hl, foldl_write_of_empty position lines hls]

theorem unbroken_gap : ∀ w ∈ ["", "\n", "\n\n"], Unbroken w := by
  decide

theorem Line.unbroken_word (l : Line) : Unbroken l.word := by
  have hwords : ∀ w ∈ ["", "var "], Unbroken w := by decide
  exact hwords _ l.word_mem

/-- Lines are one statement if their statements are, and if all of these but the last close a brace. -/
theorem oneStatement_foldl_write (position : Position) : ∀ {ls : List Line} {lines : Lines},
    (∀ l ∈ ls, ∀ c, l ≠ .returned c) → (∀ l ∈ ls, OneStatement (s.statementAt path l.statement)) →
    (ls.map Line.statement).Pairwise (s.ClosesBefore path) → Unbroken lines.text →
    OneStatement (ls.foldl (Line.write s path position) lines).text
  | [], lines, _, _, _, h => h.oneStatement
  | l :: ls, lines, hreturned, hone, hends, h => by
    obtain ⟨hl, hls⟩ := List.forall_mem_cons.mp hreturned
    obtain ⟨honel, honels⟩ := List.forall_mem_cons.mp hone
    rw [List.map_cons, List.pairwise_cons] at hends
    by_cases hempty : s.textAt path l.statement = ""
    · rw [List.foldl_cons, Line.write_of_empty hempty]
      exact oneStatement_foldl_write position hls honels hends.2 h
    · obtain ⟨gap, hgap, -, hline⟩ := Line.exists_write_terminated position hl hempty lines
      have hword := l.unbroken_word
      have hbefore : Unbroken (lines.text ++ gap) := h.append (unbroken_gap gap hgap)
      rw [List.foldl_cons]
      -- The statement may end in a semicolon only if no later one has a text.
      by_cases hlater : ∀ l' ∈ ls, s.textAt path l'.statement = ""
      · rw [foldl_write_of_empty position _ hlater, hline]
        exact hbefore.oneStatement_append (oneStatement_terminated.mpr (hword.oneStatement_append honel))
      · simp only [not_forall] at hlater
        obtain ⟨l', hl', hsome⟩ := hlater
        have hbrace : ClosesBrace (s.statementAt path l.statement) :=
          hends.1 _ (List.mem_map_of_mem hl') hempty hsome
        have hwhole : ClosesBrace (l.word ++ s.statementAt path l.statement) :=
          closesBrace_append.mpr (.inl hbrace)
        refine oneStatement_foldl_write position hls honels hends.2 ?_
        rw [hline, hwhole.terminated_eq]
        exact hbefore.append (hword.append (honel.unbroken hbrace))

/-- The last character of lines is no parenthesis. -/
theorem getLast?_foldl_write_ne (position : Position) : ∀ {ls : List Line} {lines : Lines},
    (∀ l ∈ ls, Concluded (s.textAt path l.statement)) → lines.text.toList.getLast? ≠ some ')' →
    (ls.foldl (Line.write s path position) lines).text.toList.getLast? ≠ some ')'
  | [], _, _, h => h
  | l :: ls, lines, hconcluded, h => by
    obtain ⟨hl, hls⟩ := List.forall_mem_cons.mp hconcluded
    rw [List.foldl_cons]
    refine getLast?_foldl_write_ne position hls ?_
    have hgaps : ∀ w ∈ ["", "\n", "\n\n"], w.toList.getLast? ≠ some ')' := by decide
    have hended : (∀ c, l ≠ .returned c) → s.textAt path l.statement ≠ "" →
        (l.write s path position lines).text.toList.getLast? ≠ some ')' := by
      intro hreturned hsome
      obtain ⟨gap, hgap, -, hline⟩ := Line.exists_write_terminated position hreturned hsome lines
      have hshown : Concluded (s.statementAt path l.statement) := concluded_strippedAt hl
      rw [hline]
      exact getLast?_append_ne (getLast?_append_ne h (hgaps gap hgap))
        (l.concluded_word.append hshown).getLast?_terminated_ne
    by_cases hempty : s.textAt path l.statement = ""
    · rwa [Line.write_of_empty hempty]
    · cases l with
      | introduces v c => exact hended (fun _ => Line.noConfusion) hempty
      | plain c => exact hended (fun _ => Line.noConfusion) hempty
      | returned c =>
        have hsome : ¬(s.textAt path c).isEmpty = true := by simpa [Line.statement] using hempty
        rw [Line.write, Line.statement, if_neg hsome, Line.add, Lines.pushReturn, getLast?_append_mark]
        decide

end Lines

/-! ### Finished renderings -/

/-- A node under the given nodes whose text is one statement: an expression, a loop, a conditional or a block
    in braces, or a node that ends in such a one. Of the statements of a block that is not in braces all but
    the last with a text have to close a brace. -/
inductive Session.Single (s : Session) : List Expr → Expr → Prop
  | expression {path : List Expr} {e : Expr} (plain : e.isBlock = false) (h : e.Expressed path.head?) :
    s.Single path e
  | braced {path : List Expr} {e : Expr} (block : e.isBlock = true)
    (value : Position.under e path.head? = .value) : s.Single path e
  | loop {path : List Expr} {e : Expr} (loop : e.kind = .loop) : s.Single path e
  | closed {path : List Expr} {e : Expr} (layout : e.layout? = some .alone ∨ e.layout? = some .both) :
    s.Single path e
  | followed {path : List Expr} {i : Nat} {test ifTrue ifFalse : Expr} {ty : Ty}
    (layout : Layout.of ifTrue ifFalse ty = .guard ∨ Layout.of ifTrue ifFalse ty = .elseIf)
    (second : s.Single (.conditional i test ifTrue ifFalse ty :: path) ifFalse) :
    s.Single path (.conditional i test ifTrue ifFalse ty)
  | operator {path : List Expr} {i : Nat} {test ifTrue ifFalse : Expr} {ty : Ty}
    (layout : Layout.of ifTrue ifFalse ty = .operator)
    (condition : test.Expressed (some (.conditional i test ifTrue ifFalse ty)))
    (first : s.Single (.conditional i test ifTrue ifFalse ty :: path) ifTrue)
    (second : s.Single (.conditional i test ifTrue ifFalse ty :: path) ifFalse) :
    s.Single path (.conditional i test ifTrue ifFalse ty)
  | last {path : List Expr} {e c : Expr} (last : e.last? = some c) (concat : e.isConcat = false)
    (unchecked : carriesChecked path.head? e = false) (leading : ∀ d ∈ e.leading, d.Expressed (some e))
    (part : s.Single (e :: path) c) : s.Single path e
  | returned {path : List Expr} {e : Expr} (block : e.isBlock = true)
    (position : Position.under e path.head? ≠ .value) (returns : e.returnsValue path.head? = true)
    (single : e.isSingle = true) (statements : ∀ c ∈ e.shown, c.Expressed (some e)) : s.Single path e
  | statements {path : List Expr} {e : Expr} (block : e.isBlock = true)
    (position : Position.under e path.head? ≠ .value) (returns : e.returnsValue path.head? = false)
    (locals : ∀ i ∈ e.locals, e.shown.any (Expr.assignsTo i) = true)
    (statements : ∀ c ∈ e.shown, s.Single (e :: path) c)
    (ends : e.shown.Pairwise (s.ClosesBefore (e :: path))) : s.Single path e

/-- One statement with and without the parentheses around it. -/
structure Text.PortableStatement (text : String) : Prop where
  whole : OneStatement text
  inner : OneStatement (withoutParens text)

namespace Text.PortableStatement
variable {text : String}

theorem of_last (h : OneStatement text) (hlast : text.toList.getLast? ≠ some ')') : PortableStatement text :=
  ⟨h, by rwa [withoutParens_of_isGroup_eq_false (isGroup_eq_false_of_last hlast)]⟩

theorem of_head (h : OneStatement text) (hhead : text.toList.head? ≠ some '(') : PortableStatement text :=
  ⟨h, by rwa [withoutParens_of_isGroup_eq_false (isGroup_eq_false hhead)]⟩

theorem of_portable (h : Portable text) : PortableStatement text :=
  ⟨h.toUnbroken.oneStatement, h.inner.toUnbroken.oneStatement⟩

/-- What stands before a statement leaves it one. -/
theorem append {front : String} (hleads : Leads front)
    (hfront : Unbroken front ∧ Unbroken (withoutParens front)) (h : OneStatement text) :
    PortableStatement (front ++ text) := by
  by_cases hempty : text = ""
  · rw [hempty, String.append_empty]
    exact ⟨hfront.1.oneStatement, hfront.2.oneStatement⟩
  · have hwhole := hfront.1.oneStatement_append h
    refine ⟨hwhole, ?_⟩
    rwa [withoutParens_of_isGroup_eq_false (hleads.balanced.not_isGroup_append hleads.nonempty hempty)]

theorem strippedAt (h : PortableStatement text) (path : List Expr) (c : Expr) :
    OneStatement (strippedAt path c text) := by
  rcases strippedAt_cases path c text with heq | heq <;> rw [heq]
  · exact h.whole
  · exact h.inner

end Text.PortableStatement

theorem oneStatement_bodyAt {s : Session} {path : List Expr} {c : Expr} (indent : String)
    (h : PortableStatement (s.textAt path c)) : OneStatement (s.bodyAt path indent c).text := by
  unfold Session.bodyAt
  dsimp only
  split
  · exact h.whole
  · exact h.strippedAt path c

/-- A conditional is one statement in braces, and otherwise if its second branch is one; an operator also
    needs an expression as its test. -/
theorem Layout.Writes.portableStatement {layout : Layout} {test text : String} {first second : Body}
    (h : layout.Writes test first second text) (htest : layout = .operator → Portable test)
    (hfirst : layout = .operator → OneStatement first.text)
    (hsecond : layout ≠ .alone → layout ≠ .both → OneStatement second.text) : PortableStatement text := by
  cases h with
  | alone hcondition hbody =>
    exact .of_head (unbroken_ifBlock hcondition hbody).oneStatement (by simpa using head?_ifBlock _ _ "")
  | operator _ =>
    have hmark : Unbroken " ? " := by decide
    have hcolon : Unbroken " : " := by decide
    have hbranches : Unbroken (first.expression ++ " : " ++ second.expression) :=
      ((show Unbroken first.expression from hfirst rfl).append hcolon).append (hsecond (by decide) (by decide))
    have hportable := (htest rfl).toPhrase.joined hmark (by decide) hbranches
    exact .of_portable (by simpa only [String.append_assoc] using hportable)
  | guard hcondition hbody =>
    have hgap : Unbroken "\n\n" := by decide
    have hstatements : OneStatement second.statements :=
      oneStatement_terminated.mpr (hsecond (by decide) (by decide))
    refine .of_head (((unbroken_ifBlock hcondition hbody).append hgap).oneStatement_append hstatements) ?_
    rw [String.append_assoc]
    exact head?_ifBlock _ _ _
  | elseIf hcondition hbody =>
    have hword : Unbroken "\nelse " := by decide
    have hexpression : Unbroken second.expression := hsecond (by decide) (by decide)
    refine .of_head (((unbroken_ifBlock hcondition hbody).append hword).append hexpression).oneStatement ?_
    rw [String.append_assoc]
    exact head?_ifBlock _ _ _
  | both hcondition hbody hother =>
    have hword : Unbroken "\nelse" := by decide
    have hbraces : Unbroken ("\n\x7b" ++ _ ++ "\x7d") := .within hother rfl rfl (by decide)
    refine .of_head (((unbroken_ifBlock hcondition hbody).append hword).append hbraces).oneStatement ?_
    rw [String.append_assoc]
    exact head?_ifBlock _ _ _

namespace Session.Concludes
variable {root e : Expr} {settings : Settings} {qualified : Bool} {s : Session} {path : List Expr}
  (h : s.Concludes root settings qualified) (he : root.Reaches path e)
include h he

theorem portable_of_expressed (hexpressed : e.Expressed path.head?)
    (hplain : e.isBlock = true → Position.under e path.head? = .value) : Portable (s.textAt path e) :=
  (h.phrase_of_expressed hexpressed rfl he (h.given path e he)).2 hplain

theorem portableStatement_loop (hloop : e.kind = .loop) : PortableStatement (s.textAt path e) := by
  have hgiven := h.given path e he
  obtain ⟨known, hcomposes⟩ := h.composed _ _ _ he hgiven
  obtain ⟨rest, hrest⟩ := hcomposes.prefix_loop hloop
  have hunbroken := hcomposes.unbroken_loop hloop fun c hc => h.balanced_shown he hgiven hc
  refine .of_head hunbroken.oneStatement ?_
  rw [← hrest]
  simp

/-- A returned expression is given the only semicolon of its block. -/
theorem portableStatement_returned (hblock : e.isBlock = true) (hposition : Position.under e path.head? ≠ .value)
    (hreturns : e.returnsValue path.head? = true) (hsingle : e.isSingle = true)
    (hstatements : ∀ c ∈ e.shown, c.Expressed (some e)) : PortableStatement (s.textAt path e) := by
  obtain ⟨known, -, hwrites⟩ := h.records.writes he hblock (h.given path e he)
  rcases hwrites.text_of_isSingle hblock hsingle hposition with ⟨hempty, -⟩ | ⟨c, hshown, htext⟩
  · rw [hempty]
    exact ⟨by decide, by decide⟩
  · have hc : c ∈ e.shown := hshown ▸ List.mem_cons_self
    have hplain : c.isBlock = false := (hstatements c hc).isBlock_eq_false hblock
    have hvalue : Portable (s.textAt (e :: path) c) :=
      h.portable_of_expressed (.step he hc) (hstatements c hc) (by simp [hplain])
    have hword : Unbroken "return " := by decide
    rw [htext, if_pos hreturns]
    refine .of_last (oneStatement_mark.mpr (hword.append (phrase_stripped hvalue).toUnbroken)) ?_
    rw [getLast?_append_mark]
    decide

theorem portableStatement_statements (hblock : e.isBlock = true)
    (hposition : Position.under e path.head? ≠ .value) (hreturns : e.returnsValue path.head? = false)
    (hlocals : ∀ i ∈ e.locals, e.shown.any (Expr.assignsTo i) = true)
    (hstatements : ∀ c ∈ e.shown, PortableStatement (s.textAt (e :: path) c))
    (hends : e.shown.Pairwise (s.ClosesBefore (e :: path))) : PortableStatement (s.textAt path e) := by
  obtain ⟨known, -, hwrites⟩ := h.records.writes he hblock (h.given path e he)
  have hmem : ∀ l ∈ (e.plan path.head? known).lines, l.statement ∈ e.shown := fun l hl =>
    hwrites.statements ▸ List.mem_map_of_mem hl
  have hnone : (e.plan path.head? known).declared { settings, qualified } s = {} := by
    rw [Plan.declared, Expr.upFront_eq_nil hlocals]
    rfl
  rw [hwrites.text_eq hposition, Plan.written, hnone]
  refine .of_last ?_ ?_
  · exact oneStatement_foldl_write _ (e.not_returned hreturns known)
      (fun l hl => (hstatements _ (hmem l hl)).strippedAt _ _) (hwrites.statements ▸ hends) (by decide)
  · exact getLast?_foldl_write_ne _ (fun l hl => h.concluded _ _ (.step he (hmem l hl))) (by decide)

omit he

/-- The text of a node that is shown as a single statement is one. -/
theorem portableStatement (hsingle : s.Single path e) : root.Reaches path e →
    PortableStatement (s.textAt path e) := by
  induction hsingle with
  | expression hplain hexpressed =>
    intro he
    exact .of_portable (h.portable_of_expressed he hexpressed (by simp [hplain]))
  | braced hblock hvalue =>
    intro he
    exact .of_portable (h.portable_braced he (h.given _ _ he) hblock hvalue)
  | loop hloop =>
    intro he
    exact h.portableStatement_loop he hloop
  | @closed path e hlayout =>
    intro he
    cases e with
    | conditional i test ifTrue ifFalse ty =>
      simp only [Expr.layout?, Option.some.injEq] at hlayout
      refine (h.layout_writes he (h.given _ _ he)).portableStatement ?_ ?_ ?_ <;>
        rcases hlayout with hlayout | hlayout <;> simp [hlayout]
    | _ => rcases hlayout with hlayout | hlayout <;> cases hlayout
  | @followed path i test ifTrue ifFalse ty hlayout _ ih =>
    intro he
    refine (h.layout_writes he (h.given _ _ he)).portableStatement ?_ ?_ fun halone _ => ?_
    · rcases hlayout with hlayout | hlayout <;> simp [hlayout]
    · rcases hlayout with hlayout | hlayout <;> simp [hlayout]
    · exact oneStatement_bodyAt settings.indent (ih (.step he (Expr.mem_shown_second halone)))
  | @operator path i test ifTrue ifFalse ty _ hcondition _ _ ihfirst ihsecond =>
    intro he
    refine (h.layout_writes he (h.given _ _ he)).portableStatement (fun _ => ?_) (fun _ => ?_)
      fun halone _ => ?_
    · exact h.portable_of_expressed (.step he (by simp [Expr.shown])) hcondition
        fun _ => by simp [Position.under, Expr.same]
    · exact oneStatement_bodyAt settings.indent (ihfirst (.step he (by simp [Expr.shown])))
    · exact oneStatement_bodyAt settings.indent (ihsecond (.step he (Expr.mem_shown_second halone)))
  | @last path e c hlast hconcat hchecked hleading _ ih =>
    intro he
    obtain ⟨hreaches, front, hleads, -, heq, hunbroken⟩ := h.exists_front he hchecked hconcat hlast
    have hbelow := ih hreaches
    have hpart : OneStatement (s.lastAt path e c) := by
      rcases s.lastAt_cases path e c with hsame | hsame <;> rw [hsame]
      · exact hbelow.whole
      · exact hbelow.inner
    rw [heq]
    refine .append hleads (hunbroken fun d hd => ?_) hpart
    obtain ⟨hshown, hvalue⟩ := Expr.mem_shown_of_mem_leading hlast hconcat hd
    exact h.portable_of_expressed (.step he hshown) (hleading d hd) fun _ => hvalue
  | returned hblock hposition hreturns hsingle hstatements =>
    intro he
    exact h.portableStatement_returned he hblock hposition hreturns hsingle hstatements
  | statements hblock hposition hreturns hlocals _ hends ih =>
    intro he
    exact h.portableStatement_statements he hblock hposition hreturns hlocals
      (fun c hc => ih c hc (.step he hc)) hends

end Session.Concludes

end ExprText
