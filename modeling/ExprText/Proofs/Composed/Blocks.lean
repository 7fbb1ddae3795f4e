import ExprText.Proofs.Composed.Statements
import ExprText.Proofs.Text.Comment

/-! # Texts of blocks

A block writes its lines one after another, each after what stands before it. So what is written before a
line and after it is balanced where the texts of the statements are, and a semicolon that ends a line stands
outside of all brackets. -/

namespace ExprText

open Text Render RenderM Session

/-- What the lines of a block are shown as. -/
def Render.Position.enclose (indent text : String) : Position → String
  | .value => if text.isEmpty then "\x7b\n\x7d" else Body.braces (indented indent text)
  | _ => text

/-- The lines that declare variables before the statements. -/
def Plan.declared (p : Plan) (env : Env) (s : Session) : Lines :=
  let lines := p.upFront.map fun v => env.typeName v.ty ++ " " ++ s.nameGiven v ++ ";"
  if lines.isEmpty then {} else ({} : Lines).push (Text.join "\n" lines) true

/-- The lines of a block that is written by a plan, where the block is the first of the given nodes. -/
def Plan.written (p : Plan) (env : Env) (s : Session) (path : List Expr) (position : Position) : Lines :=
  p.lines.foldl (Line.write s path position) (p.declared env s)

/-- What a block at a position returns where `c` is its last statement. -/
def Session.returnedAt (s : Session) (path : List Expr) (position : Position) (c : Expr) : String :=
  if position = .value then s.textAt path c else strippedAt path c (s.textAt path c)

/-- Whether a statement under the given nodes does not end by itself. -/
def Session.NeedsSemicolon (s : Session) (path : List Expr) (c : Expr) : Prop :=
  terminated (strippedAt path c (s.textAt path c)) ≠ strippedAt path c (s.textAt path c)

theorem Render.Position.enclose_eq {position : Position} (h : position ≠ .value) (indent text : String) :
    position.enclose indent text = text := by
  cases position with
  | value => exact absurd rfl h
  | _ => rfl

/-! ### Semicolons -/

theorem terminated_of_ne {text : String} (h : terminated text ≠ text) :
    terminated text = text ++ ";" ∧ text ≠ "" ∧ isTerminated text = false := by
  unfold terminated at h ⊢
  split
  · next hdone => exact absurd (if_pos hdone) h
  · next hopen =>
    rw [Bool.not_eq_true, Bool.or_eq_false_iff] at hopen
    exact ⟨rfl, by simpa using hopen.1, hopen.2⟩

/-- A declared statement is ended as the statement is. -/
theorem isTerminated_var {text : String} (h : isTerminated text = false) :
    isTerminated ("var " ++ text) = false := by
  have hword : ∀ cs : List Char, isComment (String.ofList ('v' :: cs)) = false := fun cs =>
    not_isComment_of_head (c := 'v') (by simp) (by decide)
  rw [isTerminated, Bool.or_eq_false_iff] at h ⊢
  obtain ⟨hlast, hline⟩ := h
  constructor
  · rw [String.toList_append, List.getLast?_append]
    cases hend : text.toList.getLast? with
    | none => decide
    | some c => rwa [hend] at hlast
  · obtain ⟨first, rest, hlines⟩ := List.exists_cons_of_ne_nil (splitLines_ne_nil text.toList)
    have hvar : splitLines ("var " ++ text).toList = ('v' :: 'a' :: 'r' :: ' ' :: first) :: rest := by
      simp [splitLines, hlines]
    rw [lines, hvar]
    rw [lines, hlines] at hline
    cases rest with
    | nil => exact hword _
    | cons next rest => simpa using hline

/-! ### Lines -/

section Blocks
variable {env : Env} {s : Session} {path : List Expr} {position : Position}

theorem Plan.write_eq (p : Plan) : p.write env s path position =
    position.enclose env.indent (p.written env s path position).text := by
  cases position <;> rfl

theorem Session.Writes.text_eq {path : List Expr} {e : Expr} {p : Plan} {text : String}
    (h : s.Writes env path e p text) (hposition : Position.under e path.head? ≠ .value) :
    text = (p.written env s (e :: path) (Position.under e path.head?)).text := by
  rw [h.text, Plan.write_eq, Position.enclose_eq hposition]

/-- The text that is returned stands at the end. -/
theorem Plan.exists_written_returned {p : Plan} {front : List Line} {c : Expr}
    (hlines : p.lines = front ++ [.returned c]) (hc : s.textAt path c ≠ "") :
    ∃ before, (p.written env s path position).text =
      before ++ "return " ++ s.returnedAt path position c ++ ";" := by
  have hline : ∀ lines : Lines, ∃ before, (Line.write s path position lines (.returned c)).text =
      before ++ "return " ++ s.returnedAt path position c ++ ";" := by
    intro lines
    rw [Line.write, Line.statement, if_neg (by simpa using hc)]
    exact ⟨_, rfl⟩
  rw [Plan.written, hlines, List.foldl_append]
  exact hline _

/-- The head of a statement is returned as it is. -/
theorem prefix_returnedAt {w : String} (hw : w ∈ statementHeads) {c : Expr}
    (h : w.toList <+: (s.textAt path c).toList) : w.toList <+: (s.returnedAt path position c).toList := by
  have hall : ∀ w ∈ statementHeads, w.toList.head?.any (· ≠ '(') = true := by decide
  have hgroup : isGroup (s.textAt path c) = false := by
    refine isGroup_eq_false fun hhead => ?_
    obtain ⟨rest, hrest⟩ := h
    obtain ⟨d, hd, hne⟩ := (Option.any_eq_true _ _).mp (hall w hw)
    rw [← hrest, List.head?_append, hd] at hhead
    simp only [Option.some_or, Option.some.injEq] at hhead
    simp [hhead] at hne
  unfold Session.returnedAt strippedAt Session.stripped withoutParens
  simpa [hgroup] using h

/-- Statements are returned as they are. -/
theorem Text.Broken.returnedAt_eq {c : Expr} (h : Broken (s.textAt path c)) :
    s.returnedAt path position c = s.textAt path c := by
  unfold Session.returnedAt strippedAt Session.stripped
  rw [h.withoutParens_eq]
  simp

theorem Session.balanced_strippedAt (path : List Expr) (c : Expr) {text : String} (h : Balanced text) :
    Balanced (strippedAt path c text) :=
  Session.balanced_stripped _ c h

theorem Render.Lines.exists_push (lines : Lines) (statement : String) (apart : Bool) :
    ∃ gap, Balanced gap ∧ (lines.push statement apart).text = lines.text ++ gap ++ statement := by
  refine ⟨_, ?_, rfl⟩
  split
  · decide
  · split <;> decide

/-- A line is written after those before it. -/
theorem Line.exists_write (position : Position) {l : Line} (h : Balanced (s.textAt path l.statement))
    (lines : Lines) :
    ∃ added, Balanced added ∧ (l.write s path position lines).text = lines.text ++ added := by
  have hpush : ∀ statement : String, Balanced statement → ∃ added, Balanced added ∧
      (lines.push statement false).text = lines.text ++ added := by
    intro statement hstatement
    obtain ⟨gap, hgap, heq⟩ := lines.exists_push statement false
    exact ⟨gap ++ statement, hgap.append hstatement, by rw [heq, String.append_assoc]⟩
  unfold Line.write
  dsimp only
  split
  · exact ⟨"", by decide, String.append_empty.symm⟩
  · cases l with
    | introduces v c =>
      have hword : Balanced "var " := by decide
      exact hpush _ (hword.append (balanced_strippedAt path c h)).terminated
    | plain c => exact hpush _ (balanced_strippedAt path c h).terminated
    | returned c =>
      have hvalue : Balanced (if position = .value then s.textAt path c else
          strippedAt path c (s.textAt path c)) := by
        split
        · exact h
        · exact balanced_strippedAt path c h
      have hgap : Balanced (if lines.text.isEmpty then "" else "\n\n") := by split <;> decide
      have hword : Balanced "return " := by decide
      refine ⟨_, ((hgap.append hword).append hvalue).append (show Balanced ";" by decide), ?_⟩
      simp only [Line.add, Lines.pushReturn, Line.statement, String.append_assoc]

theorem exists_foldl_write (position : Position) : ∀ {ls : List Line},
    (∀ l ∈ ls, Balanced (s.textAt path l.statement)) → ∀ lines : Lines, ∃ added, Balanced added ∧
      (ls.foldl (Line.write s path position) lines).text = lines.text ++ added
  | [], _, _ => ⟨"", by decide, String.append_empty.symm⟩
  | l :: ls, h, lines => by
    obtain ⟨hl, hls⟩ := List.forall_mem_cons.mp h
    obtain ⟨first, hfirst, heq⟩ := Line.exists_write position hl lines
    obtain ⟨rest, hrest, hlast⟩ := exists_foldl_write position hls (l.write s path position lines)
    exact ⟨first ++ rest, hfirst.append hrest, by rw [List.foldl_cons, hlast, heq, String.append_assoc]⟩

/-- A statement that is not ended by itself is ended by a semicolon, unless it is returned. -/
theorem Line.exists_write_semicolon (position : Position) {l : Line} (hreturned : ∀ c, l ≠ .returned c)
    (h : Balanced (s.textAt path l.statement))
    (hopen : s.NeedsSemicolon path l.statement) (lines : Lines) :
    ∃ added, Balanced added ∧ (l.write s path position lines).text = lines.text ++ added ++ ";" := by
  obtain ⟨hends, hne, hterminated⟩ := terminated_of_ne hopen
  have hstripped := balanced_strippedAt path l.statement h
  have hpush : ∀ {statement : String}, Balanced statement → statement ≠ "" →
      isTerminated statement = false → ∃ added, Balanced added ∧
        (lines.push (terminated statement) false).text = lines.text ++ added ++ ";" := by
    intro statement hstatement hsome hends
    obtain ⟨gap, hgap, heq⟩ := lines.exists_push (terminated statement) false
    refine ⟨gap ++ statement, hgap.append hstatement, ?_⟩
    rw [heq, terminated, if_neg (by simp [hsome, hends])]
    simp only [String.append_assoc]
  have hsome : (s.textAt path l.statement).isEmpty = false := by
    rw [Bool.eq_false_iff]
    intro hempty
    have hnone : s.textAt path l.statement = "" := by simpa using hempty
    rw [hnone] at hne
    refine hne ?_
    unfold strippedAt Session.stripped
    split <;> rfl
  unfold Line.write
  dsimp only
  rw [hsome, if_neg Bool.false_ne_true]
  cases l with
  | introduces v c =>
    have hword : Balanced "var " := by decide
    exact hpush (hword.append hstripped) (by simp [← String.toList_inj]) (isTerminated_var hterminated)
  | plain c => exact hpush hstripped hne hterminated
  | returned c => exact absurd rfl (hreturned c)

/-! ### Blocks -/

theorem Expr.returnsValue_of_statement {parent : Option Expr} (e : Expr)
    (h : Position.under e parent = .statement) : e.returnsValue parent = false := by
  cases e with
  | block i locals all ty =>
    rw [Expr.returnsValue, h]
    rfl
  | _ => rfl

/-- A plan of a block that returns nothing has no line that does. -/
theorem Expr.not_returned {parent : Option Expr} (e : Expr) (h : e.returnsValue parent = false)
    (known : List Nat) : ∀ l ∈ (e.plan parent known).lines, ∀ c, l ≠ .returned c := by
  intro l hl c hc
  rcases e.line_of_plan parent known l hl with ⟨locals, known, x, rfl⟩ | ⟨hreturns, -⟩
  · unfold lineOf at hc
    split at hc
    · split at hc <;> cases hc
    · cases hc
  · rw [h] at hreturns
    cases hreturns

section Plans
variable {p : Plan} (hnames : ∀ v ∈ p.upFront, Balanced (env.typeName v.ty) ∧ Balanced (s.nameGiven v))
include hnames

theorem Plan.balanced_declared : Balanced (p.declared env s).text := by
  have hdeclared : ∀ t ∈ p.upFront.map (fun v => env.typeName v.ty ++ " " ++ s.nameGiven v ++ ";"),
      Balanced t := by
    intro t ht
    obtain ⟨v, hv, rfl⟩ := List.mem_map.mp ht
    obtain ⟨hty, hname⟩ := hnames v hv
    have hblank : Balanced " " := by decide
    exact ((hty.append hblank).append hname).append (by decide)
  unfold Plan.declared
  dsimp only
  split
  · decide
  · obtain ⟨gap, hgap, heq⟩ := Lines.exists_push {} _ true
    rw [heq]
    exact (Balanced.append (by decide) hgap).append (Balanced.join (by decide) hdeclared)

/-- What is declared up front ends in a semicolon. -/
theorem Plan.exists_declared (hne : p.upFront ≠ []) :
    ∃ a, Balanced a ∧ (p.declared env s).text = a ++ ";" := by
  have hjoin : ∀ texts : List String, texts ≠ [] → (∀ t ∈ texts, ∃ a, Balanced a ∧ t = a ++ ";") →
      ∃ a, Balanced a ∧ Text.join "\n" texts = a ++ ";" := by
    intro texts
    induction texts with
    | nil => exact fun hnil => absurd rfl hnil
    | cons t rest ih =>
      intro _ hall
      obtain ⟨ht, hrest⟩ := List.forall_mem_cons.mp hall
      obtain ⟨a, ha, rfl⟩ := ht
      cases rest with
      | nil => exact ⟨a, ha, rfl⟩
      | cons u rest =>
        obtain ⟨b, hb, heq⟩ := ih (List.cons_ne_nil _ _) hrest
        have hmark : Balanced ";" := by decide
        have hbreak : Balanced "\n" := by decide
        refine ⟨a ++ ";" ++ "\n" ++ b, ((ha.append hmark).append hbreak).append hb, ?_⟩
        rw [Text.join, heq]
        simp only [String.append_assoc]
  have hlines : ∀ t ∈ p.upFront.map (fun v => env.typeName v.ty ++ " " ++ s.nameGiven v ++ ";"),
      ∃ a, Balanced a ∧ t = a ++ ";" := by
    intro t ht
    obtain ⟨v, hv, rfl⟩ := List.mem_map.mp ht
    obtain ⟨hty, hname⟩ := hnames v hv
    have hblank : Balanced " " := by decide
    exact ⟨_, (hty.append hblank).append hname, rfl⟩
  obtain ⟨a, ha, heq⟩ := hjoin _ (by simpa using hne) hlines
  refine ⟨a, ha, ?_⟩
  rw [Plan.declared, if_neg (by simpa using hne)]
  simp [Lines.push, heq]

theorem Plan.balanced_written (hlines : ∀ l ∈ p.lines, Balanced (s.textAt path l.statement)) :
    Balanced (p.written env s path position).text := by
  obtain ⟨added, hadded, heq⟩ := exists_foldl_write position hlines (p.declared env s)
  rw [Plan.written, heq]
  exact (Plan.balanced_declared hnames).append hadded

/-- The lines before a line of a block are balanced. -/
theorem Plan.exists_before (hlines : ∀ l ∈ p.lines, Balanced (s.textAt path l.statement)) {front back : List Line}
    {l : Line} (hsplit : p.lines = front ++ l :: back) (position : Position) : ∃ before : Lines,
      Balanced before.text ∧ p.written env s path position =
        back.foldl (Line.write s path position) (l.write s path position before) := by
  rw [hsplit, List.forall_mem_append] at hlines
  obtain ⟨added, hadded, heq⟩ := exists_foldl_write position hlines.1 (p.declared env s)
  refine ⟨front.foldl (Line.write s path position) (p.declared env s), ?_, ?_⟩
  · rw [heq]
    exact (Plan.balanced_declared hnames).append hadded
  · rw [Plan.written, hsplit, List.foldl_append, List.foldl_cons]

/-- A line that ends in a semicolon breaks the text of its block. -/
theorem Plan.broken_written (hlines : ∀ l ∈ p.lines, Balanced (s.textAt path l.statement)) {l : Line}
    (hl : l ∈ p.lines) (hreturned : ∀ c, l ≠ .returned c) (hopen : s.NeedsSemicolon path l.statement) :
    Broken (p.written env s path position).text := by
  obtain ⟨front, back, hsplit⟩ := List.append_of_mem hl
  obtain ⟨before, hbefore, heq⟩ := Plan.exists_before hnames hlines hsplit position
  rw [hsplit, List.forall_mem_append, List.forall_mem_cons] at hlines
  obtain ⟨added, hadded, hline⟩ := Line.exists_write_semicolon position hreturned hlines.2.1 hopen before
  obtain ⟨after, hafter, hlast⟩ := exists_foldl_write position hlines.2.2 (l.write s path position before)
  exact ⟨before.text ++ added, after, hbefore.append hadded, hafter, by rw [heq, hlast, hline]⟩

end Plans

/-- A block with a single statement is that statement, where it is not in braces. -/
theorem Session.Writes.text_of_isSingle {path : List Expr} {e : Expr} {known : List Nat} {text : String}
    (h : s.Writes env path e (e.plan path.head? known) text) (hblock : e.isBlock = true)
    (hsingle : e.isSingle = true) (hposition : Position.under e path.head? ≠ .value) :
    (text = "" ∧ ∀ c ∈ e.shown, s.textAt (e :: path) c = "") ∨ ∃ c, e.shown = [c] ∧
      text = if e.returnsValue path.head? = true then
          "return " ++ strippedAt (e :: path) c (s.textAt (e :: path) c) ++ ";"
        else terminated (strippedAt (e :: path) c (s.textAt (e :: path) c)) := by
  have htext := h.text_eq hposition
  rw [Plan.written] at htext
  cases e with
  | block i locals all ty =>
    obtain ⟨hcount, hlocals⟩ : (all.filter (!·.isEmpty)).length ≤ 1 ∧ locals = [] := by
      simpa [Expr.isSingle] using hsingle
    subst hlocals
    simp only [Expr.plan, Expr.shown] at htext ⊢
    rcases hshown : all.filter (!·.isEmpty) with _ | ⟨c, rest⟩
    · rw [hshown] at htext
      refine .inl ⟨htext, fun c hc => ?_⟩
      rw [hshown] at hc
      cases hc
    · obtain rfl : rest = [] := by
        rw [hshown] at hcount
        simpa using hcount
      have hline : ∀ known, lineOf [] known c = .plain c := by
        intro known
        unfold lineOf
        split
        · next v hv =>
          obtain ⟨w, hw, -⟩ := Expr.exists_local_of_declaredBy hv
          cases hw
        · rfl
      simp only [hshown, upFront, afterDeclarations, linesOf, hline, Plan.declared, List.map_nil,
        List.isEmpty_nil, Bool.true_and, if_true] at htext
      by_cases hempty : s.textAt (.block i [] all ty :: path) c = ""
      · left
        refine ⟨?_, fun d hd => ?_⟩
        · rw [htext]
          split <;> simp [Line.write, Line.statement, hempty]
        · rw [hshown, List.mem_singleton] at hd
          rw [hd, hempty]
      · refine .inr ⟨c, hshown, ?_⟩
        rw [htext]
        split
        · simp [Line.write, Line.statement, hempty, Line.add, Lines.pushReturn, hposition]
        · simp [Line.write, Line.statement, hempty, Line.add, Lines.push]
  | _ => cases hblock

/-- Where nothing is returned, a statement that does not end by itself breaks the text of its block. -/
theorem Session.Writes.broken {path : List Expr} {e c : Expr} {known : List Nat} {text : String}
    (h : s.Writes env path e (e.plan path.head? known) text)
    (hposition : Position.under e path.head? = .statement)
    (hnames : ∀ v ∈ (e.plan path.head? known).upFront, Balanced (env.typeName v.ty) ∧ Balanced (s.nameGiven v))
    (hbalanced : ∀ d ∈ e.shown, Balanced (s.textAt (e :: path) d)) (hc : c ∈ e.shown)
    (hopen : s.NeedsSemicolon (e :: path) c) : Broken text := by
  have hreturned : ∀ l ∈ (e.plan path.head? known).lines, ∀ d, l ≠ .returned d :=
    e.not_returned (e.returnsValue_of_statement hposition) known
  have hmem := hc
  rw [← h.statements] at hmem
  obtain ⟨l, hl, rfl⟩ := List.mem_map.mp hmem
  have hlines : ∀ l ∈ (e.plan path.head? known).lines, Balanced (s.textAt (e :: path) l.statement) :=
    fun l hl => hbalanced _ (h.statements ▸ List.mem_map_of_mem hl)
  rw [h.text, Plan.write_eq, hposition]
  exact Plan.broken_written hnames hlines hl (hreturned l hl) hopen

end Blocks

end ExprText
