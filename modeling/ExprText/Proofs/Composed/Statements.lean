import ExprText.Proofs.Composed.Phrases

/-! # Conditionals and loops

A conditional with a value whose branches are single statements is shown as an operator, and is a phrase if
its test and its branches are. Every other conditional is laid out as a statement, as all loops are: its
text starts with the head of one and has several lines. -/

namespace ExprText

open Text Render RenderM

/-- Whether a node is a conditional that is shown as an operator. -/
def Expr.isTernary : Expr → Bool
  | .conditional _ _ ifTrue ifFalse ty => !ty.isVoid && ifTrue.isSingle && ifFalse.isSingle
  | _ => false

/-- The body that a node makes of its text under the given nodes. -/
def Session.bodyAt (s : Session) (path : List Expr) (indent : String) (c : Expr) : Body :=
  ⟨if c.isBlock then s.textAt path c else strippedAt path c (s.textAt path c), c.isSingle, indent⟩

theorem runOn_bodyAt {env : Env} {s u : Session} {path : List Expr} (hpath : u.path = path) (c : Expr) :
    (body (s.recall path) c).runOn env u = (.ok (s.bodyAt path env.indent c), u) := by
  rw [runOn_body_recall, stripped_eq_strippedAt hpath]
  rfl

/-! ### Heads -/

theorem prefix_ifText (test : String) (body : Body) (rest : String) :
    "if (".toList <+: (ifText test body ++ rest).toList := by
  have hopen : ∃ inner, (withParens test).toList = '(' :: inner := by
    unfold withParens
    split
    · next hgroup =>
      obtain ⟨inner, hinner⟩ := eq_cons_of_isGroup hgroup
      exact ⟨_, hinner⟩
    · exact ⟨test.toList ++ [')'], by simp⟩
  obtain ⟨inner, hinner⟩ := hopen
  refine ⟨inner ++ body.bracketed.toList ++ rest.toList, ?_⟩
  simp [ifText, hinner]

theorem isMultiLine_ifText (test : String) (body : Body) (rest : String) :
    isMultiLine (ifText test body ++ rest) = true := by
  have hbreak : '\n' ∈ body.bracketed.toList := by
    unfold Body.bracketed
    split <;> simp
  rw [isMultiLine, List.contains_iff_mem, String.toList_append, ifText, String.toList_append]
  exact List.mem_append_left _ (List.mem_append_right _ hbreak)

/-! ### Conditionals -/

section Conditionals
variable {env : Env} {s : Session} {path : List Expr} {known : List Nat} {text : String} {i : Nat}
  {test ifTrue ifFalse : Expr} {ty : Ty}

theorem Session.Composes.conditional_eq
    (h : s.Composes env path known (.conditional i test ifTrue ifFalse ty) text) :
    text = if ifFalse.isEmpty && ty.isVoid then
        ifText (s.textAt (.conditional i test ifTrue ifFalse ty :: path) test)
          (s.bodyAt (.conditional i test ifTrue ifFalse ty :: path) env.indent ifTrue)
      else branches (s.textAt (.conditional i test ifTrue ifFalse ty :: path) test) ty ifTrue ifFalse
        (s.bodyAt (.conditional i test ifTrue ifFalse ty :: path) env.indent ifTrue)
        (s.bodyAt (.conditional i test ifTrue ifFalse ty :: path) env.indent ifFalse) := by
  obtain ⟨u, v, hpath, -, hrun⟩ := h.exists_run
  have hrun : (conditional (s.recall (.conditional i test ifTrue ifFalse ty :: path))
      (.conditional i test ifTrue ifFalse ty)).runOn env u = (.ok text, v) := hrun
  rw [conditional, runOn_bind_ok runOn_recall, runOn_bind_ok (runOn_bodyAt hpath ifTrue)] at hrun
  split at hrun
  · next hempty =>
    rw [if_pos hempty]
    exact eq_of_runOn_pure hrun
  · next hempty =>
    rw [runOn_bind_ok (runOn_bodyAt hpath ifFalse)] at hrun
    rw [if_neg hempty]
    exact eq_of_runOn_pure hrun

/-- A conditional that is no operator is laid out as a statement. -/
theorem Session.Composes.exists_ifText {e : Expr} (h : s.Composes env path known e text)
    (hconditional : e.isConditional = true) (hternary : e.isTernary = false) :
    ∃ test body rest, text = ifText test body ++ rest := by
  cases e with
  | conditional i test ifTrue ifFalse ty =>
    rw [h.conditional_eq]
    split
    · exact ⟨_, _, "", String.append_empty.symm⟩
    · unfold branches
      rw [if_neg (by simpa [Expr.isTernary, Session.bodyAt] using hternary)]
      split
      · exact ⟨_, _, _, String.append_assoc⟩
      · split
        · exact ⟨_, _, _, String.append_assoc⟩
        · exact ⟨_, _, _, String.append_assoc⟩
  | _ => cases hconditional

theorem Session.Composes.isMultiLine_of_isVoid {e : Expr} (h : s.Composes env path known e text)
    (hconditional : e.isConditional = true) (hvoid : e.ty.isVoid = true) : isMultiLine text = true := by
  have hternary : e.isTernary = false := by
    cases e with
    | conditional i test ifTrue ifFalse ty =>
      have hvoid : ty.isVoid = true := hvoid
      simp [Expr.isTernary, hvoid]
    | _ => rfl
  obtain ⟨test, body, rest, rfl⟩ := h.exists_ifText hconditional hternary
  exact isMultiLine_ifText test body rest

/-- A branch is a phrase where it is one without its semicolon. -/
theorem phrase_expression {c : Expr} {indent : String} (hphrase : Phrase (unterminated (s.textAt path c)))
    (hportable : c.isBlock = false → Portable (s.textAt path c)) :
    Phrase (s.bodyAt path indent c).expression := by
  unfold Body.expression Session.bodyAt
  cases hblock : c.isBlock with
  | true => exact hphrase
  | false =>
    have hstripped : Phrase (Session.strippedAt path c (s.textAt path c)) := phrase_stripped (hportable hblock)
    simpa [hstripped.unterminated_eq] using hstripped

/-- A conditional that is an operator is a phrase if its test and its branches are. -/
theorem portable_ternary (h : s.Composes env path known (.conditional i test ifTrue ifFalse ty) text)
    (hternary : (Expr.conditional i test ifTrue ifFalse ty).isTernary = true)
    (htest : Portable (s.textAt (.conditional i test ifTrue ifFalse ty :: path) test))
    (hbranches : ∀ c ∈ [ifTrue, ifFalse],
      Phrase (unterminated (s.textAt (.conditional i test ifTrue ifFalse ty :: path) c)) ∧
      (c.isBlock = false → Portable (s.textAt (.conditional i test ifTrue ifFalse ty :: path) c))) :
    Portable text := by
  have hbranch : ∀ c ∈ [ifTrue, ifFalse],
      Phrase (s.bodyAt (.conditional i test ifTrue ifFalse ty :: path) env.indent c).expression :=
    fun c hc => phrase_expression (hbranches c hc).1 (hbranches c hc).2
  have hfirst := hbranch ifTrue List.mem_cons_self
  have hsecond := hbranch ifFalse (List.mem_cons_of_mem _ List.mem_cons_self)
  have hvoid : ty.isVoid = false := by
    cases hvoid : ty.isVoid <;> simp [Expr.isTernary, hvoid] at hternary ⊢
  have heq := h.conditional_eq
  rw [hvoid, Bool.and_false, if_neg Bool.false_ne_true, branches,
    if_pos (by simpa [Expr.isTernary, Session.bodyAt] using hternary)] at heq
  have hmark : Unbroken " ? " := by decide
  have hcolon : Unbroken " : " := by decide
  have hrest := (hfirst.toUnbroken.append hcolon).append hsecond.toUnbroken
  rw [heq]
  simpa only [String.append_assoc] using htest.toPhrase.joined hmark (by decide) hrest

end Conditionals

/-! ### Loops -/

section Loops
variable {env : Env} {s : Session} {path : List Expr} {known : List Nat} {e : Expr} {text : String}

theorem Session.Composes.loop_eq {i : Nat} {inner : Expr} {breakLabel continueLabel : Option Label}
    (h : s.Composes env path known (.loop i (some inner) breakLabel continueLabel) text) :
    text = "while (true)" ++
      (s.bodyAt (.loop i (some inner) breakLabel continueLabel :: path) env.indent inner).bracketed := by
  obtain ⟨u, v, hpath, -, hrun⟩ := h.exists_run
  have hrun : (loop (s.recall (.loop i (some inner) breakLabel continueLabel :: path))
    (.loop i (some inner) breakLabel continueLabel)).runOn env u = (.ok text, v) := hrun
  rw [loop, runOn_bind_ok (runOn_bodyAt hpath inner)] at hrun
  exact eq_of_runOn_pure hrun

theorem Session.Composes.loop_eq_empty {i : Nat} {breakLabel continueLabel : Option Label}
    (h : s.Composes env path known (.loop i none breakLabel continueLabel) text) :
    text = "while (true)\n\x7b\n\x7d" := by
  obtain ⟨u, v, -, -, hrun⟩ := h.exists_run
  exact eq_of_runOn_pure hrun

theorem Session.Composes.prefix_loop (h : s.Composes env path known e text) (hloop : e.kind = .loop) :
    "while (true)".toList <+: text.toList := by
  cases e with
  | loop i body breakLabel continueLabel =>
    cases body with
    | none =>
      rw [h.loop_eq_empty]
      exact ⟨_, rfl⟩
    | some body =>
      rw [h.loop_eq, String.toList_append]
      exact List.prefix_append _ _
  | _ => cases hloop

theorem Session.Composes.unbroken_loop {settings : Settings} {qualified : Bool}
    (h : s.Composes { settings, qualified } path known e text) (hloop : e.kind = .loop)
    (hbalanced : ∀ c ∈ e.shown, Balanced (s.textAt (e :: path) c)) : Unbroken text := by
  cases e with
  | loop i body breakLabel continueLabel =>
    cases body with
    | none =>
      rw [h.loop_eq_empty]
      decide
    | some body =>
      have hword : Unbroken "while (true)" := by decide
      have hgiven := hbalanced body List.mem_cons_self
      rw [h.loop_eq]
      refine hword.append (.bracketed ?_ _ _)
      split
      · exact hgiven
      · exact Session.balanced_stripped _ body hgiven
  | _ => cases hloop

end Loops

end ExprText
