import ExprText.Proofs.Composed.Expressed

/-! # Layouts of conditionals

The five ways in which a conditional is written, and how its text is made of those of its parts in each. A
condition with a body in braces is a block of its own: nothing of it but its head is outside of brackets. -/

namespace ExprText

open Text Render Session

/-- How the branches of a conditional are written. -/
inductive Layout where
  /-- The first branch in braces, without an `else`. -/
  | alone
  /-- Both branches behind the test, as an operator. -/
  | operator
  /-- The first branch in braces and the statements of the second after it. -/
  | guard
  /-- The first branch in braces and the second, a conditional, behind an `else`. -/
  | elseIf
  /-- Both branches in braces. -/
  | both
deriving DecidableEq, Repr

/-- The layout of a conditional with the given branches and type. -/
def Layout.of (ifTrue ifFalse : Expr) (ty : Ty) : Layout :=
  if ifFalse.isEmpty && ty.isVoid then .alone
  else if !ty.isVoid && ifTrue.isSingle && ifFalse.isSingle then .operator
  else if !ifTrue.ty.isVoid then .guard
  else if ifFalse.isConditional then .elseIf
  else .both

/-- The layout of a node that is a conditional. -/
def Expr.layout? : Expr → Option Layout
  | .conditional _ _ ifTrue ifFalse ty => some (.of ifTrue ifFalse ty)
  | _ => none

/-- What a conditional is written as, in terms of its test and the bodies of its branches. -/
def Layout.write (test : String) (first second : Body) : Layout → String
  | .alone => ifText test first
  | .operator => test ++ " ? " ++ first.expression ++ " : " ++ second.expression
  | .guard => ifText test first ++ "\n\n" ++ second.statements
  | .elseIf => ifText test first ++ "\nelse " ++ second.expression
  | .both => ifText test first ++ "\nelse" ++ second.bracketed

theorem branches_eq {test : String} {ty : Ty} {ifTrue ifFalse : Expr} {first second : Body}
    (hfirst : first.isSingle = ifTrue.isSingle) (hsecond : second.isSingle = ifFalse.isSingle)
    (hempty : ¬(ifFalse.isEmpty && ty.isVoid) = true) :
    branches test ty ifTrue ifFalse first second = (Layout.of ifTrue ifFalse ty).write test first second := by
  unfold branches Layout.of
  rw [if_neg hempty, hfirst, hsecond]
  by_cases hternary : (!ty.isVoid && ifTrue.isSingle && ifFalse.isSingle) = true
  · rw [if_pos hternary, if_pos hternary, Layout.write]
  · rw [if_neg hternary, if_neg hternary]
    by_cases hvalue : (!ifTrue.ty.isVoid) = true
    · rw [if_pos hvalue, if_pos hvalue, Layout.write]
    · rw [if_neg hvalue, if_neg hvalue]
      split <;> rfl

theorem Session.Composes.text_of_layout {env : Env} {s : Session} {path : List Expr} {known : List Nat}
    {text : String} {i : Nat} {test ifTrue ifFalse : Expr} {ty : Ty}
    (h : s.Composes env path known (.conditional i test ifTrue ifFalse ty) text) :
    text = (Layout.of ifTrue ifFalse ty).write
      (s.textAt (.conditional i test ifTrue ifFalse ty :: path) test)
      (s.bodyAt (.conditional i test ifTrue ifFalse ty :: path) env.indent ifTrue)
      (s.bodyAt (.conditional i test ifTrue ifFalse ty :: path) env.indent ifFalse) := by
  rw [h.conditional_eq]
  split
  · next hempty => rw [Layout.of, if_pos hempty, Layout.write]
  · next hempty => exact branches_eq rfl rfl hempty

namespace Text

/-! ### Blocks under a condition -/

/-- A condition with a body in braces. -/
def ifBlock (test body : String) : String :=
  "if (" ++ test ++ ")\n\x7b" ++ body ++ "\x7d"

theorem ifBlock_eq (test body : String) :
    ifBlock test body = "if " ++ ("(" ++ test ++ ")") ++ ("\n" ++ ("\x7b" ++ body ++ "\x7d")) := by
  simp [ifBlock, ← String.toList_inj]

theorem head?_ifBlock (test body rest : String) :
    (ifBlock test body ++ rest).toList.head? ≠ some '(' := by
  simp [ifBlock]

section Bodies
variable {text : String} (isSingle : Bool) (n : Nat)

theorem exists_bracketed (h : Balanced text) :
    ∃ body, Balanced body ∧ (Body.mk text isSingle (blanks n)).bracketed = "\n\x7b" ++ body ++ "\x7d" := by
  have hline : Balanced "\n" := by decide
  unfold Body.bracketed
  split
  · exact ⟨"\n", hline, by decide⟩
  · refine ⟨_, (hline.append (h.terminated.indented n)).append hline, ?_⟩
    simp [Body.braces, ← String.toList_inj]

theorem exists_ifBlock {test : String} (ht : Balanced test) (h : Balanced text) :
    ∃ condition body, Balanced condition ∧ Balanced body ∧
      ifText test ⟨text, isSingle, blanks n⟩ = ifBlock condition body := by
  obtain ⟨body, hbody, heq⟩ := exists_bracketed isSingle n h
  have hcondition : ∃ condition, Balanced condition ∧ withParens test = "(" ++ condition ++ ")" := by
    unfold withParens
    split
    · next hgroup => exact ⟨withoutParens test, ht.withoutParens, (parens_withoutParens hgroup).symm⟩
    · exact ⟨test, ht, rfl⟩
  obtain ⟨condition, hcondition, hparens⟩ := hcondition
  refine ⟨condition, body, hcondition, hbody, ?_⟩
  rw [ifText, heq, hparens, ifBlock_eq]
  simp [← String.toList_inj]

end Bodies

section Blocks
variable {test body : String} (ht : Balanced test) (hb : Balanced body)
include ht hb

theorem balanced_ifBlock : Balanced (ifBlock test body) := by
  rw [ifBlock_eq]
  have hword : Balanced "if " := by decide
  have hline : Balanced "\n" := by decide
  exact (hword.append ht.parens).append (hline.append (hb.within rfl (by decide)))

theorem outermost_ifBlock : outermost (ifBlock test body) = ['i', 'f', ' ', '(', '\n', '\x7b'] := by
  have hword : Balanced "if " := by decide
  have hline : Balanced "\n" := by decide
  rw [ifBlock_eq, (hword.append ht.parens).outermost_append, hword.outermost_append,
    hline.outermost_append, ht.outermost_within rfl rfl, hb.outermost_within rfl rfl]
  decide

theorem unbroken_ifBlock : Unbroken (ifBlock test body) := by
  refine ⟨balanced_ifBlock ht hb, ?_⟩
  rw [outermost_ifBlock ht hb]
  decide

end Blocks

end Text

/-! ### Conditionals in finished renderings -/

/-- The text of a conditional in each of its layouts, with its blocks written out. -/
inductive Layout.Writes (test : String) (first second : Body) : Layout → String → Prop
  | alone {condition body : String} (hcondition : Balanced condition) (hbody : Balanced body) :
    Writes test first second .alone (ifBlock condition body)
  | operator (htest : Balanced test) : Writes test first second .operator
    (test ++ " ? " ++ first.expression ++ " : " ++ second.expression)
  | guard {condition body : String} (hcondition : Balanced condition) (hbody : Balanced body) :
    Writes test first second .guard (ifBlock condition body ++ "\n\n" ++ second.statements)
  | elseIf {condition body : String} (hcondition : Balanced condition) (hbody : Balanced body) :
    Writes test first second .elseIf (ifBlock condition body ++ "\nelse " ++ second.expression)
  | both {condition body other : String} (hcondition : Balanced condition) (hbody : Balanced body)
    (hother : Balanced other) : Writes test first second .both
      (ifBlock condition body ++ "\nelse" ++ ("\n\x7b" ++ other ++ "\x7d"))

theorem Layout.writes {test first second : String} {isSingle isSingle' : Bool} {n : Nat} {layout : Layout}
    (htest : Balanced test) (hfirst : Balanced first) (hsecond : layout ≠ .alone → Balanced second) :
    layout.Writes test ⟨first, isSingle, blanks n⟩ ⟨second, isSingle', blanks n⟩
      (layout.write test ⟨first, isSingle, blanks n⟩ ⟨second, isSingle', blanks n⟩) := by
  obtain ⟨condition, body, hcondition, hbody, hblock⟩ := exists_ifBlock isSingle n htest hfirst
  cases layout with
  | operator => exact .operator htest
  | both =>
    obtain ⟨other, hother, hbraces⟩ := exists_bracketed isSingle' n (hsecond (by decide))
    rw [write, hblock, hbraces]
    exact .both hcondition hbody hother
  | alone =>
    rw [write, hblock]
    exact .alone hcondition hbody
  | guard =>
    rw [write, hblock]
    exact .guard hcondition hbody
  | elseIf =>
    rw [write, hblock]
    exact .elseIf hcondition hbody

theorem Expr.mem_shown_second {i : Nat} {test ifTrue ifFalse : Expr} {ty : Ty}
    (h : Layout.of ifTrue ifFalse ty ≠ .alone) :
    ifFalse ∈ (Expr.conditional i test ifTrue ifFalse ty).shown := by
  have hempty : ¬(ifFalse.isEmpty && ty.isVoid) = true := fun hempty => h (by rw [Layout.of, if_pos hempty])
  rw [Expr.shown, if_neg hempty]
  simp

theorem balanced_bodyAt {s : Session} {path : List Expr} {c : Expr} (indent : String)
    (h : Balanced (s.textAt path c)) : Balanced (s.bodyAt path indent c).text := by
  unfold Session.bodyAt
  dsimp only
  split
  · exact h
  · exact balanced_strippedAt path c h

theorem Session.Finishes.layout_writes {root : Expr} {settings : Settings} {qualified : Bool} {s : Session}
    (h : s.Finishes root settings qualified) {path : List Expr} {i : Nat} {test ifTrue ifFalse : Expr}
    {ty : Ty} {text : String} (he : root.Reaches path (.conditional i test ifTrue ifFalse ty))
    (htext : s.memo.lookup ((Expr.conditional i test ifTrue ifFalse ty).place path) = some text) :
    (Layout.of ifTrue ifFalse ty).Writes
      (s.textAt (.conditional i test ifTrue ifFalse ty :: path) test)
      (s.bodyAt (.conditional i test ifTrue ifFalse ty :: path) settings.indent ifTrue)
      (s.bodyAt (.conditional i test ifTrue ifFalse ty :: path) settings.indent ifFalse) text := by
  have hbalanced : ∀ c ∈ (Expr.conditional i test ifTrue ifFalse ty).shown,
      Balanced (s.textAt (.conditional i test ifTrue ifFalse ty :: path) c) :=
    fun c hc => h.balanced_shown he htext hc
  obtain ⟨known, hcomposes⟩ := h.composed _ _ _ he htext
  rw [hcomposes.text_of_layout]
  exact Layout.writes (hbalanced test (by simp [Expr.shown]))
    (balanced_bodyAt settings.indent (hbalanced ifTrue (by simp [Expr.shown])))
    fun hne => balanced_bodyAt settings.indent (hbalanced ifFalse (Expr.mem_shown_second hne))

end ExprText
