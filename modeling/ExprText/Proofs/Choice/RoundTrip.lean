import ExprText.Proofs.Choice.Reading
import ExprText.Proofs.Composed.Phrases
import ExprText.Proofs.Fixed
import ExprText.Proofs.Formula.RoundTrip

/-! # Rendered choices are read regrouped

The text of a graph that is a choice is the written choice, so a reader finds the choice regrouped:
branches and operands that are conditional operators are found as they were, and an operator whose test
is itself a conditional operator is found in the last branch of that test. -/

namespace ExprText

open RenderM

namespace Choice

open Formula (enclosedIf isWord isWordChar isSymbolChar)

/-- A choice as the rendering of its outermost node shows it. -/
def shown (c : Choice) : String :=
  enclosedIf c.operator?.isSome c.text

/-! ### Graphs that are choices -/

section Graphs
variable {e : Expr} {c : Choice}

/-- The three kinds of node that a choice is made of. -/
inductive Spells : Expr → Choice → Prop
  | name {id v n} (hn : v.name = some n) (hw : isWord n = true) : Spells (.variable id v) (name n)
  | binary {id op left right ty l r} (hop : op.isChecked = false) (hl : left.choice? = some l)
    (hr : right.choice? = some r) : Spells (.binary id op left right ty) (binary op l r)
  | choose {id test ifTrue ifFalse ty t f s} (hty : ty.isVoid = false) (ht : test.choice? = some t)
    (hf : ifTrue.choice? = some f) (hs : ifFalse.choice? = some s) :
    Spells (.conditional id test ifTrue ifFalse ty) (choose t f s)

theorem spells_of_choice? (h : e.choice? = some c) : Spells e c := by
  cases e with
  | «variable» id v =>
    simp only [Expr.choice?, Option.map_eq_some_iff, Option.filter_eq_some_iff] at h
    obtain ⟨n, ⟨hn, hw⟩, rfl⟩ := h
    exact .name hn hw
  | binary id op left right ty =>
    rw [Expr.choice?] at h
    cases hop : op.isChecked with
    | true => simp [hop] at h
    | false =>
      simp only [hop, Bool.false_eq_true, if_false, Option.bind_eq_bind, Option.bind_eq_some_iff,
        Option.pure_def, Option.some.injEq] at h
      obtain ⟨l, hl, r, hr, rfl⟩ := h
      exact .binary hop hl hr
  | conditional id test ifTrue ifFalse ty =>
    rw [Expr.choice?] at h
    cases hty : ty.isVoid with
    | true => simp [hty] at h
    | false =>
      simp only [hty, Bool.false_eq_true, if_false, Option.bind_eq_bind, Option.bind_eq_some_iff,
        Option.pure_def, Option.some.injEq] at h
      obtain ⟨t, ht, f, hf, s, hs, rfl⟩ := h
      exact .choose hty ht hf hs
  | _ => simp [Expr.choice?] at h

theorem plain_of_choice? (h : e.choice? = some c) : c.Plain := by
  induction e using Expr.childInduction generalizing c with
  | step e ih =>
    cases spells_of_choice? h with
    | name _ hw => exact hw
    | binary hop hl hr =>
      exact ⟨hop, ih _ (by simp [Expr.children]) hl, ih _ (by simp [Expr.children]) hr⟩
    | choose _ ht hf hs =>
      exact ⟨ih _ (by simp [Expr.children]) ht, ih _ (by simp [Expr.children]) hf,
        ih _ (by simp [Expr.children]) hs⟩

theorem chainHasChecked_eq_false (h : e.choice? = some c) : Render.chainHasChecked e = false := by
  induction e using Expr.childInduction generalizing c with
  | step e ih =>
    cases spells_of_choice? h with
    | name | choose => rfl
    | binary hop hl hr =>
      simp [Render.chainHasChecked, hop, ih _ (by simp [Expr.children]) hl,
        ih _ (by simp [Expr.children]) hr]

end Graphs

/-! ### Parentheses of written choices -/

section Texts

open Text (Unbroken)

theorem unbroken_word {n : String} (h : isWord n = true) : Unbroken n := by
  have hmarks : (';' :: Text.nestingMarks).all (!isWordChar ·) = true := by decide
  simp only [isWord, Bool.and_eq_true, List.all_eq_true] at h
  have hfree : Text.Free (';' :: Text.nestingMarks) n := fun c hc hmem =>
    Formula.isWordChar_ne (h.2 c hc) (by simpa using List.all_eq_true.mp hmarks c hmem) rfl
  exact (Text.Phrase.of_free hfree).toUnbroken

theorem unbroken_enclosedIf {text : String} (h : Unbroken text) (b : Bool) :
    Unbroken (enclosedIf b text) := by
  cases b with
  | false => exact h
  | true => exact .parens h.balanced

theorem unbroken_text : ∀ c : Choice, c.Plain → Unbroken c.text
  | name _, hp => unbroken_word hp
  | binary op left right, ⟨_, hl, hr⟩ => by
    have hleft := unbroken_enclosedIf (unbroken_text left hl) (needsParens op .left left)
    have hright := unbroken_enclosedIf (unbroken_text right hr) (needsParens op .right right)
    have h := (hleft.append (unbroken_symbol op).1).append hright
    simpa only [text, String.append_assoc] using h
  | choose test first second, ⟨ht, hf, hs⟩ => by
    have htest := unbroken_enclosedIf (unbroken_text test ht) test.operator?.isSome
    have hmark : Unbroken " ? " := by decide
    have hcolon : Unbroken " : " := by decide
    exact (((htest.append hmark).append (unbroken_text first hf)).append hcolon).append
      (unbroken_text second hs)

theorem shown_ne_empty {c : Choice} (hp : c.Plain) : c.shown ≠ "" := by
  intro h
  cases c with
  | name n =>
    have hn : isWord n = true := hp
    have hempty : n = "" := h
    rw [hempty] at hn
    cases hn
  | binary => simp [shown, operator?, enclosedIf] at h
  | choose => simp [shown, operator?, enclosedIf, text] at h

theorem withoutParens_name {n : String} (h : isWord n = true) : Text.withoutParens n = n := by
  have hgroup : Text.isGroup n = false := Text.isGroup_eq_false fun hhead => by
    simp only [isWord, Bool.and_eq_true, List.all_eq_true] at h
    exact absurd (h.2 _ (List.mem_of_head? hhead)) (by decide)
  rw [Text.withoutParens, hgroup, if_neg Bool.false_ne_true]

/-- The parentheses that a test or a binary operator in it stands in are not those of the whole. -/
theorem withParens_choose {test first second : Choice} (hp : (choose test first second).Plain) :
    Text.withParens (choose test first second).text = "(" ++ (choose test first second).text ++ ")" := by
  have htest := (unbroken_enclosedIf (unbroken_text test hp.1) test.operator?.isSome).balanced
  have hgroup := htest.not_isGroup_append (b := " ? " ++ first.text ++ " : " ++ second.text)
    (shown_ne_empty hp.1) (by simp)
  simp only [← String.append_assoc] at hgroup
  rw [Text.withParens, text, hgroup, if_neg Bool.false_ne_true]

end Texts

/-! ### Showing a choice -/

/-- The fixed text of a node that is a choice. -/
def textOf? (e : Expr) : Option String :=
  e.choice?.map shown

theorem textOf?_eq {e : Expr} {c : Choice} (h : e.choice? = some c) : textOf? e = some c.shown := by
  rw [textOf?, h, Option.map_some]

section Rendering
variable {root : Expr} {env : Env} {visit : Visit} {e : Expr} {c : Choice}

theorem yields_operandText (hc : e.choice? = some c) (h : Yields textOf? root env (visit e) c.shown) :
    Yields textOf? root env (operandText visit e) (enclosedIf (c.operator?.isSome || c.isChoose) c.text) := by
  have hp := plain_of_choice? hc
  cases spells_of_choice? hc with
  | name | binary => exact h.bind (yields_pure _)
  | choose => exact h.bind (withParens_choose hp ▸ yields_pure _)

theorem yields_binaryOperand (hc : e.choice? = some c) (h : Yields textOf? root env (visit e) c.shown)
    (parent : BinaryOp) (side : BinaryOp.Side) :
    Yields textOf? root env (Render.binaryOperand visit parent side e)
      (enclosedIf (needsParens parent side c) c.text) := by
  have hp := plain_of_choice? hc
  have htext := yields_operandText hc h
  cases spells_of_choice? hc with
  | name | choose => exact htext.bind (yields_pure _)
  | @binary _ op _ _ _ l r =>
    have hstrip := Text.withoutParens_parens (unbroken_text _ hp).balanced
    have hneeds : needsParens parent side (binary op l r) = parent.operandNeedsParens op side := by
      simp [needsParens, isChoose, operator?]
    refine htext.bind ?_
    rw [hneeds]
    cases hparens : parent.operandNeedsParens op side with
    | true => simpa [hparens, operator?, isChoose] using yields_pure _
    | false => simpa [hparens, operator?, isChoose, enclosedIf, hstrip] using yields_pure _

/-- As a body a choice stands without parentheses around it. -/
theorem stripped_shown (hc : e.choice? = some c) (s : Session) : s.stripped e c.shown = c.text := by
  have hp := plain_of_choice? hc
  cases spells_of_choice? hc with
  | name _ hw => exact withoutParens_name hw
  | binary => exact Text.withoutParens_parens (unbroken_text _ hp).balanced
  | choose => rfl

theorem yields_body (hc : e.choice? = some c) (h : Yields textOf? root env (visit e) c.shown) :
    Yields textOf? root env (body visit e) ⟨c.text, true, env.indent⟩ := by
  have hstrip := stripped_shown hc
  cases spells_of_choice? hc with
  | name | binary | choose =>
    exact h.bind ((yields_stripped hstrip).bind (yields_indent.bind (yields_pure _)))

theorem yields_render (hroot : root.Coherent) (he : e ∈ root.nodes) (hc : e.choice? = some c)
    (h : ∀ x ∈ e.children, ∀ given, textOf? x = some given → Yields textOf? root env (visit x) given) :
    Yields textOf? root env (e.kind.renderer.render visit e) c.shown := by
  have hchild : ∀ x ∈ e.children, ∀ d, x.choice? = some d → Yields textOf? root env (visit x) d.shown :=
    fun x hx d hd => h x hx _ (textOf?_eq hd)
  have hchecked := chainHasChecked_eq_false hc
  have hp := plain_of_choice? hc
  cases spells_of_choice? hc with
  | @name _ v n hn hw =>
    have hexplicit : v.explicitName? = some n := by
      simp [Variable.explicitName?, hn, Formula.not_isSynthesized hw]
    exact yields_nameOf hroot ⟨_, he, by simp [Expr.requests]⟩ hexplicit
  | @binary _ op left right ty l r _ hl hr =>
    have hleft := yields_binaryOperand hl (hchild left (by simp [Expr.children]) l hl) op .left
    have hright := yields_binaryOperand hr (hchild right (by simp [Expr.children]) r hr) op .right
    refine hleft.bind (hright.bind ?_)
    simpa only [shown, operator?, Option.isSome_some, enclosedIf, if_true, text, String.append_assoc]
      using yields_wrapChecked hchecked _
  | @choose _ test ifTrue ifFalse ty t f s hty ht hf hs =>
    have htest := hchild test (by simp [Expr.children]) t ht
    have hfirst := yields_body hf (hchild ifTrue (by simp [Expr.children]) f hf)
    have hsecond := yields_body hs (hchild ifFalse (by simp [Expr.children]) s hs)
    refine htest.bind (hfirst.bind ?_)
    rw [hty, Bool.and_false, if_neg Bool.false_ne_true]
    refine hsecond.bind ?_
    rw [Render.branches, hty]
    have hfirst' := (unbroken_text f hp.2.1).unterminated_eq
    have hsecond' := (unbroken_text s hp.2.2).unterminated_eq
    simp only [Bool.not_false, Bool.and_self, if_true, Body.expression, hfirst', hsecond']
    exact yields_pure _

end Rendering

theorem render_eq_shown (settings : Settings) (qualified : Bool) {e : Expr} (he : e.Coherent)
    {c : Choice} (hc : e.choice? = some c) : e.render { settings, qualified } = .ok c.shown := by
  refine render_eq_of_yields he (textOf?_eq hc) fun visit x text hx htext hchildren => ?_
  obtain ⟨d, hd, rfl⟩ := Option.map_eq_some_iff.mp htext
  exact yields_render he hx hd hchildren

/-- The text of a graph that is a choice says the regrouped choice. It says the choice itself exactly if
    no conditional operator is the test of another, and two graphs with one text are regrouped to the
    same choice. -/
theorem read_rendered_choice (settings : Settings) (qualified : Bool) (e : Expr) (he : e.Coherent)
    (c : Choice) (hc : e.choice? = some c) :
    ∃ text, e.render { settings, qualified } = .ok text ∧ read text = some c.regroup ∧
      (read text = some c ↔ c.TestsPlain) ∧
      ∀ (other : Expr) (d : Choice), other.Coherent → other.choice? = some d →
        other.render { settings, qualified } = .ok text →
          d.regroup = c.regroup ∧ (c.TestsPlain → d.TestsPlain → d = c) := by
  have hread : read c.shown = some c.regroup := read_shown (plain_of_choice? hc)
  refine ⟨c.shown, render_eq_shown settings qualified he hc, hread, ?_, fun other d hother hd htext => ?_⟩
  · rw [hread, Option.some.injEq, regroup_eq_iff]
  · rw [render_eq_shown settings qualified hother hd, Except.ok.injEq] at htext
    have hread' : read d.shown = some d.regroup := read_shown (plain_of_choice? hd)
    rw [htext, hread, Option.some.injEq] at hread'
    refine ⟨hread'.symm, fun hplain hplain' => ?_⟩
    rw [← hplain.regroup_eq, hread', hplain'.regroup_eq]

section Nested

private def boolNamed (id : Nat) (n : String) : Expr := .variable id ⟨id, some n, .bool⟩

private def intNamed (id : Nat) (n : String) : Expr := .variable id ⟨id, some n, .int⟩

/-- The names that the graphs below ask for, by their keys. -/
private def nested_requests : NameKey → NameRequest
  | .variable 0 => .variable ⟨0, some "t", .bool⟩
  | .variable 1 => .variable ⟨1, some "u", .bool⟩
  | .variable 2 => .variable ⟨2, some "w", .bool⟩
  | .variable 3 => .variable ⟨3, some "a", .int⟩
  | _ => .variable ⟨4, some "b", .int⟩

private def sharedChoice : Expr :=
  .conditional 5 (boolNamed 1 "u") (intNamed 3 "a") (intNamed 4 "b") .int

/-- A choice between a sum with a choice in it and that choice again: one node at two places. -/
private def choiceOfSums : Expr :=
  .conditional 7 (boolNamed 0 "t") (.binary 6 .add sharedChoice (intNamed 3 "a") .int) sharedChoice .int

private theorem choiceOfSums_coherent : choiceOfSums.Coherent := by
  have hnode : choiceOfSums.NodesCoherent := .of_nodeAt rfl
  refine hnode.coherent nested_requests ?_
  simp [choiceOfSums, sharedChoice, boolNamed, intNamed, Expr.nodes, Expr.requests, NameRequest.key,
    nested_requests]

theorem read_rendered_choice_of_sums :
    choiceOfSums.Coherent ∧ ∃ c, choiceOfSums.choice? = some c ∧ c.TestsPlain ∧
      ∃ text, choiceOfSums.render {} = .ok text ∧ read text = some c := by
  obtain ⟨text, hrender, -, hread, -⟩ :=
    read_rendered_choice {} false choiceOfSums choiceOfSums_coherent _ rfl
  exact ⟨choiceOfSums_coherent, _, rfl, by decide, text, hrender, hread.mpr (by decide)⟩

/-- A choice by the result of a choice. -/
private def choiceByChoice : Expr :=
  .conditional 6 (.conditional 5 (boolNamed 0 "t") (boolNamed 1 "u") (boolNamed 2 "w") .bool) (intNamed 3 "a")
    (intNamed 4 "b") .int

private def choiceInBranch : Expr :=
  .conditional 6 (boolNamed 0 "t") (boolNamed 1 "u")
    (.conditional 5 (boolNamed 2 "w") (intNamed 3 "a") (intNamed 4 "b") .int) .int

/-- Two different choices have one text, and a reader takes it for the second. -/
theorem nested_choices_ambiguous :
    choiceByChoice.Coherent ∧ choiceInBranch.Coherent ∧
      ∃ c d, choiceByChoice.choice? = some c ∧ choiceInBranch.choice? = some d ∧ c ≠ d ∧
        choiceByChoice.render {} = .ok "t ? u : w ? a : b" ∧
        choiceInBranch.render {} = .ok "t ? u : w ? a : b" ∧
        read "t ? u : w ? a : b" = some d := by
  have hnode : choiceByChoice.NodesCoherent := .of_nodeAt rfl
  have hnode' : choiceInBranch.NodesCoherent := .of_nodeAt rfl
  refine ⟨hnode.coherent nested_requests ?_, hnode'.coherent nested_requests ?_, _, _, rfl, rfl,
    by decide, by decide +kernel, by decide +kernel, ?_⟩
  · simp [choiceByChoice, boolNamed, intNamed, Expr.nodes, Expr.requests, NameRequest.key, nested_requests]
  · simp [choiceInBranch, boolNamed, intNamed, Expr.nodes, Expr.requests, NameRequest.key, nested_requests]
  · exact read_shown (c := choose (name "t") (name "u") (choose (name "w") (name "a") (name "b")))
      (by simp [Plain]; decide)

end Nested

end Choice

end ExprText
