import ExprText.Proofs.Fixed
import ExprText.Proofs.Formula.Reading
import ExprText.Proofs.Group

/-! # Rendered formulas are read back

The text of a graph that is a formula is the written formula, in parentheses where its outermost node
is a binary operator, so reading it gives the formula back: the parentheses that rendering leaves out
are never missed. The text of such a node does not depend on where it stands, so the remembered texts
are those that showing the nodes again would give. -/

namespace ExprText

open RenderM

namespace Formula

/-- A formula as the rendering of its outermost node shows it. -/
def shown (f : Formula) : String :=
  enclosedIf f.isBinary f.text

/-! ### Graphs that are formulas -/

section Graphs
variable {e : Expr} {f : Formula}

theorem formula?_variable {id : Nat} {v : Variable} (h : (Expr.variable id v).formula? = some f) :
    ∃ n, v.name = some n ∧ isWord n = true ∧ f = name n := by
  simp only [Expr.formula?, Option.map_eq_some_iff, Option.filter_eq_some_iff] at h
  obtain ⟨n, ⟨hn, hw⟩, rfl⟩ := h
  exact ⟨n, hn, hw, rfl⟩

theorem formula?_unary {id : Nat} {op : UnaryOp} {operand : Expr} {ty : Ty}
    (h : (Expr.unary id op operand ty).formula? = some f) :
    ∃ sign g, sign.op = op ∧ operand.formula? = some g ∧ f = signed sign g := by
  simp only [Expr.formula?, Option.bind_eq_bind, Option.bind_eq_some_iff, Option.pure_def,
    Option.some.injEq] at h
  obtain ⟨sign, hsign, g, hg, rfl⟩ := h
  have := List.find?_some hsign
  exact ⟨sign, g, eq_of_beq this, hg, rfl⟩

theorem formula?_binary {id : Nat} {op : BinaryOp} {left right : Expr} {ty : Ty}
    (h : (Expr.binary id op left right ty).formula? = some f) :
    ∃ l r, op.isChecked = false ∧ left.formula? = some l ∧ right.formula? = some r ∧
      f = binary op l r := by
  rw [Expr.formula?] at h
  cases hop : op.isChecked with
  | true => simp [hop] at h
  | false =>
    simp only [hop, Bool.false_eq_true, if_false, Option.bind_eq_bind, Option.bind_eq_some_iff,
      Option.pure_def, Option.some.injEq] at h
    obtain ⟨l, hl, r, hr, rfl⟩ := h
    exact ⟨l, r, rfl, hl, hr, rfl⟩

theorem formula?_cases (h : e.formula? = some f) :
    (∃ id v, e = .variable id v) ∨ (∃ id op operand ty, e = .unary id op operand ty) ∨
      ∃ id op left right ty, e = .binary id op left right ty := by
  cases e with
  | «variable» id v => exact Or.inl ⟨id, v, rfl⟩
  | unary id op operand ty => exact Or.inr (Or.inl ⟨id, op, operand, ty, rfl⟩)
  | binary id op left right ty => exact Or.inr (Or.inr ⟨id, op, left, right, ty, rfl⟩)
  | _ => simp [Expr.formula?] at h

theorem plain_of_formula? (h : e.formula? = some f) : f.Plain := by
  induction e using Expr.childInduction generalizing f with
  | step e ih =>
    rcases formula?_cases h with ⟨id, v, rfl⟩ | ⟨id, op, operand, ty, rfl⟩ | ⟨id, op, left, right, ty, rfl⟩
    · obtain ⟨n, -, hw, rfl⟩ := formula?_variable h
      exact hw
    · obtain ⟨sign, g, -, hg, rfl⟩ := formula?_unary h
      show g.Plain
      exact ih operand (by simp [Expr.children]) hg
    · obtain ⟨l, r, hop, hl, hr, rfl⟩ := formula?_binary h
      exact ⟨hop, ih left (by simp [Expr.children]) hl, ih right (by simp [Expr.children]) hr⟩

theorem chainHasChecked_eq_false (h : e.formula? = some f) : Render.chainHasChecked e = false := by
  induction e using Expr.childInduction generalizing f with
  | step e ih =>
    rcases formula?_cases h with ⟨id, v, rfl⟩ | ⟨id, op, operand, ty, rfl⟩ | ⟨id, op, left, right, ty, rfl⟩
    · rfl
    · obtain ⟨sign, g, rfl, hg, rfl⟩ := formula?_unary h
      have hop : sign.op.isChecked = false := by cases sign <;> rfl
      simp [Render.chainHasChecked, hop, ih operand (by simp [Expr.children]) hg]
    · obtain ⟨l, r, hop, hl, hr, rfl⟩ := formula?_binary h
      simp [Render.chainHasChecked, hop, ih left (by simp [Expr.children]) hl,
        ih right (by simp [Expr.children]) hr]

end Graphs

/-! ### Parentheses of written formulas -/

theorem isWordChar_plain {c : Char} (h : isWordChar c = true) :
    c ≠ '"' ∧ c ≠ '\x27' ∧ c ≠ '(' ∧ c ≠ ')' :=
  ⟨isWordChar_ne h (by decide), isWordChar_ne h (by decide), isWordChar_ne h (by decide),
    isWordChar_ne h (by decide)⟩

theorem isSymbolChar_plain {c : Char} (h : isSymbolChar c = true) :
    c ≠ '"' ∧ c ≠ '\x27' ∧ c ≠ '(' ∧ c ≠ ')' :=
  ⟨isSymbolChar_ne h (by decide), isSymbolChar_ne h (by decide), isSymbolChar_ne h (by decide),
    isSymbolChar_ne h (by decide)⟩

theorem passed_enclosedIf {text : String} (h : Text.Passed text.toList) (b : Bool) :
    Text.Passed (enclosedIf b text).toList := by
  cases b with
  | false => exact h
  | true => simpa [enclosedIf, String.toList_append] using h.parens

/-- The parentheses of a written formula match each other. -/
theorem passed_text : ∀ f : Formula, f.Plain → Text.Passed f.text.toList
  | name n, hp => by
    have hn : isWord n = true := hp
    simp only [isWord, Bool.and_eq_true, List.all_eq_true] at hn
    exact Text.passed_of_plain fun c hc => isWordChar_plain (hn.2 c hc)
  | signed sign f, hp => by
    have hsign : Text.Passed sign.symbol.toList :=
      Text.passed_of_plain fun c hc => isSymbolChar_plain ((sign_chars sign).2 c hc)
    rw [text, String.toList_append]
    exact hsign.append (passed_enclosedIf (passed_text f hp) _)
  | binary op left right, ⟨_, hl, hr⟩ => by
    have hop : Text.Passed op.symbol.toList :=
      Text.passed_of_plain fun c hc => isSymbolChar_plain ((symbol_chars op).2 c hc)
    have hblank : Text.Passed " ".toList := Text.passed_of_plain fun c hc => by
      obtain rfl : c = ' ' := List.mem_singleton.mp hc
      decide
    have hleft := passed_enclosedIf (passed_text left hl) (needsParens op .left left)
    have hright := passed_enclosedIf (passed_text right hr) (needsParens op .right right)
    simp only [text, String.toList_append]
    exact (((hleft.append hblank).append hop).append hblank).append hright

/-- The parentheses that a binary operator shows around itself can be taken off. -/
theorem withoutParens_shown {f : Formula} (hp : f.Plain) (hb : f.isBinary = true) :
    Text.withoutParens f.shown = f.text := by
  rw [shown, hb, enclosedIf, if_pos rfl]
  exact (passed_text f hp).withoutParens

theorem withParens_signed (sign : Sign) (f : Formula) :
    Text.withParens (signed sign f).shown = "(" ++ (signed sign f).text ++ ")" := by
  have hshown : (signed sign f).shown = (signed sign f).text := rfl
  have hhead : (signed sign f).text.toList.head? ≠ some '(' := by
    cases sign <;> simp [text, Sign.symbol, String.toList_append]
  rw [hshown, Text.withParens, Text.isGroup_eq_false hhead]
  rfl

/-! ### Names -/

theorem not_isSynthesized {n : String} (h : isWord n = true) : Name.isSynthesized n = false := by
  simp only [isWord, Bool.and_eq_true, List.all_eq_true] at h
  rw [Name.isSynthesized, List.any_eq_false]
  intro c hc
  have hw := h.2 c hc
  have h1 := isWordChar_ne (d := '<') hw (by decide)
  have h2 := isWordChar_ne (d := '>') hw (by decide)
  have h3 := isWordChar_ne (d := '$') hw (by decide)
  simp [h1, h2, h3]

/-! ### Showing a formula -/

/-- The fixed text of a node that is a formula. -/
def textOf? (e : Expr) : Option String :=
  e.formula?.map shown

section Rendering
variable {root : Expr} {env : Env} {visit : Visit} {e : Expr} {f : Formula}

theorem yields_operandText (hf : e.formula? = some f) (h : Yields textOf? root env (visit e) f.shown) :
    Yields textOf? root env (operandText visit e) f.shown := by
  rcases formula?_cases hf with ⟨id, v, rfl⟩ | ⟨id, op, operand, ty, rfl⟩ | ⟨id, op, left, right, ty, rfl⟩ <;>
    exact h.bind (yields_pure _)

theorem yields_binaryOperand (hf : e.formula? = some f) (h : Yields textOf? root env (visit e) f.shown)
    (parent : BinaryOp) (side : BinaryOp.Side) :
    Yields textOf? root env (Render.binaryOperand visit parent side e)
      (enclosedIf (needsParens parent side f) f.text) := by
  refine (yields_operandText hf h).bind ?_
  rcases formula?_cases hf with ⟨id, v, rfl⟩ | ⟨id, op, operand, ty, rfl⟩ | ⟨id, op, left, right, ty, rfl⟩
  · obtain ⟨n, -, -, rfl⟩ := formula?_variable hf
    exact yields_pure _
  · obtain ⟨sign, g, -, -, rfl⟩ := formula?_unary hf
    exact yields_pure _
  · obtain ⟨l, r, -, -, -, rfl⟩ := formula?_binary hf
    have hstrip := withoutParens_shown (plain_of_formula? hf) rfl
    simp only [hstrip, needsParens]
    cases parent.operandNeedsParens op side <;> exact yields_pure _

theorem sign_operand (hf : e.formula? = some f) :
    (if needsGrouping e then Text.withParens f.shown else f.shown) =
      enclosedIf (!f.isName) f.text := by
  rcases formula?_cases hf with ⟨id, v, rfl⟩ | ⟨id, op, operand, ty, rfl⟩ | ⟨id, op, left, right, ty, rfl⟩
  · obtain ⟨n, -, -, rfl⟩ := formula?_variable hf
    rfl
  · obtain ⟨sign, g, rfl, -, rfl⟩ := formula?_unary hf
    have hgroup : needsGrouping (.unary id sign.op operand ty) = true := by cases sign <;> rfl
    rw [if_pos hgroup, withParens_signed]
    rfl
  · obtain ⟨l, r, -, -, -, rfl⟩ := formula?_binary hf
    rfl

theorem yields_unary {id : Nat} {op : UnaryOp} {operand : Expr} {ty : Ty}
    (hf : (Expr.unary id op operand ty).formula? = some f)
    (h : ∀ g, operand.formula? = some g → Yields textOf? root env (visit operand) g.shown) :
    Yields textOf? root env (Render.unary visit (.unary id op operand ty)) f.shown := by
  have hchecked := chainHasChecked_eq_false hf
  obtain ⟨sign, g, rfl, hg, rfl⟩ := formula?_unary hf
  refine (yields_operandText hg (h g hg)).bind (yields_read.bind ?_)
  rw [sign_operand hg]
  cases sign <;> exact yields_wrapChecked hchecked _

theorem yields_binary {id : Nat} {op : BinaryOp} {left right : Expr} {ty : Ty}
    (hf : (Expr.binary id op left right ty).formula? = some f)
    (hleft : ∀ g, left.formula? = some g → Yields textOf? root env (visit left) g.shown)
    (hright : ∀ g, right.formula? = some g → Yields textOf? root env (visit right) g.shown) :
    Yields textOf? root env (Render.binary visit (.binary id op left right ty)) f.shown := by
  have hchecked := chainHasChecked_eq_false hf
  obtain ⟨l, r, -, hl, hr, rfl⟩ := formula?_binary hf
  refine (yields_binaryOperand hl (hleft l hl) op .left).bind
    ((yields_binaryOperand hr (hright r hr) op .right).bind ?_)
  simpa only [shown, isBinary, enclosedIf, if_true, text, String.append_assoc]
    using yields_wrapChecked hchecked _

theorem yields_render (hroot : root.Coherent) (he : e ∈ root.nodes) (hf : e.formula? = some f)
    (h : ∀ c ∈ e.children, ∀ g, c.formula? = some g → Yields textOf? root env (visit c) g.shown) :
    Yields textOf? root env (e.kind.renderer.render visit e) f.shown := by
  rcases formula?_cases hf with ⟨id, v, rfl⟩ | ⟨id, op, operand, ty, rfl⟩ | ⟨id, op, left, right, ty, rfl⟩
  · obtain ⟨n, hn, hw, rfl⟩ := formula?_variable hf
    have hexplicit : v.explicitName? = some n := by
      simp [Variable.explicitName?, hn, not_isSynthesized hw]
    exact yields_nameOf hroot ⟨_, he, by simp [Expr.requests]⟩ hexplicit
  · exact yields_unary hf (h operand (by simp [Expr.children]))
  · exact yields_binary hf (h left (by simp [Expr.children])) (h right (by simp [Expr.children]))

/-- A node of a graph that is a formula is shown as the formula, whatever was shown before. -/
theorem visit_shows (hroot : root.Coherent) (henv : env.registry = .standard) (depth : Nat) (e : Expr)
    (f : Formula) (he : e ∈ root.nodes) (hdepth : e.height ≤ depth) (hf : e.formula? = some f) :
    Yields textOf? root env (ExprText.visit depth e) f.shown := by
  have hfixed : ∀ {c g}, c.formula? = some g → textOf? c = some g.shown := fun hg => by
    rw [textOf?, hg, Option.map_some]
  refine yields_visit hroot henv (fun visit x text hx htext hchildren => ?_) depth e f.shown he hdepth
    (hfixed hf)
  obtain ⟨g, hg, rfl⟩ := Option.map_eq_some_iff.mp htext
  exact yields_render hroot hx hg fun c hc g hg => hchildren c hc _ (hfixed hg)

end Rendering

/-- The text of a graph that is a formula says that formula. -/
theorem read_render (settings : Settings) (qualified : Bool) (e : Expr) (he : e.Coherent)
    (f : Formula) (hf : e.formula? = some f) :
    ∃ text, e.render { settings, qualified } = .ok text ∧ read text = some f := by
  have henv : ({ settings, qualified } : Env).registry = .standard := by simp
  obtain ⟨t, hrun, -⟩ := visit_shows he henv e.height e f e.self_mem_nodes (Nat.le_refl _) hf
    (.start e) (remembered_start e)
  refine ⟨f.shown, ?_, read_enclosedIf (plain_of_formula? hf) f.isBinary⟩
  rw [Expr.render, textOf, hrun]

section Shared

private def sumOfNames : Expr :=
  .binary 2 .add (.variable 0 ⟨0, some "a", .int⟩) (.variable 1 ⟨1, some "b", .int⟩) .int

/-- A sum less its own negation: one node at two places. -/
private def sharedSum : Expr :=
  .binary 4 .subtract sumOfNames (.unary 3 .negate sumOfNames .int) .int

private theorem sharedSum_coherent : sharedSum.Coherent := by
  have hnode : sharedSum.NodesCoherent := .of_nodeAt rfl
  refine hnode.coherent (fun key => if key = .variable 0 then .variable ⟨0, some "a", .int⟩
    else .variable ⟨1, some "b", .int⟩) ?_
  simp [sharedSum, sumOfNames, Expr.nodes, Expr.requests, NameRequest.key]

theorem read_render_sharedSum :
    sharedSum.Coherent ∧ ∃ text, sharedSum.render {} = .ok text ∧
      read text = some (.binary .subtract (.binary .add (.name "a") (.name "b"))
        (.signed .minus (.binary .add (.name "a") (.name "b")))) :=
  ⟨sharedSum_coherent, read_render {} false sharedSum sharedSum_coherent _ (by decide)⟩

end Shared

end Formula

end ExprText
