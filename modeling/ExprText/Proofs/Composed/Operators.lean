import ExprText.Proofs.Composed.Children

/-! # Texts of operators

An operator with the texts of its operands, and the overflow check around it if it carries one. -/

namespace ExprText

open Text Render RenderM

/-- An operand of a binary operator, without the parentheses that the reader does not need. -/
def sideText (parent : BinaryOp) (side : BinaryOp.Side) (operand : Expr) (text : String) : String :=
  match operand with
  | .binary _ op _ _ _ => if parent.operandNeedsParens op side then text else withoutParens text
  | _ => if operand.isWrapped then withParens text else text

def binaryText (op : BinaryOp) (left right : Expr) (leftText rightText : String) : String :=
  "(" ++ sideText op .left left leftText ++ " " ++ op.symbol ++ " " ++ sideText op .right right rightText ++ ")"

/-- The operand of a unary operator, in parentheses if it needs them to stand behind a sign. -/
def groupedText (operand : Expr) (text : String) : String :=
  if needsGrouping operand then withParens (if operand.isWrapped then withParens text else text) else text

variable {env : Env} {s : Session} {path : List Expr} {known : List Nat} {text : String} {i : Nat} {ty : Ty}

theorem runOn_binaryOperand_recall {u : Session} (op : BinaryOp) (side : BinaryOp.Side) (c : Expr) :
    (binaryOperand (s.recall path) op side c).runOn env u = (.ok (sideText op side c (s.textAt path c)), u) := by
  rw [binaryOperand, runOn_bind_ok runOn_operandText_recall]
  cases c <;> rfl

theorem Session.Composes.binary_eq_wrapped {op : BinaryOp} {left right : Expr}
    (h : s.Composes env path known (.binary i op left right ty) text) :
    text = (if carriesChecked path.head? (.binary i op left right ty) then checkedText env.indent else id)
      (binaryText op left right (s.textAt (.binary i op left right ty :: path) left)
        (s.textAt (.binary i op left right ty :: path) right)) := by
  obtain ⟨u, v, hpath, -, hrun⟩ := h.exists_run
  have hrun : (binary (s.recall (.binary i op left right ty :: path)) (.binary i op left right ty)).runOn env u =
    (.ok text, v) := hrun
  have hparent : u.parent? = path.head? := by rw [Session.parent?, hpath, List.tail_cons]
  rw [binary, runOn_bind_ok (runOn_binaryOperand_recall ..), runOn_bind_ok (runOn_binaryOperand_recall ..),
    runOn_wrapChecked_recall, hparent] at hrun
  cases hrun
  split <;> rfl

theorem Session.Composes.unary_eq_wrapped {op : UnaryOp} {operand : Expr}
    (h : s.Composes env path known (.unary i op operand ty) text) :
    text = (if carriesChecked path.head? (.unary i op operand ty) then checkedText env.indent else id)
      (unaryText env op operand.ty ty
        (groupedText operand (s.textAt (.unary i op operand ty :: path) operand))) := by
  obtain ⟨u, v, hpath, -, hrun⟩ := h.exists_run
  have hrun : (unary (s.recall (.unary i op operand ty :: path)) (.unary i op operand ty)).runOn env u =
    (.ok text, v) := hrun
  have hparent : u.parent? = path.head? := by rw [Session.parent?, hpath, List.tail_cons]
  have hgrouped : (if needsGrouping operand then
      withParens (s.operandAt (.unary i op operand ty :: path) operand)
      else s.operandAt (.unary i op operand ty :: path) operand) =
        groupedText operand (s.textAt (.unary i op operand ty :: path) operand) := by
    cases operand <;> rfl
  rw [unary, runOn_bind_ok runOn_operandText_recall] at hrun
  dsimp only at hrun
  rw [runOn_bind_ok runOn_read, runOn_wrapChecked_recall, hparent, hgrouped] at hrun
  cases hrun
  split <;> rfl

end ExprText
