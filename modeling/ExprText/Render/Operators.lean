import ExprText.Render.Arguments

/-! # Operators

Binary and unary operators, assignments, and the `checked` wrapper that stands around the topmost node
of an arithmetic chain with an overflow check in it. -/

namespace ExprText.Render

open RenderM

/-- Whether a node shares the overflow check of the arithmetic around it. -/
def isChainLink : Expr → Bool
  | .binary _ op _ _ _ => op.isArithmetic
  | .unary _ op _ _ => op.isConvert || op.isNegate
  | _ => false

/-- Whether the chain below a node holds an operator with an overflow check. -/
def chainHasChecked : Expr → Bool
  | .binary _ op left right _ =>
    op.isChecked || (isChainLink left && chainHasChecked left) ||
      (isChainLink right && chainHasChecked right)
  | .unary _ op operand _ => op.isChecked || (isChainLink operand && chainHasChecked operand)
  | _ => false

/-- Whether a node under `parent` is the one that carries the wrapper of its chain. -/
def carriesChecked (parent : Option Expr) (e : Expr) : Bool :=
  e.kind.takesChecked && !parent.any isChainLink && chainHasChecked e

def checkedText (indent text : String) : String :=
  let inner := Text.withoutParens text
  if Text.isMultiLine inner then "checked\n" ++ Body.braces (Text.indented indent inner)
  else "checked(" ++ inner ++ ")"

/-- Wraps the text of a node that carries the wrapper of its chain. -/
def wrapChecked (e : Expr) (text : String) : RenderM String := do
  if carriesChecked (← get).parent? e then return checkedText (← indent) text else return text

/-- An operand of a binary operator, without the parentheses that the reader does not need. -/
def binaryOperand (visit : Visit) (parent : BinaryOp) (side : BinaryOp.Side) (operand : Expr) :
    RenderM String := do
  let text ← operandText visit operand
  match operand with
  | .binary _ op _ _ _ =>
    return if parent.operandNeedsParens op side then text else Text.withoutParens text
  | _ => return text

def binary (visit : Visit) : Expr → RenderM String
  | e@(.binary _ op left right _) => do
    let left ← binaryOperand visit op .left left
    let right ← binaryOperand visit op .right right
    wrapChecked e ("(" ++ left ++ " " ++ op.symbol ++ " " ++ right ++ ")")
  | _ => refuse (.expected .binary)

/-- The text of a value that is assigned; assignments and blocks stand in parentheses. -/
def assignedText (visit : Visit) (value : Expr) : RenderM String := do
  let text ← visit value
  match value with
  | .assign .. | .block .. => return Text.withParens (Text.unterminated text)
  | _ => stripped value text

def assign (visit : Visit) : Expr → RenderM String
  | .assign _ op target value => do
    let target ← visit target
    let value ← assignedText visit value
    return target ++ " " ++ op.symbol ++ " " ++ value
  | _ => refuse (.expected .assign)

/-- A unary operator with the text of its operand; `ty` is the type that a conversion leads to. -/
def unaryText (env : Env) (op : UnaryOp) (operandTy ty : Ty) (value : String) : String :=
  match op with
  | .negate | .negateChecked => "-" ++ value
  | .unaryPlus => "+" ++ value
  | .not => (if operandTy.isIntegral then "~" else "!") ++ value
  | .onesComplement => "~" ++ value
  | .increment | .preIncrementAssign => "++" ++ value
  | .decrement | .preDecrementAssign => "--" ++ value
  | .postIncrementAssign => value ++ "++"
  | .postDecrementAssign => value ++ "--"
  | .convert | .convertChecked => "(" ++ env.typeName ty ++ ")" ++ value
  | .typeAs => "(" ++ value ++ " as " ++ env.typeName ty ++ ")"
  | .arrayLength => value ++ ".Length"

def unary (visit : Visit) : Expr → RenderM String
  | e@(.unary _ op operand ty) => do
    let text ← operandText visit operand
    let value := if needsGrouping operand then Text.withParens text else text
    wrapChecked e (unaryText (← read) op operand.ty ty value)
  | _ => refuse (.expected .unary)

end ExprText.Render
