/-! # Operators

Binary, unary and assignment operators with the symbols they are written as, and the rule that says
when an operand of a binary operator needs parentheses. -/

namespace ExprText

inductive BinaryOp where
  | add | addChecked | subtract | subtractChecked | multiply | multiplyChecked | divide | modulo
  | power | and | or | exclusiveOr | andAlso | orElse | leftShift | rightShift | equal | notEqual
  | lessThan | lessThanOrEqual | greaterThan | greaterThanOrEqual | coalesce
deriving DecidableEq, Repr, Inhabited

inductive UnaryOp where
  | negate | negateChecked | unaryPlus | not | onesComplement | increment | decrement
  | preIncrementAssign | preDecrementAssign | postIncrementAssign | postDecrementAssign
  | convert | convertChecked | typeAs | arrayLength
deriving DecidableEq, Repr, Inhabited

inductive AssignOp where
  | assign | addAssign | addAssignChecked | subtractAssign | subtractAssignChecked
  | multiplyAssign | multiplyAssignChecked | divideAssign | moduloAssign | powerAssign
  | andAssign | orAssign | exclusiveOrAssign | leftShiftAssign | rightShiftAssign
deriving DecidableEq, Repr, Inhabited

namespace BinaryOp

def all : List BinaryOp :=
  [add, addChecked, subtract, subtractChecked, multiply, multiplyChecked, divide, modulo, power, and,
    or, exclusiveOr, andAlso, orElse, leftShift, rightShift, equal, notEqual, lessThan,
    lessThanOrEqual, greaterThan, greaterThanOrEqual, coalesce]

def name : BinaryOp → String
  | add => "Add"
  | addChecked => "AddChecked"
  | subtract => "Subtract"
  | subtractChecked => "SubtractChecked"
  | multiply => "Multiply"
  | multiplyChecked => "MultiplyChecked"
  | divide => "Divide"
  | modulo => "Modulo"
  | power => "Power"
  | and => "And"
  | or => "Or"
  | exclusiveOr => "ExclusiveOr"
  | andAlso => "AndAlso"
  | orElse => "OrElse"
  | leftShift => "LeftShift"
  | rightShift => "RightShift"
  | equal => "Equal"
  | notEqual => "NotEqual"
  | lessThan => "LessThan"
  | lessThanOrEqual => "LessThanOrEqual"
  | greaterThan => "GreaterThan"
  | greaterThanOrEqual => "GreaterThanOrEqual"
  | coalesce => "Coalesce"

def symbol : BinaryOp → String
  | add | addChecked => "+"
  | subtract | subtractChecked => "-"
  | multiply | multiplyChecked => "*"
  | divide => "/"
  | modulo => "%"
  | power => "**"
  | and => "&"
  | or => "|"
  | exclusiveOr => "^"
  | andAlso => "&&"
  | orElse => "||"
  | leftShift => "<<"
  | rightShift => ">>"
  | equal => "=="
  | notEqual => "!="
  | lessThan => "<"
  | lessThanOrEqual => "<="
  | greaterThan => ">"
  | greaterThanOrEqual => ">="
  | coalesce => "??"

def isChecked : BinaryOp → Bool
  | addChecked | subtractChecked | multiplyChecked => true
  | _ => false

def unchecked : BinaryOp → BinaryOp
  | addChecked => add
  | subtractChecked => subtract
  | multiplyChecked => multiply
  | op => op

def isArithmetic (op : BinaryOp) : Bool :=
  match op.unchecked with
  | add | subtract | multiply | divide | modulo | power => true
  | _ => false

/-- Whether the operator compares its operands or joins truth values. -/
def isBoolean : BinaryOp → Bool
  | equal | notEqual | lessThan | lessThanOrEqual | greaterThan | greaterThanOrEqual | andAlso
  | orElse => true
  | _ => false

/-- Addition, subtraction and multiplication, with or without an overflow check. -/
def isRing (op : BinaryOp) : Bool :=
  match op.unchecked with
  | add | subtract | multiply => true
  | _ => false

/-- How tightly the operator binds; a higher number binds tighter. -/
def precedence : BinaryOp → Nat
  | power => 14
  | multiply | multiplyChecked | divide | modulo => 13
  | add | addChecked | subtract | subtractChecked => 12
  | leftShift | rightShift => 11
  | lessThan | lessThanOrEqual | greaterThan | greaterThanOrEqual => 10
  | equal | notEqual => 9
  | and => 8
  | exclusiveOr => 7
  | or => 6
  | andAlso => 5
  | orElse => 4
  | coalesce => 3

def isRightAssociative : BinaryOp → Bool
  | power | coalesce => true
  | _ => false

/-- The two places of an operand. -/
inductive Side where
  | left | right
deriving DecidableEq, Repr

/-- The side on which operands of the same operator need no parentheses. -/
def openSide (op : BinaryOp) : Side :=
  if op.isRightAssociative then .right else .left

/-- Whether an operand whose operator is `child` keeps its parentheses at one side of `parent`: it
does when it binds less tightly, and when it binds as tightly unless it is the same operator on the
side to which that operator associates. -/
def operandNeedsParens (parent child : BinaryOp) (side : Side) : Bool :=
  if child.precedence = parent.precedence then
    !(parent.unchecked == child.unchecked && side == parent.openSide)
  else child.precedence < parent.precedence

end BinaryOp

namespace UnaryOp

def all : List UnaryOp :=
  [negate, negateChecked, unaryPlus, not, onesComplement, increment, decrement, preIncrementAssign,
    preDecrementAssign, postIncrementAssign, postDecrementAssign, convert, convertChecked, typeAs,
    arrayLength]

def name : UnaryOp → String
  | negate => "Negate"
  | negateChecked => "NegateChecked"
  | unaryPlus => "UnaryPlus"
  | not => "Not"
  | onesComplement => "OnesComplement"
  | increment => "Increment"
  | decrement => "Decrement"
  | preIncrementAssign => "PreIncrementAssign"
  | preDecrementAssign => "PreDecrementAssign"
  | postIncrementAssign => "PostIncrementAssign"
  | postDecrementAssign => "PostDecrementAssign"
  | convert => "Convert"
  | convertChecked => "ConvertChecked"
  | typeAs => "TypeAs"
  | arrayLength => "ArrayLength"

def isChecked : UnaryOp → Bool
  | negateChecked | convertChecked => true
  | _ => false

def isConvert : UnaryOp → Bool
  | convert | convertChecked => true
  | _ => false

def isNegate : UnaryOp → Bool
  | negate | negateChecked => true
  | _ => false

/-- Whether the operator is written after its operand, or in parentheses of its own. -/
def isPostfix : UnaryOp → Bool
  | arrayLength | typeAs | postIncrementAssign | postDecrementAssign => true
  | _ => false

end UnaryOp

namespace AssignOp

def all : List AssignOp :=
  [assign, addAssign, addAssignChecked, subtractAssign, subtractAssignChecked, multiplyAssign,
    multiplyAssignChecked, divideAssign, moduloAssign, powerAssign, andAssign, orAssign,
    exclusiveOrAssign, leftShiftAssign, rightShiftAssign]

def name : AssignOp → String
  | assign => "Assign"
  | addAssign => "AddAssign"
  | addAssignChecked => "AddAssignChecked"
  | subtractAssign => "SubtractAssign"
  | subtractAssignChecked => "SubtractAssignChecked"
  | multiplyAssign => "MultiplyAssign"
  | multiplyAssignChecked => "MultiplyAssignChecked"
  | divideAssign => "DivideAssign"
  | moduloAssign => "ModuloAssign"
  | powerAssign => "PowerAssign"
  | andAssign => "AndAssign"
  | orAssign => "OrAssign"
  | exclusiveOrAssign => "ExclusiveOrAssign"
  | leftShiftAssign => "LeftShiftAssign"
  | rightShiftAssign => "RightShiftAssign"

def symbol : AssignOp → String
  | assign => "="
  | addAssign | addAssignChecked => "+="
  | subtractAssign | subtractAssignChecked => "-="
  | multiplyAssign | multiplyAssignChecked => "*="
  | divideAssign => "/="
  | moduloAssign => "%="
  | powerAssign => "**="
  | andAssign => "&="
  | orAssign => "|="
  | exclusiveOrAssign => "^="
  | leftShiftAssign => "<<="
  | rightShiftAssign => ">>="

end AssignOp

end ExprText
