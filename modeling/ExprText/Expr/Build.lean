import ExprText.Expr.Basic

/-! # Nodes with derived types

Constructors that take the result type of a node from its parts, for the nodes whose parts determine
it. The first argument is the identity of the new node. -/

namespace ExprText.Expr

def ofConstant (id : Nat) (value : Constant) : Expr :=
  .constant id value value.ty

/-- A truth value for comparisons and connectives, the right operand's type for `??`, and the left
operand's type for all other operators. -/
def ofBinary (id : Nat) (op : BinaryOp) (left right : Expr) : Expr :=
  .binary id op left right
    (if op.isBoolean then .bool else if op = .coalesce then right.ty else left.ty)

/-- The type of the operand, or `int` for the length of an array. -/
def ofUnary (id : Nat) (op : UnaryOp) (operand : Expr) : Expr :=
  .unary id op operand (if op = .arrayLength then .int else operand.ty)

def ofConditional (id : Nat) (test ifTrue ifFalse : Expr) : Expr :=
  .conditional id test ifTrue ifFalse ifTrue.ty

/-- A conditional statement without a second branch; `emptyId` is the identity of the empty
expression in its place. -/
def ifThen (id emptyId : Nat) (test ifTrue : Expr) : Expr :=
  .conditional id test ifTrue (.default emptyId .void) .void

/-- The result of the target's delegate type, or `object` where it is no delegate. -/
def ofInvoke (id : Nat) (target : Expr) (args : List Expr) : Expr :=
  .invoke id target args (target.ty.delegateResult.getD .object)

/-- An item of an array, of the array's element type. -/
def arrayIndex (id : Nat) (subject position : Expr) : Expr :=
  .index id subject [position]
    (match subject.ty with
    | .array element _ => element
    | _ => .object)

/-- A lambda of the delegate type from its parameters to its body. -/
def ofLambda (id : Nat) (params : List Variable) (body : Expr) : Expr :=
  .lambda id params body (.delegate (params.map Variable.ty) body.ty)

def ofBlock (id : Nat) (locals : List Variable) (statements : List Expr) : Expr :=
  .block id locals statements ((statements.getLast?.map Expr.ty).getD .void)

def comment (id : Nat) (text : String) : Expr :=
  .extension id (.comment text) .void []

def commentText? : Expr → Option String
  | .extension _ (.comment text) _ _ => some text
  | _ => none

end ExprText.Expr
