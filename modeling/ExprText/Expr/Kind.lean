import ExprText.Operator

/-! # Kinds of nodes

The kind of a node chooses its renderer. Operators are kinds of their own. -/

namespace ExprText

inductive Kind where
  | constant | variable
  | binary (op : BinaryOp)
  | unary (op : UnaryOp)
  | assign (op : AssignOp)
  | conditional | call | invoke | new | newArray | member | index | lambda | block | loop
  | break | continue | return | default | extension
deriving DecidableEq, Repr, Inhabited

namespace Kind

/-- Every kind, with one entry for each operator. -/
def all : List Kind :=
  [.constant, .variable, .conditional, .call, .invoke, .new, .newArray, .member, .index, .lambda,
    .block, .loop, .break, .continue, .return, .default, .extension] ++
    BinaryOp.all.map .binary ++ UnaryOp.all.map .unary ++ AssignOp.all.map .assign

/-- The name of the family a kind belongs to. -/
def family : Kind → String
  | .constant => "Constant"
  | .variable => "Variable"
  | .binary _ => "Binary"
  | .unary _ => "Unary"
  | .assign _ => "Assign"
  | .conditional => "Conditional"
  | .call => "Call"
  | .invoke => "Invoke"
  | .new => "New"
  | .newArray => "NewArray"
  | .member => "Member"
  | .index => "Index"
  | .lambda => "Lambda"
  | .block => "Block"
  | .loop => "Loop"
  | .break => "Break"
  | .continue => "Continue"
  | .return => "Return"
  | .default => "Default"
  | .extension => "Extension"

/-- The name of the operator, for the kinds that have one. -/
def operator? : Kind → Option String
  | .binary op => some op.name
  | .unary op => some op.name
  | .assign op => some op.name
  | _ => none

/-- Whether a node of the kind can be the top of checked arithmetic: additions, subtractions,
multiplications and conversions can. -/
def takesChecked : Kind → Bool
  | .binary op => op.isRing
  | .unary op => op.isConvert
  | _ => false

/-- A kind as messages name it: `Block`, `Binary(Add)`. -/
def text (k : Kind) : String :=
  match k.operator? with
  | some op => k.family ++ "(" ++ op ++ ")"
  | none => k.family

end Kind

end ExprText
