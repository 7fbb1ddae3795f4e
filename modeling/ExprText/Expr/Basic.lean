import ExprText.Expr.Kind
import ExprText.Member

/-! # Expression trees

A node is its identity together with what it holds. A tree may hold one node several times; two nodes
with the same identity are the same node. Variables, labels and captured objects have identities of
their own, so two variables of one name are still two variables. -/

namespace ExprText

/-- A parameter of a lambda or a local of a block; some have no name. -/
structure Variable where
  id : Nat
  name : Option String
  ty : Ty
deriving DecidableEq, Repr, Inhabited

/-- A target of jumps. -/
structure Label where
  id : Nat
  name : Option String
  ty : Ty
deriving DecidableEq, Repr, Inhabited

/-- An object that a closure captured. -/
structure Captured where
  id : Nat
  ty : Ty
deriving DecidableEq, Repr, Inhabited

inductive Constant where
  | null
  | bool (value : Bool)
  | int (value : Int32)
  | long (value : Int64)
  /-- A binary32 number by its bits. -/
  | float (bits : UInt32)
  /-- A binary64 number by its bits. -/
  | double (bits : UInt64)
  /-- A decimal literal by its digits. -/
  | decimal (digits : String)
  | char (value : Char)
  | string (value : String)
  | type (ty : Ty)
  | enum (ty : Ty) (member : String)
  | captured (object : Captured)
deriving DecidableEq, Inhabited

/-- The type a constant has by itself. -/
def Constant.ty : Constant → Ty
  | .null => .object
  | .bool _ => .bool
  | .int _ => .int
  | .long _ => .long
  | .float _ => .float
  | .double _ => .double
  | .decimal _ => .decimal
  | .char _ => .char
  | .string _ => .string
  | .type _ => .system "Type"
  | .enum ty _ => ty
  | .captured object => object.ty

/-- What an extension node shows. -/
inductive ExtensionForm where
  | comment (text : String)
  /-- The word `await` and the node's children after it. -/
  | await
  | verbatim (text : String)
  /-- Nothing: the node is refused with a reason. -/
  | reject (reason : String)
  | parent
  /-- The kind of the node above, found from the node itself. -/
  | selfParent
  /-- The kind of the node above the one above. -/
  | grandparent
  /-- The kind of the node above the first child, where that child is on the path. -/
  | parentOfFirst
  /-- The kinds of the node and of all above it. -/
  | ancestors
  /-- The children as the arguments of a call. -/
  | arguments (params : Option (List Parameter))
  /-- The children as braced bodies. -/
  | bodies
  /-- A form that has no rendering. -/
  | unknown (name : String)
deriving DecidableEq, Repr, Inhabited

inductive Expr where
  | constant (id : Nat) (value : Constant) (ty : Ty)
  | variable (id : Nat) (target : Variable)
  | binary (id : Nat) (op : BinaryOp) (left right : Expr) (ty : Ty)
  | unary (id : Nat) (op : UnaryOp) (operand : Expr) (ty : Ty)
  | assign (id : Nat) (op : AssignOp) (target value : Expr)
  | conditional (id : Nat) (test ifTrue ifFalse : Expr) (ty : Ty)
  /-- A method call; static and extension calls have no subject. -/
  | call (id : Nat) (subject : Option Expr) (method : Method) (args : List Expr)
  | invoke (id : Nat) (target : Expr) (args : List Expr) (ty : Ty)
  | new (id : Nat) (ty : Ty) (constructor : Option Method) (args : List Expr)
  | newArray (id : Nat) (element : Ty) (items : List Expr)
  | member (id : Nat) (subject : Option Expr) (target : Member)
  | index (id : Nat) (subject : Expr) (indices : List Expr) (ty : Ty)
  | lambda (id : Nat) (params : List Variable) (body : Expr) (ty : Ty)
  | block (id : Nat) (locals : List Variable) (statements : List Expr) (ty : Ty)
  | loop (id : Nat) (body : Option Expr) (breakLabel continueLabel : Option Label)
  | break (id : Nat) (target : Label)
  | continue (id : Nat) (target : Label)
  | return (id : Nat) (target : Option Label) (value : Option Expr)
  /-- The default value of a type; that of `void` is the empty expression. -/
  | default (id : Nat) (ty : Ty)
  /-- A node whose rendering its maker chose; nothing but that rendering looks at its children. -/
  | extension (id : Nat) (form : ExtensionForm) (ty : Ty) (nodes : List Expr)
deriving Inhabited

namespace Expr

def id : Expr → Nat
  | .constant id .. | .variable id .. | .binary id .. | .unary id .. | .assign id ..
  | .conditional id .. | .call id .. | .invoke id .. | .new id .. | .newArray id .. | .member id ..
  | .index id .. | .lambda id .. | .block id .. | .loop id .. | .break id .. | .continue id ..
  | .return id .. | .default id .. | .extension id .. => id

/-- Whether two expressions are the same node. -/
def same (e f : Expr) : Bool :=
  e.id == f.id

def kind : Expr → Kind
  | .constant .. => .constant
  | .variable .. => .variable
  | .binary _ op .. => .binary op
  | .unary _ op .. => .unary op
  | .assign _ op .. => .assign op
  | .conditional .. => .conditional
  | .call .. => .call
  | .invoke .. => .invoke
  | .new .. => .new
  | .newArray .. => .newArray
  | .member .. => .member
  | .index .. => .index
  | .lambda .. => .lambda
  | .block .. => .block
  | .loop .. => .loop
  | .break .. => .break
  | .continue .. => .continue
  | .return .. => .return
  | .default .. => .default
  | .extension .. => .extension

/-- The static result type of a node. -/
def ty : Expr → Ty
  | .constant _ _ ty => ty
  | .variable _ target => target.ty
  | .binary _ _ _ _ ty => ty
  | .unary _ _ _ ty => ty
  | .assign _ _ target _ => target.ty
  | .conditional _ _ _ _ ty => ty
  | .call _ _ method _ => method.returnType
  | .invoke _ _ _ ty => ty
  | .new _ ty _ _ => ty
  | .newArray _ element _ => .array element 1
  | .member _ _ target => target.ty
  | .index _ _ _ ty => ty
  | .lambda _ _ _ ty => ty
  | .block _ _ _ ty => ty
  | .loop _ _ breakLabel _ => (breakLabel.map Label.ty).getD .void
  | .break .. | .continue .. | .return .. => .void
  | .default _ ty => ty
  | .extension _ _ ty _ => ty

/-- Whether this is the empty expression. -/
def isEmpty : Expr → Bool
  | .default _ ty => ty.isVoid
  | _ => false

def captured? : Expr → Option Captured
  | .constant _ (.captured object) _ => some object
  | _ => none

def isCaptured (e : Expr) : Bool :=
  e.captured?.isSome

def isCall : Expr → Bool
  | .call .. => true
  | _ => false

def isBlock : Expr → Bool
  | .block .. => true
  | _ => false

def isConditional : Expr → Bool
  | .conditional .. => true
  | _ => false

def isLambda : Expr → Bool
  | .lambda .. => true
  | _ => false

/-- The receiver that a call is written after: its subject, or the first argument of an extension
method. -/
def receiver? : Expr → Option Expr
  | .call _ subject method args => if method.kind = .extension then args.head? else subject
  | _ => none

/-- How many calls are written one after another up to this node. -/
def callCount : Expr → Nat
  | .call _ subject method args =>
    if method.kind = .extension then
      match args with
      | [] => 1
      | a :: _ => a.callCount + 1
    else
      match subject with
      | none => 1
      | some s => s.callCount + 1
  | _ => 0

/-- The direct children of a node, in the order of the text. The children of an extension node are
its own affair. -/
def children : Expr → List Expr
  | .constant .. | .variable .. | .break .. | .continue .. | .default .. | .extension .. => []
  | .binary _ _ left right _ => [left, right]
  | .unary _ _ operand _ => [operand]
  | .assign _ _ target value => [target, value]
  | .conditional _ test ifTrue ifFalse _ => [test, ifTrue, ifFalse]
  | .call _ subject _ args => subject.toList ++ args
  | .invoke _ target args _ => target :: args
  | .new _ _ _ args => args
  | .newArray _ _ items => items
  | .member _ subject _ => subject.toList
  | .index _ subject indices _ => subject :: indices
  | .lambda _ _ body _ => [body]
  | .block _ _ statements _ => statements
  | .loop _ body _ _ => body.toList
  | .return _ _ value => value.toList

/-! ## Height -/

mutual

/-- The number of nodes on the longest way down from a node, the children of extensions included. -/
def height : Expr → Nat
  | .constant .. | .variable .. | .break .. | .continue .. | .default .. => 1
  | .binary _ _ left right _ => max left.height right.height + 1
  | .unary _ _ operand _ => operand.height + 1
  | .assign _ _ target value => max target.height value.height + 1
  | .conditional _ test ifTrue ifFalse _ => max test.height (max ifTrue.height ifFalse.height) + 1
  | .call _ subject _ args => max (heightOf subject) (heightOfAll args) + 1
  | .invoke _ target args _ => max target.height (heightOfAll args) + 1
  | .new _ _ _ args => heightOfAll args + 1
  | .newArray _ _ items => heightOfAll items + 1
  | .member _ subject _ => heightOf subject + 1
  | .index _ subject indices _ => max subject.height (heightOfAll indices) + 1
  | .lambda _ _ body _ => body.height + 1
  | .block _ _ statements _ => heightOfAll statements + 1
  | .loop _ body _ _ => heightOf body + 1
  | .return _ _ value => heightOf value + 1
  | .extension _ _ _ nodes => heightOfAll nodes + 1

def heightOf : Option Expr → Nat
  | none => 0
  | some e => e.height

def heightOfAll : List Expr → Nat
  | [] => 0
  | e :: es => max e.height (heightOfAll es)

end

/-! ## Nodes below a node -/

mutual

/-- The node and all nodes below it, the children of extensions apart. -/
def nodes : Expr → List Expr
  | e@(.constant ..) => [e]
  | e@(.variable ..) => [e]
  | e@(.binary _ _ left right _) => e :: (left.nodes ++ right.nodes)
  | e@(.unary _ _ operand _) => e :: operand.nodes
  | e@(.assign _ _ target value) => e :: (target.nodes ++ value.nodes)
  | e@(.conditional _ test ifTrue ifFalse _) => e :: (test.nodes ++ ifTrue.nodes ++ ifFalse.nodes)
  | e@(.call _ subject _ args) => e :: (nodesOf subject ++ nodesOfAll args)
  | e@(.invoke _ target args _) => e :: (target.nodes ++ nodesOfAll args)
  | e@(.new _ _ _ args) => e :: nodesOfAll args
  | e@(.newArray _ _ items) => e :: nodesOfAll items
  | e@(.member _ subject _) => e :: nodesOf subject
  | e@(.index _ subject indices _) => e :: (subject.nodes ++ nodesOfAll indices)
  | e@(.lambda _ _ body _) => e :: body.nodes
  | e@(.block _ _ statements _) => e :: nodesOfAll statements
  | e@(.loop _ body _ _) => e :: nodesOf body
  | e@(.break ..) => [e]
  | e@(.continue ..) => [e]
  | e@(.return _ _ value) => e :: nodesOf value
  | e@(.default ..) => [e]
  | e@(.extension ..) => [e]

def nodesOf : Option Expr → List Expr
  | none => []
  | some e => e.nodes

def nodesOfAll : List Expr → List Expr
  | [] => []
  | e :: es => e.nodes ++ nodesOfAll es

end

end Expr

end ExprText
