import ExprText.Expr.Kind

/-! # Faults

Why a tree cannot be rendered: a kind has no renderer, or a node has not the shape that its renderer
needs. -/

namespace ExprText

/-- What a renderer takes. -/
inductive Expected where
  | constant | variable | default | extension | binary | assign | unary | conditional | loop | block
  | lambda | call | member | index | new
deriving DecidableEq, Repr

def Expected.text : Expected → String
  | .constant => "a constant"
  | .variable => "a variable"
  | .default => "a default value"
  | .extension => "an extension node"
  | .binary => "a binary operator"
  | .assign => "an assignment"
  | .unary => "a unary operator"
  | .conditional => "a conditional"
  | .loop => "a loop or jump"
  | .block => "a block"
  | .lambda => "a lambda"
  | .call => "a method call"
  | .member => "a member access"
  | .index => "an index access"
  | .new => "an object or array creation"

/-- What is wrong with the shape of a node. -/
inductive Cause where
  /-- The renderer takes nodes of another shape. -/
  | expected (what : Expected)
  | argumentCount (supplied declared : Nat)
  | typeArgumentCount (supplied declared : Nat)
  /-- The label of a jump belongs to no loop around it. -/
  | jumpTarget (keyword : String)
  | noIndices
  | noIndexerSubject
  | noIndexerValue
  | noIndexerArguments
  | noReceiverArgument
  | noSubject
  /-- An extension node refused itself. -/
  | refused (reason : String)
  | unknownExtension (name : String)
  /-- The tree is higher than the rendering was told. -/
  | tooDeep
deriving DecidableEq, Repr

def Cause.text : Cause → String
  | .expected what => "expected " ++ what.text
  | .argumentCount supplied declared =>
    toString supplied ++ " arguments supplied for " ++ toString declared ++ " parameters"
  | .typeArgumentCount supplied declared =>
    toString supplied ++ " type arguments supplied for " ++ toString declared ++ " generic parameters"
  | .jumpTarget keyword => keyword ++ " target is not an enclosing loop"
  | .noIndices => "index access has no indices"
  | .noIndexerSubject => "indexer accessor has no subject"
  | .noIndexerValue => "indexer setter has no value argument"
  | .noIndexerArguments => "indexer accessor has no index arguments"
  | .noReceiverArgument => "extension call has no receiver argument"
  | .noSubject => "instance call has no subject"
  | .refused reason => reason
  | .unknownExtension name => "unknown extension " ++ name
  | .tooDeep => "nested too deeply"

inductive Fault where
  /-- No renderer is registered for the kind. -/
  | unsupported (kind : Kind)
  /-- A node has not the shape that its renderer needs. -/
  | malformed (kind : Kind) (cause : Cause)
deriving DecidableEq, Repr

def Fault.message : Fault → String
  | .unsupported kind => "no translator registered for " ++ kind.text ++ " nodes"
  | .malformed kind cause => "invalid " ++ kind.text ++ " node: " ++ cause.text

end ExprText
