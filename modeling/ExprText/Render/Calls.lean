import ExprText.Render.Arguments

/-! # Calls

Calls of methods and delegates. Concatenations of strings are shown as sums, and the accessors of
indexed properties as indices. -/

namespace ExprText.Render

open RenderM

/-! ## Delegates -/

def invoke (visit : Visit) (target : Expr) (args : List Expr) : RenderM String := do
  let target ←
    if target.isLambda then Text.withParens <$> visit target else receiverText visit target
  return target ++ ".Invoke" ++ (← parameters visit args none)

/-! ## Concatenations -/

/-- Whether a call concatenates strings. -/
def isConcatenation (subject : Option Expr) (method : Method) : Bool :=
  subject.isNone && method.name == "Concat" && method.declaringType.isString

/-- What is concatenated: the arguments, or the items of an array that is the only argument. -/
def concatenated : List Expr → List Expr
  | [.newArray _ _ items] => items
  | args => args

/-- What is shown in a concatenation: the subject of a `ToString()` without arguments, or the operand
itself. -/
def concatenand : Expr → Expr
  | e@(.call _ (some subject) method args) =>
    if method.name == "ToString" && args.isEmpty then subject else e
  | e => e

def concatenation (visit : Visit) (args : List Expr) : RenderM String := do
  let texts ← (concatenated args).mapM fun e => operandText visit (concatenand e)
  return "(" ++ Text.join " + " texts ++ ")"

/-! ## Indexed properties -/

/-- Whether a method reads or writes an indexed property. -/
def isIndexer (method : Method) : Bool :=
  method.accessor.any (0 < ·.indexParams)

/-- The indices of an indexer call and, for a setter, the value after them. -/
def indexerParts (method : Method) (args : List Expr) : Except Cause (List Expr × Option Expr) :=
  if method.accessor.any (·.isSetter) then
    match args.getLast? with
    | some value => .ok (args.dropLast, some value)
    | none => .error .noIndexerValue
  else .ok (args, none)

def indexer (visit : Visit) (subject : Option Expr) (method : Method) (args : List Expr) :
    RenderM String :=
  match subject with
  | none => refuse .noIndexerSubject
  | some subject =>
    match indexerParts method args with
    | .error cause => refuse cause
    | .ok ([], _) => refuse .noIndexerArguments
    | .ok (indices, value) => do
      let receiver ← receiverText visit subject
      let texts ← arguments visit indices none
      let item := receiver ++ (← argumentList "[" "]" texts)
      match value with
      | none => return item
      | some value => return item ++ " = " ++ (← strippedText visit value)

/-! ## Methods -/

/-- Whether the arguments of a call tell all type arguments: every generic parameter occurs in the
type of a parameter. -/
def infersGenerics (method : Method) : Bool :=
  method.genericParams.all fun name => method.params.any (·.ty.params.contains name)

/-- The type arguments of a call in angle brackets, where they are shown. -/
def genericArguments (method : Method) : RenderM String := do
  if !method.isGeneric then return ""
  else if method.genericArgs.length ≠ method.genericParams.length then
    refuse (.typeArgumentCount method.genericArgs.length method.genericParams.length)
  else
    let env ← read
    if !env.settings.explicitGenerics && infersGenerics method then return ""
    else return "<" ++ Text.join ", " (method.genericArgs.map env.typeName) ++ ">"

/-- The receiver of a call, which the calls on a captured object do not have, and the arguments and
parameters after it. -/
def callParts (visit : Visit) (subject : Option Expr) (method : Method) (args : List Expr) :
    RenderM (Option String × List Expr × List Parameter) :=
  match method.kind with
  | .extension =>
    match args with
    | [] => refuse .noReceiverArgument
    | first :: rest => return (some (← receiverText visit first), rest, method.params.tail)
  | .static => return (some (← typeName method.declaringType), args, method.params)
  | .onInstance =>
    match subject with
    | none => refuse .noSubject
    | some subject =>
      if subject.isCaptured then return (none, args, method.params)
      else return (some (← receiverText visit subject), args, method.params)

/-- A method call; in a chain of calls each call stands on a line of its own. -/
def methodCall (visit : Visit) (e : Expr) (subject : Option Expr) (method : Method)
    (args : List Expr) : RenderM String := do
  let (receiver, args, params) ← callParts visit subject method args
  let generics ← genericArguments method
  let args ← parameters visit args (some params)
  let call := method.name ++ generics ++ args
  match receiver with
  | none => return call
  | some receiver =>
    if (← get).inCallChain e then return receiver ++ "\n" ++ (← indent) ++ "." ++ call
    else return receiver ++ "." ++ call

def call (visit : Visit) : Expr → RenderM String
  | .invoke _ target args _ => invoke visit target args
  | e@(.call _ subject method args) =>
    if isConcatenation subject method then concatenation visit args
    else if isIndexer method then indexer visit subject method args
    else methodCall visit e subject method args
  | _ => refuse (.expected .call)

end ExprText.Render
