import ExprText.Render.Arguments

/-! # Blocks

Sequences of statements. A local is declared where a plain assignment among the statements first gives
it a value, and before all statements if there is none. A block that has a value ends in a `return`. -/

namespace ExprText.Render

open RenderM

/-- Where a block stands. -/
inductive Position where
  /-- At the root, or as the body of a block, a loop or a branch. -/
  | statement
  /-- As the body of a lambda that returns a value. -/
  | lambdaBody
  /-- As an operand, an argument or an assigned value. -/
  | value
deriving DecidableEq, Repr

/-- The position of a block under the node above it. -/
def Position.under (e : Expr) : Option Expr → Position
  | none | some (.block ..) | some (.loop ..) => .statement
  | some (.lambda _ _ _ ty) => if ty.delegateResult.any (!·.isVoid) then .lambdaBody else .statement
  | some (.conditional _ test _ _ _) => if test.same e then .value else .statement
  | some _ => .value

/-- Lines of a block, with an empty line before and after statements that stand apart. -/
structure Lines where
  text : String := ""
  /-- Whether the last statement stands apart from the next one. -/
  apart : Bool := false
deriving DecidableEq, Repr

namespace Lines

/-- Adds a statement; one of several lines stands apart. -/
def push (l : Lines) (statement : String) (apart : Bool) : Lines :=
  let apart := apart || Text.isMultiLine statement
  let gap := if l.text.isEmpty then "" else if apart || l.apart then "\n\n" else "\n"
  ⟨l.text ++ gap ++ statement, apart⟩

/-- Adds the `return` at the end of a block, which always stands apart. -/
def pushReturn (l : Lines) (value : String) : Lines :=
  let gap := if l.text.isEmpty then "" else "\n\n"
  ⟨l.text ++ gap ++ "return " ++ value ++ ";", true⟩

end Lines

/-- The local that a statement can declare: the target of a plain assignment. -/
def declaredBy (locals : List Variable) : Expr → Option Variable
  | .assign _ .assign (.variable _ v) _ => if locals.any (·.id == v.id) then some v else none
  | _ => none

/-- Whether some statement declares a local. -/
def isAssigned (locals : List Variable) (statements : List Expr) (v : Variable) : Bool :=
  statements.any fun s => (declaredBy locals s).any (·.id == v.id)

/-- Declares the locals that no statement declares, and shows their declarations. -/
def declarations (locals : List Variable) (statements : List Expr) :
    List Variable → RenderM (List String)
  | [] => return []
  | v :: rest => do
    if isAssigned locals statements v || (← get).isDeclared v then declarations locals statements rest
    else
      let _ ← modifyGet (Session.declare v)
      let name ← nameOf v
      let line := (← typeName v.ty) ++ " " ++ name ++ ";"
      return line :: (← declarations locals statements rest)

/-- A statement in its block: a local that it declares for the first time is marked by `var`. -/
def statementText (locals : List Variable) (statement : Expr) (text : String) : RenderM String := do
  let text ← stripped statement text
  match declaredBy locals statement with
  | some v => if ← modifyGet (Session.declare v) then return "var " ++ text else return text
  | none => return text

/-- Adds the statements of a block to its lines. With `returnsLast` the last statement is returned. -/
def statements (visit : Visit) (position : Position) (returnsLast : Bool) (locals : List Variable) :
    List Expr → Lines → RenderM Lines
  | [], lines => return lines
  | s :: rest, lines => do
    let text ← visit s
    if text.isEmpty then statements visit position returnsLast locals rest lines
    else if rest.isEmpty && returnsLast then
      let value ← if position = .value then pure text else stripped s text
      return lines.pushReturn value
    else
      let text ← statementText locals s text
      statements visit position returnsLast locals rest (lines.push (Text.terminated text) false)

/-- Whether a block at a position returns its last statement. -/
def returnsLast (position : Position) (ty : Ty) (statements : List Expr) : Bool :=
  let lastHasValue := statements.getLast?.any (!·.ty.isVoid)
  match position with
  | .statement => false
  | .lambdaBody => lastHasValue
  | .value => !ty.isVoid && lastHasValue

def blockBody (visit : Visit) (e : Expr) (locals : List Variable) (all : List Expr) (ty : Ty) :
    RenderM String := do
  let position := Position.under e (← get).parent?
  let shown := all.filter (!·.isEmpty)
  let declared ← declarations locals shown locals
  let lines : Lines := if declared.isEmpty then {} else ({} : Lines).push (Text.join "\n" declared) true
  let lines ← statements visit position (returnsLast position ty shown) locals shown lines
  match position with
  | .value =>
    if lines.text.isEmpty then return "\x7b\n\x7d"
    else return Body.braces (Text.indented (← indent) lines.text)
  | _ => return lines.text

/-- A block, which opens a scope of its own. -/
def block (visit : Visit) : Expr → RenderM String
  | e@(.block _ locals all ty) => inScope (blockBody visit e locals all ty)
  | _ => refuse (.expected .block)

end ExprText.Render
