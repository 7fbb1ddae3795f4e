import ExprText.Render.Arguments

/-! # Branches, loops and lambdas

The nodes with bodies, and the jumps out of loops. -/

namespace ExprText.Render

open RenderM

/-! ## Conditionals -/

def ifText (test : String) (body : Body) : String :=
  "if " ++ Text.withParens test ++ body.bracketed

/-- The two branches of a conditional, laid out in one of four ways. A conditional with a value whose
branches are single statements is an operator. Otherwise, where the first branch leaves with a value
the second follows it without an `else`, and a second branch that is a conditional continues the
`else`. -/
def branches (test : String) (ty : Ty) (ifTrue ifFalse : Expr) (first second : Body) : String :=
  if !ty.isVoid && first.isSingle && second.isSingle then
    test ++ " ? " ++ first.expression ++ " : " ++ second.expression
  else if !ifTrue.ty.isVoid then ifText test first ++ "\n\n" ++ second.statements
  else if ifFalse.isConditional then ifText test first ++ "\nelse " ++ second.expression
  else ifText test first ++ "\nelse" ++ second.bracketed

def conditional (visit : Visit) : Expr → RenderM String
  | .conditional _ test ifTrue ifFalse ty => do
    let test ← visit test
    let first ← body visit ifTrue
    if ifFalse.isEmpty && ty.isVoid then return ifText test first
    else
      let second ← body visit ifFalse
      return branches test ty ifTrue ifFalse first second
  | _ => refuse (.expected .conditional)

/-! ## Lambdas -/

/-- The parameters of a lambda; a single one stands without parentheses. -/
def parameterNames : List String → String
  | [name] => name
  | names => "(" ++ Text.join ", " names ++ ")"

def lambdaBody (visit : Visit) (e : Expr) : RenderM String := do
  if e.isEmpty then return " \x7b \x7d"
  else
    match e with
    | .block .. | .loop .. => return (← body visit e).bracketed
    | _ =>
      let text ← visit e
      if Text.isMultiLine text && e.ty.isVoid then return (← body visit e).bracketed
      else return " " ++ (← stripped e text)

def lambda (visit : Visit) : Expr → RenderM String
  | .lambda _ params body _ => do
    let names ← params.mapM nameOf
    return parameterNames names ++ " =>" ++ (← lambdaBody visit body)
  | _ => refuse (.expected .lambda)

/-! ## Loops and jumps -/

/-- Whether a node is a loop that the given one of its labels makes the target of a jump. -/
def ownsLabel (labelOf : Option Label → Option Label → Option Label) (target : Label) : Expr → Bool
  | .loop _ _ breakLabel continueLabel => (labelOf breakLabel continueLabel).any (·.id == target.id)
  | _ => false

/-- A jump to a loop around the node. -/
def jump (keyword : String) (labelOf : Option Label → Option Label → Option Label) (target : Label) :
    RenderM String := do
  if (← get).path.any (ownsLabel labelOf target) then return keyword
  else refuse (.jumpTarget keyword)

def loop (visit : Visit) : Expr → RenderM String
  | .loop _ none _ _ => return "while (true)\n\x7b\n\x7d"
  | .loop _ (some e) _ _ => return "while (true)" ++ (← body visit e).bracketed
  | .break _ target => jump "break" (fun breakLabel _ => breakLabel) target
  | .continue _ target => jump "continue" (fun _ continueLabel => continueLabel) target
  | .return _ _ none => return "return"
  | .return _ _ (some value) => return "return " ++ (← visit value)
  | _ => refuse (.expected .loop)

end ExprText.Render
