import ExprText.Render.Body
import ExprText.Render.Session

/-! # Children

How the texts of children enter the text of their parent: as bodies, as operands, as receivers and as
arguments. -/

namespace ExprText

/-- Texts in brackets: on one line if they are narrow enough and at most one of them has several
lines, and otherwise one text a line. -/
def Settings.argumentList (s : Settings) (opening closing : String) (texts : List String) : String :=
  let oneLine := Text.join ", " texts
  if Text.width oneLine ≤ s.lineWidth && (texts.filter Text.isMultiLine).length ≤ 1 then
    opening ++ oneLine ++ closing
  else opening ++ "\n" ++ Text.join ",\n" (texts.map (Text.indented s.indent)) ++ closing

namespace RenderM

def argumentList (opening closing : String) (texts : List String) : RenderM String := do
  return (← read).settings.argumentList opening closing texts

/-- The text of a child, stripped of its parentheses where it does not keep them. -/
def strippedText (visit : Visit) (child : Expr) : RenderM String := do
  stripped child (← visit child)

/-- The body that a node makes. A block is a single statement if it has at most one statement and
declares nothing; any other node is. -/
def body (visit : Visit) (e : Expr) : RenderM Body := do
  let text ← visit e
  match e with
  | .block _ locals statements _ =>
    let count := (statements.filter (!·.isEmpty)).length
    return ⟨text, count ≤ 1 && locals.isEmpty, ← indent⟩
  | _ => return ⟨← stripped e text, true, ← indent⟩

/-- The text of an operand inside a larger expression. -/
def operandText (visit : Visit) (operand : Expr) : RenderM String := do
  let text ← visit operand
  match operand with
  | .conditional .. | .assign .. | .lambda .. => return Text.withParens text
  | _ => return text

/-- Whether a node stands in parentheses behind an operator or before a dot. -/
def needsGrouping : Expr → Bool
  | .conditional .. | .assign .. | .lambda .. => true
  | .unary _ op _ _ => !op.isPostfix
  | _ => false

/-- The text of what a member is read from. -/
def receiverText (visit : Visit) (receiver : Expr) : RenderM String := do
  let text ← visit receiver
  return if needsGrouping receiver then Text.withParens text else text

/-- The texts of one argument: the items of a trailing array are arguments of their own. -/
def argumentTexts (visit : Visit) (modifier : Modifier) (arg : Expr) : RenderM (List String) :=
  match modifier, arg with
  | .params, .newArray _ _ items => items.mapM (strippedText visit)
  | .ref, _ => do return ["ref " ++ (← visit arg)]
  | .out, _ => do return ["out " ++ (← visit arg)]
  | _, _ => do return [← strippedText visit arg]

/-- The texts of arguments. Where the parameters are known there is one for each argument. -/
def arguments (visit : Visit) (args : List Expr) (params : Option (List Parameter)) :
    RenderM (List String) := do
  match params with
  | none => return (← args.mapM (argumentTexts visit .value)).flatten
  | some params =>
    if params.length = args.length then
      return (← (args.zip params).mapM fun (arg, p) => argumentTexts visit p.modifier arg).flatten
    else refuse (.argumentCount args.length params.length)

def parameters (visit : Visit) (args : List Expr) (params : Option (List Parameter)) :
    RenderM String := do
  argumentList "(" ")" (← arguments visit args params)

end RenderM

end ExprText
