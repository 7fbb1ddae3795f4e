import ExprText.Render.Arguments

/-! # Members and objects

Fields and properties, indices, and the creation of objects and arrays. -/

namespace ExprText.Render

open RenderM

/-- A member of the object it is read from, or of its type. The members of a captured object stand
by themselves. -/
def member (visit : Visit) : Expr → RenderM String
  | .member _ subject target =>
    match subject, target.isStatic with
    | some subject, false =>
      match subject.captured? with
      | some object => capturedMemberName object target.name
      | none => return (← receiverText visit subject) ++ "." ++ target.name
    | _, _ => return (← typeName target.declaringType) ++ "." ++ target.name
  | _ => refuse (.expected .member)

def index (visit : Visit) : Expr → RenderM String
  | .index _ subject indices _ => do
    if indices.isEmpty then refuse .noIndices
    else
      let subject ← receiverText visit subject
      let indices ← arguments visit indices none
      return subject ++ (← argumentList "[" "]" indices)
  | _ => refuse (.expected .index)

/-- The items of an array after its type: in braces on one line if they are narrow enough and none of
them has several lines, and otherwise one item a line. -/
def arrayText (s : Settings) (array : String) (items : List String) : String :=
  let oneLine := Text.join ", " items
  if Text.width oneLine ≤ s.lineWidth && !items.any Text.isMultiLine then
    array ++ " \x7b " ++ oneLine ++ " \x7d"
  else array ++ "\n" ++ Body.braces (Text.join ",\n" (items.map (Text.indented s.indent)))

/-- A new object or array. An array shows its element type unless all its items have it. -/
def new (visit : Visit) : Expr → RenderM String
  | .new _ ty constructor args => do
    let args ← parameters visit args (constructor.map Method.params)
    return "new " ++ (← typeName ty) ++ args
  | .newArray _ element items => do
    if items.isEmpty then return "new " ++ (← typeName element) ++ "[0]"
    else
      let array ←
        if items.all (·.ty == element) then pure "new[]"
        else pure ("new " ++ (← typeName element) ++ "[]")
      let items ← arguments visit items none
      return arrayText (← read).settings array items
  | _ => refuse (.expected .new)

end ExprText.Render
