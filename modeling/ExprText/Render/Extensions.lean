import ExprText.Render.Arguments

/-! # Extension nodes

Each form of extension node has a rendering of its own. -/

namespace ExprText.Render

open RenderM

def kindText (e : Option Expr) : String :=
  (e.map (·.kind.text)).getD "none"

/-- The text of an extension node `e` with the given form and children. -/
def formText (visit : Visit) (e : Expr) (nodes : List Expr) : ExtensionForm → RenderM String
  | .comment text => return Text.asComment text
  | .await => do
    let texts ← nodes.mapM visit
    return Text.join " " ("await" :: texts)
  | .verbatim text => return text
  | .reject reason => refuse (.refused reason)
  | .parent => return kindText (← get).parent?
  | .selfParent => return kindText ((← get).parentOf? e)
  | .grandparent => do
    let s ← get
    return kindText (s.parent?.bind s.parentOf?)
  | .parentOfFirst => do
    let s ← get
    return kindText (nodes.head?.bind s.parentOf?)
  | .ancestors => return Text.join " < " ((← get).path.map (·.kind.text))
  | .arguments params => parameters visit nodes params
  | .bodies => do
    let bodies ← nodes.mapM (body visit)
    return String.join (bodies.map Body.bracketed)
  | .unknown name => refuse (.unknownExtension name)

def extension (visit : Visit) : Expr → RenderM String
  | e@(.extension _ form _ nodes) => formText visit e nodes form
  | _ => refuse (.expected .extension)

end ExprText.Render
