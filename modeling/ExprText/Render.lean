import ExprText.Render.Blocks
import ExprText.Render.Branches
import ExprText.Render.Calls
import ExprText.Render.Extensions
import ExprText.Render.Leaf
import ExprText.Render.Members
import ExprText.Render.Operators

/-! # Rendering

A node is shown by the renderer that the registry has for its kind. A text that was shown before at
the same place is used again. -/

namespace ExprText

/-- Shows a node the way of a renderer; `visit` shows the nodes below it. -/
def Renderer.render (visit : Visit) (e : Expr) : Renderer → RenderM String
  | .constant => Render.constant e
  | .variable => Render.variableName e
  | .default => Render.default e
  | .extension => Render.extension visit e
  | .binary => Render.binary visit e
  | .assign => Render.assign visit e
  | .unary => Render.unary visit e
  | .conditional => Render.conditional visit e
  | .loop => Render.loop visit e
  | .block => Render.block visit e
  | .lambda => Render.lambda visit e
  | .call => Render.call visit e
  | .member => Render.member visit e
  | .index => Render.index visit e
  | .new => Render.new visit e
  | .shouting => Render.shouting e

/-- Shows a node whose height is at most the given number. -/
def visit : Nat → Visit
  | 0, _ => RenderM.refuse .tooDeep
  | depth + 1, e => do
    let s ← get
    match s.memo.lookup (s.keyOf e) with
    | some text => return text
    | none =>
      match (← read).registry.find? e.kind with
      | none => throw (.unsupported e.kind)
      | some registration =>
        let text ← RenderM.within e (registration.renderer.render (visit depth) e)
        modify (Session.remember (s.keyOf e) text)
        return text

namespace RenderM

/-- The text of a tree under the node being shown. -/
def textOf (e : Expr) : RenderM String :=
  visit e.height e

/-- The body that a tree makes under the node being shown. -/
def bodyOf (e : Expr) : RenderM Body :=
  body (visit e.height) e

/-- The texts of arguments under the node being shown. -/
def argumentsOf (args : List Expr) (params : Option (List Parameter)) : RenderM (List String) :=
  arguments (visit (Expr.heightOfAll args)) args params

/-- Arguments in parentheses under the node being shown. -/
def parametersOf (args : List Expr) (params : Option (List Parameter)) : RenderM String :=
  parameters (visit (Expr.heightOfAll args)) args params

end RenderM

/-- The text of a tree, shown in a session of its own. -/
def Expr.render (env : Env) (e : Expr) : Except Fault String :=
  ((RenderM.textOf e).runOn env (.start e)).1

end ExprText
