import ExprText.Fault
import ExprText.Name.Table
import ExprText.Registry
import ExprText.Settings.Basic
import ExprText.Text.Group
import ExprText.Ty.Name

/-! # Sessions

What one rendering remembers while it walks a tree: the path from the root to the node that is being
shown, the names given so far, the texts of the nodes shown so far, and the locals declared in the
blocks that are open. -/

namespace ExprText

/-- What stays the same during a rendering. -/
structure Env where
  registry : Registry := .standard
  settings : Settings := {}
  /-- Whether the names of types show their namespaces. -/
  qualified : Bool := false
  /-- The names of types, which a caller may choose. -/
  typeName : Ty → String := Ty.display qualified

def Env.indent (env : Env) : String :=
  env.settings.indent

/-- The identity of a node and of the node above it. -/
abbrev MemoKey := Nat × Option Nat

structure Session where
  /-- The nodes from the one being shown up to the root. -/
  path : List Expr := []
  names : NameTable := {}
  /-- The questions put to the name table so far, the last one first. -/
  asked : List NameRequest := []
  /-- The texts of nodes, by the place where they were shown. -/
  memo : List (MemoKey × String) := []
  /-- The identities of the locals declared in each open scope, the innermost first. -/
  scopes : List (List Nat) := [[]]
deriving Inhabited

namespace Session

/-- The session in which a tree is shown: its explicit names are taken. -/
def start (root : Expr) : Session :=
  { names := ({} : NameTable).reserve root }

/-! ## The path -/

def push (e : Expr) (s : Session) : Session :=
  { s with path := e :: s.path }

def pop (s : Session) : Session :=
  { s with path := s.path.tail }

def current? (s : Session) : Option Expr :=
  s.path.head?

def parent? (s : Session) : Option Expr :=
  s.path.tail.head?

/-- The path from its innermost occurrence of `e` on. -/
def pathFrom (s : Session) (e : Expr) : List Expr :=
  s.path.dropWhile (!·.same e)

/-- The node above `e`, where `e` is on the path. -/
def parentOf? (s : Session) (e : Expr) : Option Expr :=
  (s.pathFrom e).tail.head?

/-- The kind that faults of the node being shown are reported for. -/
def currentKind (s : Session) : Kind :=
  (s.current?.map Expr.kind).getD .extension

/-- How many calls on a path have the node before them as their receiver, without a gap. -/
def linksAbove : List Expr → Nat
  | child :: parent :: rest =>
    if parent.receiver?.any (·.same child) then linksAbove (parent :: rest) + 1 else 0
  | _ => 0

/-- Whether a call is written after another call and the calls that are written one after another
around it are at least three. -/
def inCallChain (s : Session) (e : Expr) : Bool :=
  e.receiver?.any Expr.isCall && 3 ≤ e.callCount + linksAbove (s.pathFrom e)

/-! ## The memo -/

/-- The place at which a node is about to be shown. -/
def keyOf (s : Session) (e : Expr) : MemoKey :=
  (e.id, s.current?.map Expr.id)

def remember (key : MemoKey) (text : String) (s : Session) : Session :=
  { s with memo := (key, text) :: s.memo }

/-! ## Names -/

/-- Puts a question to the name table. -/
def ask (request : NameRequest) (s : Session) : String × Session :=
  let (name, names) := s.names.answer request
  (name, { s with names, asked := request :: s.asked })

/-! ## Scopes -/

def openScope (s : Session) : Session :=
  { s with scopes := [] :: s.scopes }

/-- Forgets the locals of the innermost scope; the outermost scope stays open. -/
def closeScope (s : Session) : Session :=
  match s.scopes with
  | _ :: outer :: rest => { s with scopes := outer :: rest }
  | _ => s

/-- Whether an open scope declares a variable. -/
def isDeclared (s : Session) (v : Variable) : Bool :=
  s.scopes.any (·.contains v.id)

/-- Declares a variable in the innermost scope; answers whether no open scope had declared it. -/
def declare (v : Variable) (s : Session) : Bool × Session :=
  if s.isDeclared v then (false, s)
  else
    match s.scopes with
    | inner :: outer => (true, { s with scopes := (v.id :: inner) :: outer })
    | [] => (false, s)

/-! ## Parentheses of children -/

/-- Whether a child keeps the parentheses around its text. Calls keep them where the nearest node
above that is no call is arithmetic or a conversion. -/
def keepsParens (s : Session) : Expr → Bool
  | .conditional .. | .lambda .. => true
  | .call .. => (s.path.find? (!·.isCall)).any (·.kind.takesChecked)
  | .invoke _ target _ _ => target.isLambda
  | _ => false

/-- The text of a child without parentheses around it, unless it is a child that keeps them. -/
def stripped (s : Session) (child : Expr) (text : String) : String :=
  if s.keepsParens child then text else Text.withoutParens text

end Session

/-! ## Actions -/

/-- An action of a rendering. What it did to the session stays when it fails. -/
abbrev RenderM := ReaderT Env (ExceptT Fault (StateM Session))

/-- Shows a node under the one being shown. -/
abbrev Visit := Expr → RenderM String

namespace RenderM

/-- The result of an action and the session it leaves. -/
def runOn {α : Type} (action : RenderM α) (env : Env) (s : Session) : Except Fault α × Session :=
  (action.run env).run.run s

/-- Refuses the node being shown. -/
def refuse {α : Type} (cause : Cause) : RenderM α := do
  throw (.malformed (← get).currentKind cause)

/-- Runs an action between two changes of the session; the second is made however the action ends. -/
def between {α : Type} (enter leave : Session → Session) (action : RenderM α) : RenderM α :=
  fun env => ExceptT.mk do
    modify enter
    let result ← (action env).run
    modify leave
    return result

/-- Runs an action with `e` as the node being shown. -/
def within {α : Type} (e : Expr) (action : RenderM α) : RenderM α :=
  between (Session.push e) Session.pop action

def inScope {α : Type} (action : RenderM α) : RenderM α :=
  between Session.openScope Session.closeScope action

def typeName (ty : Ty) : RenderM String := do
  return (← read).typeName ty

def indent : RenderM String := do
  return (← read).indent

def ask (request : NameRequest) : RenderM String :=
  modifyGet (Session.ask request)

def nameOf (v : Variable) : RenderM String :=
  ask (.variable v)

def capturedName (object : Captured) : RenderM String :=
  ask (.captured object)

def capturedMemberName (object : Captured) (member : String) : RenderM String :=
  ask (.capturedMember object member)

/-- The text of a child without parentheses around it, unless it is a child that keeps them. -/
def stripped (child : Expr) (text : String) : RenderM String := do
  return (← get).stripped child text

end RenderM

end ExprText
