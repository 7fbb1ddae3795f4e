import ExprText.Expr.Basic
import ExprText.Name.Derived

/-! # Name tables

A name table gives every variable and captured value of one rendering its name. Explicit names are
used as written; a generated name is never one that the table has taken before. -/

namespace ExprText

/-- What a name is given to. -/
inductive NameKey where
  | variable (id : Nat)
  | captured (id : Nat)
  | capturedMember (id : Nat) (member : String)
deriving DecidableEq, Repr

/-- A question put to a name table: what a variable, a captured object or a member of one is called. -/
inductive NameRequest where
  | variable (v : Variable)
  | captured (object : Captured)
  | capturedMember (object : Captured) (member : String)
deriving DecidableEq, Repr

/-- What a question is about. -/
def NameRequest.key : NameRequest → NameKey
  | .variable v => .variable v.id
  | .captured object => .captured object.id
  | .capturedMember object member => .capturedMember object.id member

structure NameTable where
  /-- The names given so far. -/
  assigned : List (NameKey × String) := []
  /-- The names that no generated name may be. -/
  taken : List String := []
deriving Repr, Inhabited

/-- The name of a variable that a person chose. -/
def Variable.explicitName? (v : Variable) : Option String :=
  v.name.filter (!Name.isSynthesized ·)

/-- The explicit names that a node brings in by itself. -/
def Expr.explicitNames : Expr → List String
  | .variable _ target => target.explicitName?.toList
  | .lambda _ params _ _ => params.filterMap Variable.explicitName?
  | .block _ locals _ _ => locals.filterMap Variable.explicitName?
  | .member _ (some subject) target =>
    if subject.isCaptured && !Name.isSynthesized target.name then [target.name] else []
  | _ => []

namespace NameTable

/-- Takes every explicit name of a tree, so that no generated name can be one that appears later. -/
def reserve (t : NameTable) (root : Expr) : NameTable :=
  { t with taken := root.nodes.flatMap Expr.explicitNames ++ t.taken }

/-- The number that a turn of the search for a free name puts behind its base: two, three and so forth. It
has 32 bits, so that the greatest number is followed by the least. A search that comes back to two has no end;
the longer numbers after that turn only keep names apart where nothing else does. -/
def number (turn : Nat) : Int :=
  if turn < Int32.size then (Int32.ofNat (turn + 2)).toInt else turn + 2

/-- `base` if it is free, and otherwise `base` with the first number that makes it free. One of
`taken.length + 1` numbers does. -/
def freeName (taken : List String) (base : String) : String :=
  if taken.contains base then
    (((List.range (taken.length + 1)).map fun turn => base ++ toString (number turn)).find?
      (!taken.contains ·)).getD base
  else base

/-- Takes a free name made from `base`. -/
def claim (t : NameTable) (base : String) : String × NameTable :=
  let name := freeName t.taken base
  (name, { t with taken := name :: t.taken })

def assign (t : NameTable) (key : NameKey) (name : String) : NameTable :=
  { t with assigned := (key, name) :: t.assigned }

/-- The name given to `key`, or a new one made from `base`. -/
def claimFor (t : NameTable) (key : NameKey) (base : String) : String × NameTable :=
  match t.assigned.lookup key with
  | some name => (name, t)
  | none =>
    let (name, t) := t.claim base
    (name, t.assign key name)

def variableName (t : NameTable) (v : Variable) : String × NameTable :=
  match v.name with
  | none => t.claimFor (.variable v.id) (Name.ofTy v.ty)
  | some name =>
    if Name.isSynthesized name then t.claimFor (.variable v.id) (Name.readable name v.ty)
    else
      match t.assigned.lookup (.variable v.id) with
      | some given => (given, t)
      | none => (name, { t with taken := name :: t.taken }.assign (.variable v.id) name)

/-- The name of a captured object that stands by itself. -/
def capturedName (t : NameTable) (object : Captured) : String × NameTable :=
  t.claimFor (.captured object.id) (Name.ofTy object.ty)

/-- The name of a member read from a captured object. -/
def capturedMemberName (t : NameTable) (object : Captured) (member : String) : String × NameTable :=
  if Name.isSynthesized member then
    t.claimFor (.capturedMember object.id member) (Name.readable member object.ty)
  else (member, t)

/-- The answer to a question, and the table after it. -/
def answer (t : NameTable) : NameRequest → String × NameTable
  | .variable v => t.variableName v
  | .captured object => t.capturedName object
  | .capturedMember object member => t.capturedMemberName object member

end NameTable

end ExprText
