import ExprText.Json.Basic

/-! # Forms

Rules by which values are read from JSON. A record is an object with its fields, in any order and with
other fields beside them, or an array with the values of its fields in the order of their declaration.
A case of a choice is its name, or an object with its name as the only key. -/

namespace ExprText.Form

variable {α σ : Type}

def bool? : Json σ → Option Bool
  | .bool b => some b
  | _ => none

/-- A natural number of at most 64 bits. -/
def nat? : Json σ → Option Nat
  | .num (.int (.ofNat n)) => if n < Nat.pow 2 64 then some n else none
  | _ => none

def string? : Json String → Option String
  | .str s => some s
  | _ => none

def list? (read : Json String → Option α) : Json String → Option (List α)
  | .arr items => items.mapM read
  | _ => none

/-! ## Records -/

/-- The values of fields given by their names. -/
def named (names : List String) (fields : List (String × Json σ)) : List (Option (Json σ)) :=
  names.map fun name => fields.lookup name

/-- The values of fields given by their places; there must not be more values than fields. -/
def placed (names : List String) (items : List (Json σ)) : Option (List (Option (Json σ))) :=
  if items.length ≤ names.length then
    some (items.map some ++ List.replicate (names.length - items.length) none)
  else none

/-- The values of the fields of a record. -/
def record (names : List String) : Json String → Option (List (Option (Json String)))
  | .obj fields => some (named names fields)
  | .arr items => placed names items
  | _ => none

def required (read : Json σ → Option α) (value : Option (Json σ)) : Option α :=
  value.bind read

/-- A field with a default, which stands for a value that is not given. -/
def defaulted (default : α) (read : Json σ → Option α) : Option (Json σ) → Option α
  | none => some default
  | some j => read j

/-- A field that may be absent or `null`. -/
def optional (read : Json σ → Option α) : Option (Json σ) → Option (Option α)
  | none | some .null => some none
  | some j => (read j).map some

/-! ## Choices -/

/-- The name of a case and the value beside it. -/
def case? : Json String → Option (String × Option (Json String))
  | .str name => some (name, none)
  | .obj [(name, value)] => some (name, some value)
  | _ => none

/-- Whether what stands beside the name of a case without parts is nothing, or `null`. -/
def isUnit : Option (Json String) → Bool
  | none | some .null => true
  | _ => false

/-- A case without parts. -/
def unitCase? (ofName? : String → Option α) (j : Json String) : Option α := do
  let (name, value) ← case? j
  if isUnit value then ofName? name else none

end ExprText.Form
