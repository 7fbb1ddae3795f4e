/-! # JSON values

A JSON document whose strings have the type `σ`: literals as they are written, or the texts they stand
for. -/

namespace ExprText

/-- A number by its spelling: an integer written as digits with or without a minus, or a number with a
fraction, an exponent or a negative zero. -/
inductive Json.Number where
  | int (value : Int)
  | other (text : String)
deriving DecidableEq, Repr, Inhabited

inductive Json (σ : Type) where
  | null
  | bool (value : Bool)
  | num (value : Json.Number)
  | str (value : σ)
  | arr (items : List (Json σ))
  | obj (fields : List (σ × Json σ))
deriving Repr, Inhabited

namespace Json

variable {σ : Type}

def nat (n : Nat) : Json σ := .num (.int n)

/-! ## Depth -/

mutual

/-- How many values are nested in one another at most. -/
def depth : Json σ → Nat
  | .null | .bool _ | .num _ | .str _ => 1
  | .arr items => depthOfItems items + 1
  | .obj fields => depthOfFields fields + 1

def depthOfItems : List (Json σ) → Nat
  | [] => 0
  | j :: rest => max j.depth (depthOfItems rest)

def depthOfFields : List (σ × Json σ) → Nat
  | [] => 0
  | (_, j) :: rest => max j.depth (depthOfFields rest)

end

/-! ## Fields -/

/-- Fields without repeated keys: a key has the last value that was given to it. -/
def lastWins (fields : List (String × Json String)) : List (String × Json String) :=
  fields.foldr (fun (key, value) rest => if (rest.lookup key).isSome then rest else (key, value) :: rest) []

end Json

end ExprText
