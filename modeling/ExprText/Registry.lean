import ExprText.Expr.Kind

/-! # Registries

A registry says which renderer shows the nodes of a kind. The first renderer registered for a kind
keeps it. -/

namespace ExprText

/-- A way to show nodes of one family. -/
inductive Renderer where
  | constant | variable | default | extension | binary | assign | unary | conditional | loop | block
  | lambda | call | member | index | new
  /-- Shows variables by their declared names in capitals. -/
  | shouting
deriving DecidableEq, Repr, Inhabited

namespace Renderer

/-- The renderers that come with the library, in the order in which they are registered. -/
def standard : List Renderer :=
  [.constant, .variable, .default, .extension, .binary, .assign, .unary, .conditional, .loop, .block,
    .lambda, .call, .member, .index, .new]

def name : Renderer → String
  | .constant => "Constant"
  | .variable => "Variable"
  | .default => "Default"
  | .extension => "Extension"
  | .binary => "Binary"
  | .assign => "Assign"
  | .unary => "Unary"
  | .conditional => "Conditional"
  | .loop => "Loop"
  | .block => "Block"
  | .lambda => "Lambda"
  | .call => "Call"
  | .member => "Member"
  | .index => "Index"
  | .new => "New"
  | .shouting => "Shouting"

def ofName? (name : String) : Option Renderer :=
  (standard ++ [shouting]).find? (·.name == name)

/-- The kinds of the nodes that a renderer can show. -/
def kinds : Renderer → List Kind
  | .constant => [.constant]
  | .variable => [.variable]
  | .default => [.default]
  | .extension => [.extension]
  | .binary => BinaryOp.all.map .binary
  | .assign => AssignOp.all.map .assign
  | .unary => UnaryOp.all.map .unary
  | .conditional => [.conditional]
  | .loop => [.loop, .break, .continue, .return]
  | .block => [.block]
  | .lambda => [.lambda]
  | .call => [.call, .invoke]
  | .member => [.member]
  | .index => [.index]
  | .new => [.new, .newArray]
  | .shouting => [.variable]

end Renderer

/-- A renderer and the kinds it is offered for. A registry never looks into its renderers: they may be
    of any type. -/
structure Registration (R : Type := Renderer) where
  renderer : R
  kinds : List Kind
deriving DecidableEq, Repr

namespace Registration

/-- A renderer offered for the kinds it can show. -/
def of (r : Renderer) : Registration := ⟨r, r.kinds⟩

def offers {R : Type} (x : Registration R) (kind : Kind) : Bool :=
  x.kinds.contains kind

end Registration

namespace Registry

/-- Gives a kind to the registration at `index` unless it has one. -/
def enter (index : Nat) (positions : List (Kind × Nat)) (kind : Kind) : List (Kind × Nat) :=
  if (positions.lookup kind).isSome then positions else (kind, index) :: positions

theorem lookup_enter (index : Nat) (positions : List (Kind × Nat)) (kind k : Kind) :
    (enter index positions kind).lookup k =
      (positions.lookup k).or (if k = kind then some index else none) := by
  unfold enter
  by_cases hk : k = kind
  · subst hk
    cases h : positions.lookup k with
    | none => simp
    | some i => simp [h]
  · have hbeq : (k == kind) = false := beq_eq_false_iff_ne.mpr hk
    rw [if_neg hk, Option.or_none]
    split
    · rfl
    · simp [List.lookup_cons, hbeq]

theorem lookup_foldl_enter (index : Nat) (k : Kind) : ∀ (kinds : List Kind) (positions : List (Kind × Nat)),
    (kinds.foldl (enter index) positions).lookup k =
      (positions.lookup k).or (if kinds.contains k then some index else none)
  | [], positions => by simp
  | kind :: kinds, positions => by
    rw [List.foldl_cons, lookup_foldl_enter index k kinds, lookup_enter]
    by_cases hk : k = kind
    · subst hk
      cases positions.lookup k <;> simp
    · simp [hk]

end Registry

/-- The registrations in their order, and which of them each kind belongs to. -/
structure Registry (R : Type := Renderer) where
  registrations : List (Registration R) := []
  /-- Where the registration of a kind stands. -/
  positions : List (Kind × Nat) := []
  /-- A kind stands where the first registration does that offers it. -/
  lookup_positions : ∀ kind, positions.lookup kind = registrations.findIdx? (·.offers kind) := by
    exact fun _ => rfl
deriving Repr

namespace Registry

variable {R : Type}

def find? (r : Registry R) (kind : Kind) : Option (Registration R) :=
  (r.positions.lookup kind).bind fun index => r.registrations[index]?

def supports (r : Registry R) (kind : Kind) : Bool :=
  (r.positions.lookup kind).isSome

/-- Adds a renderer; kinds that have one keep it. -/
def add (r : Registry R) (x : Registration R) : Registry R where
  registrations := r.registrations ++ [x]
  positions := x.kinds.foldl (enter r.registrations.length) r.positions
  lookup_positions kind := by
    rw [lookup_foldl_enter, r.lookup_positions, List.findIdx?_append, List.findIdx?_singleton]
    congr 1
    unfold Registration.offers
    cases x.kinds.contains kind <;> simp

def ofList (xs : List (Registration R)) : Registry R :=
  xs.foldl add {}

/-- The registry of the renderers that come with the library. -/
def standard : Registry :=
  ofList (Renderer.standard.map .of)

end Registry

end ExprText
