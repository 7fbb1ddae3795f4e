/-! # Type descriptors

Every node of an expression tree has a static result type. Rendering looks at it only to choose a
layout (does a node have a value, is `Not` bitwise, can a type argument be inferred) and to show its
name. -/

namespace ExprText

/-- A type as its source text names it. -/
inductive Ty where
  | void
  /-- A possibly generic type in a namespace; `none` is the global namespace. -/
  | named (ns : Option String) (name : String) (args : List Ty)
  /-- An array; a rank of two is shown with one comma. -/
  | array (element : Ty) (rank : Nat)
  | nullable (inner : Ty)
  /-- An open generic parameter of a method definition. -/
  | param (name : String)
  /-- The type of a parameter that is passed by reference. -/
  | byRef (inner : Ty)
deriving Repr, Inhabited

namespace Ty

/-! ## Equality -/

mutual

/-- Whether two types are written alike at every depth. -/
def beq : Ty → Ty → Bool
  | .void, .void => true
  | .named ns name args, .named ns' name' args' => ns == ns' && name == name' && beqAll args args'
  | .array element rank, .array element' rank' => beq element element' && rank == rank'
  | .nullable inner, .nullable inner' => beq inner inner'
  | .param name, .param name' => name == name'
  | .byRef inner, .byRef inner' => beq inner inner'
  | _, _ => false

def beqAll : List Ty → List Ty → Bool
  | [], [] => true
  | t :: ts, u :: us => beq t u && beqAll ts us
  | _, _ => false

end

mutual

theorem eq_of_beq : ∀ t u : Ty, beq t u = true → t = u
  | .void, u, h => by cases u <;> simp_all [beq]
  | .named .., u, h => by
    cases u <;> simp only [beq, Bool.and_eq_true, beq_iff_eq, Bool.false_eq_true] at h
    rw [h.1.1, h.1.2, eq_of_beqAll _ _ h.2]
  | .array .., u, h => by
    cases u <;> simp only [beq, Bool.and_eq_true, beq_iff_eq, Bool.false_eq_true] at h
    rw [eq_of_beq _ _ h.1, h.2]
  | .nullable _, u, h => by
    cases u <;> simp only [beq, Bool.false_eq_true] at h
    rw [eq_of_beq _ _ h]
  | .param _, u, h => by cases u <;> simp_all [beq]
  | .byRef _, u, h => by
    cases u <;> simp only [beq, Bool.false_eq_true] at h
    rw [eq_of_beq _ _ h]

theorem eq_of_beqAll : ∀ ts us : List Ty, beqAll ts us = true → ts = us
  | [], us, h => by cases us <;> simp_all [beqAll]
  | _ :: _, us, h => by
    cases us <;> simp only [beqAll, Bool.and_eq_true, Bool.false_eq_true] at h
    rw [eq_of_beq _ _ h.1, eq_of_beqAll _ _ h.2]

end

mutual

theorem beq_self : ∀ t : Ty, beq t t = true
  | .void => rfl
  | .named _ _ args => by simp [beq, beqAll_self args]
  | .array element _ => by simp [beq, beq_self element]
  | .nullable inner => by simp [beq, beq_self inner]
  | .param _ => by simp [beq]
  | .byRef inner => by simp [beq, beq_self inner]

theorem beqAll_self : ∀ ts : List Ty, beqAll ts ts = true
  | [] => rfl
  | t :: ts => by simp [beqAll, beq_self t, beqAll_self ts]

end

theorem beq_eq_true_iff {t u : Ty} : beq t u = true ↔ t = u :=
  ⟨eq_of_beq t u, fun h => h ▸ beq_self t⟩

instance : DecidableEq Ty := fun _ _ => decidable_of_iff _ beq_eq_true_iff

/-! ## Types of the `System` namespace -/

/-- A type of the `System` namespace without type arguments. -/
def system (name : String) : Ty := .named (some "System") name []

def bool : Ty := system "Boolean"
def char : Ty := system "Char"
def int : Ty := system "Int32"
def long : Ty := system "Int64"
def float : Ty := system "Single"
def double : Ty := system "Double"
def decimal : Ty := system "Decimal"
def string : Ty := system "String"
def object : Ty := system "Object"

/-- Whether this is the named type `System.name`, whatever its type arguments are. -/
def isSystem (name : String) : Ty → Bool
  | .named ns n _ => ns == some "System" && n == name
  | _ => false

def isVoid : Ty → Bool
  | .void => true
  | t => t.isSystem "Void"

def isString (t : Ty) : Bool := t.isSystem "String"

/-- Whether the type is an integer type, or a nullable one. -/
def isIntegral : Ty → Bool
  | .named (some "System") name _ =>
    ["Byte", "SByte", "Int16", "UInt16", "Int32", "UInt32", "Int64", "UInt64"].contains name
  | .nullable inner => inner.isIntegral
  | _ => false

/-! ## Delegates -/

/-- The delegate type of a function: `Func` with the result as its last argument, or `Action` when
there is no result. -/
def delegate (params : List Ty) (result : Ty) : Ty :=
  if result.isVoid then .named (some "System") "Action" params
  else .named (some "System") "Func" (params ++ [result])

def delegateResult : Ty → Option Ty
  | .named (some "System") "Action" _ => some .void
  | .named (some "System") "Func" args => args.getLast?
  | _ => none

/-! ## Generic parameters -/

mutual

/-- The generic parameters that occur in a type, from left to right and as often as they occur. -/
def params : Ty → List String
  | .void => []
  | .named _ _ args => paramsOfAll args
  | .array element _ => params element
  | .nullable inner => params inner
  | .param name => [name]
  | .byRef inner => params inner

def paramsOfAll : List Ty → List String
  | [] => []
  | t :: ts => params t ++ paramsOfAll ts

end

end Ty

end ExprText
