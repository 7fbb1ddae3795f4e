import ExprText.Expr.Build
import ExprText.Proofs.Shown

/-! # Shapes of nodes

What a node needs to be shown: its jumps lead to loops around it, and its calls have the arguments
that their methods declare. Nodes that are not shown need nothing. -/

namespace ExprText

namespace Render

/-- Whether a list of arguments is as long as that of the parameters, where these are known. -/
def Counted (args : List Expr) : Option (List Parameter) → Prop
  | none => True
  | some params => args.length = params.length

/-- Whether a method that has generic parameters has a type argument for each. -/
def GenericsFit (method : Method) : Prop :=
  method.genericParams ≠ [] → method.genericArgs.length = method.genericParams.length

/-- Whether a method call has the parts that its method asks for. A concatenation of strings asks for
nothing. A method with index parameters needs a subject and an index, and a setter a value besides. Any other call needs a
receiver, unless its method is static, and an argument for each parameter. -/
def CallFits (subject : Option Expr) (method : Method) (args : List Expr) : Prop :=
  if isConcatenation subject method then True
  else if method.accessor.any (0 < ·.indexParams) then
    subject ≠ none ∧ (if method.accessor.any (·.isSetter) then 2 else 1) ≤ args.length
  else
    (match method.kind with
      | .extension => args ≠ [] ∧ args.length - 1 = method.params.length - 1
      | .static => args.length = method.params.length
      | .onInstance => subject ≠ none ∧ args.length = method.params.length) ∧
    GenericsFit method

end Render

namespace Expr

open Render

/-- Whether a node under the given nodes has what it needs by itself. -/
def Fits (path : List Expr) : Expr → Prop
  | .break _ target => ∃ id body label other,
    Expr.loop id body (some label) other ∈ path ∧ label.id = target.id
  | .continue _ target => ∃ id body other label,
    Expr.loop id body other (some label) ∈ path ∧ label.id = target.id
  | .index _ _ indices _ => indices ≠ []
  | .new _ _ constructor args => Counted args (constructor.map Method.params)
  | .call _ subject method args => CallFits subject method args
  | _ => True

/-- Whether a node is no extension node, unless it is a comment. -/
def IsNative (e : Expr) : Prop :=
  e.kind = .extension → e.commentText?.isSome = true

theorem IsNative.of_kind {e : Expr} (h : e.kind ≠ .extension) : e.IsNative :=
  fun hext => absurd hext h

theorem any_ownsLabel_iff {path : List Expr} {labelOf : Option Label → Option Label → Option Label}
    {target : Label} : path.any (ownsLabel labelOf target) = true ↔ ∃ id body b c label,
      Expr.loop id body b c ∈ path ∧ labelOf b c = some label ∧ label.id = target.id := by
  rw [List.any_eq_true]
  constructor
  · rintro ⟨e, he, howns⟩
    cases e with
    | loop id body b c =>
      rw [ownsLabel] at howns
      cases hlabel : labelOf b c with
      | none =>
        rw [hlabel] at howns
        cases howns
      | some label =>
        rw [hlabel, Option.any_some, beq_iff_eq] at howns
        exact ⟨id, body, b, c, label, he, hlabel, howns⟩
    | _ => cases howns
  · rintro ⟨id, body, b, c, label, he, hlabel, hid⟩
    exact ⟨_, he, by rw [ownsLabel, hlabel, Option.any_some, beq_iff_eq, hid]⟩

theorem any_ownsLabel_break {path : List Expr} {target : Label} :
    path.any (ownsLabel (fun b _ => b) target) = true ↔ ∃ id body label other,
      Expr.loop id body (some label) other ∈ path ∧ label.id = target.id := by
  rw [any_ownsLabel_iff]
  constructor
  · rintro ⟨id, body, _, other, label, he, rfl, hid⟩
    exact ⟨id, body, label, other, he, hid⟩
  · rintro ⟨id, body, label, other, he, hid⟩
    exact ⟨id, body, _, other, label, he, rfl, hid⟩

theorem any_ownsLabel_continue {path : List Expr} {target : Label} :
    path.any (ownsLabel (fun _ c => c) target) = true ↔ ∃ id body other label,
      Expr.loop id body other (some label) ∈ path ∧ label.id = target.id := by
  rw [any_ownsLabel_iff]
  constructor
  · rintro ⟨id, body, other, _, label, he, rfl, hid⟩
    exact ⟨id, body, other, label, he, hid⟩
  · rintro ⟨id, body, other, label, he, hid⟩
    exact ⟨id, body, other, _, label, he, rfl, hid⟩

/-! ### Alike nodes have one shape -/

section Alike
variable {e f : Expr} {p q xs ys : List Expr}

theorem any_ownsLabel_alike (h : List.Forall₂ Alike p q)
    (label : Option Label → Option Label → Option Label) (target : Label) :
    p.any (ownsLabel label target) = q.any (ownsLabel label target) := by
  induction h with
  | nil => rfl
  | cons hx _ ih =>
    rw [List.any_cons, List.any_cons, ih]
    cases hx.twin <;> rfl

theorem callFits_alike {a b : Option Expr} (ha : Option.Rel Alike a b) (h : List.Forall₂ Alike xs ys)
    (method : Method) : CallFits a method xs ↔ CallFits b method ys := by
  have hsubject : a = none ↔ b = none := by cases ha <;> simp
  have hargs : xs = [] ↔ ys = [] := by cases h <;> simp
  simp only [CallFits, isConcatenation_alike ha, h.length_eq, ne_eq, hsubject, hargs]

theorem Alike.fits (h : Alike e f) (hpath : List.Forall₂ Alike p q) : e.Fits p ↔ f.Fits q := by
  cases h.twin with
  | «break» =>
    rw [Fits, Fits, ← any_ownsLabel_break, ← any_ownsLabel_break, any_ownsLabel_alike hpath]
  | «continue» =>
    rw [Fits, Fits, ← any_ownsLabel_continue, ← any_ownsLabel_continue, any_ownsLabel_alike hpath]
  | index _ hargs =>
    rw [Fits, Fits, ← List.length_pos_iff, ← List.length_pos_iff, hargs.length_eq]
  | @new _ _ _ constructor _ _ hargs =>
    rw [Fits, Fits]
    cases constructor with
    | none => rfl
    | some method => rw [Option.map_some, Counted, Counted, hargs.length_eq]
  | call ha hargs => exact callFits_alike ha hargs _
  | _ => rfl

end Alike

end Expr

end ExprText
