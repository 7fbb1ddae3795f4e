import ExprText.Registry

/-! # Registries

A kind belongs to the first registration that offers it. -/

namespace ExprText

namespace Registry

variable {R : Type}

/-- The index of a kind is one of a registration, and of the first that offers the kind. -/
theorem find?_eq (r : Registry R) (k : Kind) : r.find? k = r.registrations.find? (·.offers k) := by
  rw [find?, r.lookup_positions, List.find?_eq_bind_findIdx?_getElem?]

theorem supports_eq (r : Registry R) (k : Kind) : r.supports k = (r.find? k).isSome := by
  rw [find?_eq, supports, r.lookup_positions, List.findIdx?_isSome, List.isSome_find?]

theorem registrations_foldl_add : ∀ (xs : List (Registration R)) (r : Registry R),
    (xs.foldl add r).registrations = r.registrations ++ xs
  | [], r => by simp
  | x :: xs, r => by
    rw [List.foldl_cons, registrations_foldl_add xs, add, List.append_assoc, List.singleton_append]

/-- A kind that is taken stays with its registration, and any other goes to the first registration
    that offers it. -/
theorem find?_foldl_add (r : Registry R) (xs : List (Registration R)) (k : Kind) :
    (xs.foldl add r).find? k = (r.find? k).or (xs.find? (·.offers k)) := by
  rw [find?_eq, find?_eq, registrations_foldl_add, List.find?_append]

theorem find?_ofList (xs : List (Registration R)) (k : Kind) :
    (ofList xs).find? k = xs.find? (·.offers k) :=
  find?_foldl_add {} xs k

/-- Whatever is registered and in whatever order, a kind belongs to the first registration that offers
    it, and to none if there is no such registration. The registry supports exactly the kinds that
    belong to one, and what is added to it later leaves those with the registration they have. -/
theorem first_registration_wins (xs : List (Registration R)) (k : Kind) :
    (∀ x, (ofList xs).find? k = some x ↔
      ∃ before after, xs = before ++ x :: after ∧ k ∈ x.kinds ∧ ∀ y ∈ before, k ∉ y.kinds) ∧
    ((ofList xs).find? k = none ↔ ∀ x ∈ xs, k ∉ x.kinds) ∧
    ((ofList xs).supports k = true ↔ ((ofList xs).find? k).isSome = true) ∧
    ∀ ys, (ofList xs).supports k = true →
      (ofList (xs ++ ys)).find? k = (ofList xs).find? k := by
  refine ⟨fun x => ?_, ?_, ?_, fun ys h => ?_⟩
  · rw [find?_ofList, List.find?_eq_some_iff_append]
    simp only [Registration.offers, List.contains_iff_mem, Bool.not_eq_true', ← Bool.not_eq_true]
    constructor
    · rintro ⟨hx, before, after, rfl, hbefore⟩
      exact ⟨before, after, rfl, hx, hbefore⟩
    · rintro ⟨before, after, rfl, hx, hbefore⟩
      exact ⟨hx, before, after, rfl, hbefore⟩
  · rw [find?_ofList, List.find?_eq_none]
    simp only [Registration.offers, List.contains_iff_mem]
  · rw [supports_eq]
  · rw [supports_eq, Option.isSome_iff_exists] at h
    obtain ⟨x, hx⟩ := h
    rw [ofList, List.foldl_append, find?_foldl_add]
    show ((ofList xs).find? k).or _ = _
    rw [hx, Option.some_or]

end Registry

/-- The renderer that comes with the library for nodes of a kind. -/
def Kind.renderer : Kind → Renderer
  | .constant => .constant
  | .variable => .variable
  | .binary _ => .binary
  | .unary _ => .unary
  | .assign _ => .assign
  | .conditional => .conditional
  | .call | .invoke => .call
  | .new | .newArray => .new
  | .member => .member
  | .index => .index
  | .lambda => .lambda
  | .block => .block
  | .loop | .break | .continue | .return => .loop
  | .default => .default
  | .extension => .extension

/-- The standard registry has a renderer for every kind. -/
theorem Registry.standard_find? (k : Kind) : Registry.standard.find? k = some (.of k.renderer) := by
  rw [standard, find?_ofList]
  cases k with
  | binary op => cases op <;> rfl
  | unary op => cases op <;> rfl
  | assign op => cases op <;> rfl
  | _ => rfl

theorem Kind.renderer_of_mem_kinds {k : Kind} {r : Renderer} (hr : r ≠ .shouting) (h : k ∈ r.kinds) :
    r = k.renderer := by
  cases r with
  | shouting => exact absurd rfl hr
  | binary | unary | assign =>
    obtain ⟨op, -, rfl⟩ := List.mem_map.mp h
    rfl
  | _ =>
    simp only [Renderer.kinds, List.mem_cons, List.not_mem_nil, or_false] at h
    rcases h with rfl | rfl | rfl | rfl <;> rfl

/-- A registry of renderers that come with the library has for a kind the renderer of that kind, if it
    has any. -/
theorem Registry.renderer_of_find? {rs : List Renderer} (hrs : .shouting ∉ rs) {k : Kind}
    {r : Registration} (h : (ofList (rs.map .of)).find? k = some r) : r.renderer = k.renderer := by
  rw [find?_ofList] at h
  obtain ⟨renderer, hmem, rfl⟩ := List.mem_map.mp (List.mem_of_find?_eq_some h)
  have hoffered := List.find?_some h
  refine Kind.renderer_of_mem_kinds ?_ (List.contains_iff_mem.mp hoffered)
  rintro rfl
  exact hrs hmem

end ExprText
