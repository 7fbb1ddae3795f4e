import ExprText.Proofs.Lockstep.Renderers
import ExprText.Proofs.Names.Unique
import ExprText.Proofs.Run

/-! # Rendering again

The engine without its memo shows a node anew each time. A node that was shown once is shown again by
the same text wherever it sees the same above it, as long as names are only added in between; and
showing it again adds none. -/

namespace ExprText

/-- Shows a node of at most the given height, without looking at what was shown before. -/
def visitPlain : Nat → Visit
  | 0, _ => RenderM.refuse .tooDeep
  | depth + 1, e => do
    match (← read).registry.find? e.kind with
    | none => throw (.unsupported e.kind)
    | some registration => RenderM.within e (registration.renderer.render (visitPlain depth) e)

/-- The text of a tree, shown without a memo. -/
def Expr.renderPlain (env : Env) (e : Expr) : Except Fault String :=
  ((visitPlain e.height e).runOn env (.start e)).1

section Plain
variable {env : Env} {s : Session} {e : Expr} {depth : Nat}

theorem runOn_visitPlain_none (h : env.registry.find? e.kind = none) :
    (visitPlain (depth + 1) e).runOn env s = (.error (.unsupported e.kind), s) := by
  rw [visitPlain, RenderM.runOn_bind_ok RenderM.runOn_read, h]
  rfl

theorem runOn_visitPlain_some {r : Registration} (h : env.registry.find? e.kind = some r) :
    (visitPlain (depth + 1) e).runOn env s =
      (((r.renderer.render (visitPlain depth) e).runOn env (s.push e)).1,
        ((r.renderer.render (visitPlain depth) e).runOn env (s.push e)).2.pop) := by
  rw [visitPlain, RenderM.runOn_bind_ok RenderM.runOn_read, h]
  rfl

end Plain

/-! ### Where a session stands -/

/-- The identities of the variables that the open scopes declare. -/
abbrev Declared := Nat → Prop

def Declared.insert (v : Variable) (d : Declared) : Declared :=
  fun i => i = v.id ∨ d i

theorem Declared.insert_of_mem {v : Variable} {d : Declared} (h : d v.id) : d.insert v = d := by
  funext i
  apply propext
  constructor
  · rintro (rfl | hi)
    · exact h
    · exact hi
  · exact Or.inr

/-- A session under the given nodes with the given declarations. -/
structure Session.Stands (path : List Expr) (d : Declared) (s : Session) : Prop where
  path : s.path = path
  declared : ∀ v : Variable, s.isDeclared v = true ↔ d v.id
  opened : s.scopes ≠ []

namespace Session.Stands

variable {path : List Expr} {d : Declared} {s : Session}

theorem push (h : s.Stands path d) (e : Expr) : (s.push e).Stands (e :: path) d :=
  ⟨by rw [Session.push, h.path], h.declared, h.opened⟩

theorem pop {e : Expr} (h : s.Stands (e :: path) d) : s.pop.Stands path d :=
  ⟨by rw [Session.pop, h.path, List.tail_cons], h.declared, h.opened⟩

theorem declare (h : s.Stands path d) (v : Variable) :
    (s.declare v).2.Stands path (d.insert v) ∧ (s.declare v).2.scopes.tail = s.scopes.tail ∧
      (s.declare v).2.names = s.names ∧ (s.declare v).2.memo = s.memo ∧
      (s.declare v).1 = !s.isDeclared v := by
  unfold Session.declare
  cases hv : s.isDeclared v with
  | true =>
    rw [if_pos rfl, Declared.insert_of_mem ((h.declared v).mp hv)]
    exact ⟨h, rfl, rfl, rfl, rfl⟩
  | false =>
    rw [if_neg Bool.false_ne_true]
    cases hs : s.scopes with
    | nil => exact absurd hs h.opened
    | cons inner outer =>
      refine ⟨⟨h.path, fun w => ?_, by simp⟩, rfl, rfl, rfl, rfl⟩
      have hw := h.declared w
      simp only [isDeclared, hs, List.any_cons, List.contains_cons, Bool.or_eq_true, beq_iff_eq,
        or_assoc] at hw ⊢
      rw [hw]
      rfl

theorem openScope (h : s.Stands path d) : s.openScope.Stands path d :=
  ⟨h.path, fun v => by rw [← h.declared v]; rfl, by simp [Session.openScope]⟩

/-- A scope that is closed leaves what was there before it was opened. -/
theorem closeScope {t : Session} {inner : Declared} (h : s.Stands path d) (ht : t.Stands path inner)
    (htail : t.scopes.tail = s.scopes) :
    t.closeScope.Stands path d ∧ t.closeScope.scopes = s.scopes ∧ t.closeScope.names = t.names ∧
      t.closeScope.memo = t.memo := by
  cases hscopes : t.scopes with
  | nil => exact absurd hscopes ht.opened
  | cons first rest =>
    rw [hscopes, List.tail_cons] at htail
    cases hrest : rest with
    | nil => exact absurd (htail ▸ hrest) h.opened
    | cons outer others =>
      have hclose : t.closeScope = { t with scopes := s.scopes } := by
        rw [Session.closeScope, hscopes, hrest, ← htail, hrest]
      rw [hclose]
      exact ⟨⟨ht.path, h.declared, h.opened⟩, rfl, rfl, rfl⟩

end Session.Stands

/-! ### Replaying an action -/

def insertBoth (v : Variable) (m : Declared × Declared) : Declared × Declared :=
  (m.1.insert v, m.2.insert v)

/-- Whether the same of the given variables are declared at two places. -/
def AgreeOn (ids : List Nat) (m : Declared × Declared) : Prop :=
  ∀ i ∈ ids, m.1 i ↔ m.2 i

theorem AgreeOn.insertBoth {ids : List Nat} {m : Declared × Declared} (h : AgreeOn ids m)
    (v : Variable) : AgreeOn ids (insertBoth v m) :=
  fun i hi => or_congr Iff.rfl (h i hi)

/-- What is left of two sessions after an action on the one was replayed on the other. -/
structure Replayed (path path' : List Expr) (ids : List Nat) (n : Declared × Declared)
    (s s' t t' : Session) : Prop where
  left : s'.Stands path n.1
  right : t'.Stands path' n.2
  agree : AgreeOn ids n
  leftTail : s'.scopes.tail = s.scopes.tail
  rightTail : t'.scopes.tail = t.scopes.tail
  grows : s.names.Extends s'.names
  unchanged : t'.names = t.names

/-- What `x` did under `path` can be done again by `y` under `path'` once all the names are given that
    `x` asked for. The session that `y` leaves is told beforehand, so that names need not be known
    before the last action is. -/
def Replays (env : Env) (path path' : List Expr) (ids : List Nat) (α : Type)
    (m : Declared × Declared) (_ : Prop) (Q : α → α → Declared × Declared → Prop)
    (x y : RenderM α) : Prop :=
  ∀ s t : Session, s.Stands path m.1 → t.Stands path' m.2 → AgreeOn ids m →
    ∀ a s', x.runOn env s = (.ok a, s') → ∃ b n t', Q a b n ∧
      Replayed path path' ids n s s' t t' ∧ (s'.names.Extends t.names → y.runOn env t = (.ok b, t'))

section Rules
variable {path path' : List Expr} {ids : List Nat} {m n k : Declared × Declared}
  {s s' s'' t t' t'' : Session}

theorem Replayed.refl (hs : s.Stands path m.1) (ht : t.Stands path' m.2) (h : AgreeOn ids m) :
    Replayed path path' ids m s s t t :=
  ⟨hs, ht, h, rfl, rfl, .refl _, rfl⟩

theorem Replayed.trans (h : Replayed path path' ids n s s' t t')
    (h' : Replayed path path' ids k s' s'' t' t'') : Replayed path path' ids k s s'' t t'' :=
  ⟨h'.left, h'.right, h'.agree, h'.leftTail.trans h.leftTail, h'.rightTail.trans h.rightTail,
    h.grows.trans h'.grows, h'.unchanged.trans h.unchanged⟩

theorem Replayed.declare (hs : s.Stands path m.1) (ht : t.Stands path' m.2) (h : AgreeOn ids m)
    (v : Variable) : Replayed path path' ids (insertBoth v m) s (s.declare v).2 t (t.declare v).2 := by
  obtain ⟨hs', hstail, hsnames, -, -⟩ := hs.declare v
  obtain ⟨ht', httail, htnames, -, -⟩ := ht.declare v
  exact ⟨hs', ht', h.insertBoth v, hstail, httail, hsnames ▸ .refl _, htnames⟩

theorem Session.Stands.isDeclared_eq (hs : s.Stands path m.1) (ht : t.Stands path' m.2)
    (h : AgreeOn ids m) {v : Variable} (hv : v.id ∈ ids) : s.isDeclared v = t.isDeclared v := by
  rw [Bool.eq_iff_iff, hs.declared v, ht.declared v]
  exact h v.id hv

end Rules

open RenderM in
theorem replays_lockstep (env : Env) {path path' : List Expr} {e e' : Expr} (halike : e.Alike e')
    (hseen : e.SeenAlike path path' e') :
    Lockstep insertBoth path path' e e' (Replays env (e :: path) (e' :: path') e.locals) where
  alike := halike
  seen := hseen
  congr _ h := h
  answer {_ m _ _ b} h s t hs ht hm a' s' hrun := by
    cases hrun
    exact ⟨b, m, t, h, .refl hs ht hm, fun _ => rfl⟩
  sequel {_ _ _ _ _ _ _ _ x y f g} h hf _ s t hs ht hm c s'' hrun := by
    rw [runOn_bind] at hrun
    rcases hx : x.runOn env s with ⟨_ | a, s'⟩
    · rw [hx] at hrun
      cases hrun
    · rw [hx] at hrun
      obtain ⟨b, n, t', hab, hn, hy⟩ := h s t hs ht hm a s' hx
      obtain ⟨d, k, t'', hcd, hk, hg⟩ := hf a b n hab s' t' hn.left hn.right hn.agree c s'' hrun
      refine ⟨d, k, t'', hcd, hn.trans hk, fun hnames => ?_⟩
      rw [runOn_bind_ok (hy (hk.grows.trans hnames))]
      exact hg (hn.unchanged ▸ hnames)
  refusal cause s t _ _ _ a s' hrun := by cases hrun
  reading {m} s t hs ht hm a s' hrun := by
    cases hrun
    exact ⟨env, m, t, ⟨⟨rfl, rfl⟩, rfl⟩, .refl hs ht hm, fun _ => rfl⟩
  looking {m} s t hs ht hm a s' hrun := by
    cases hrun
    refine ⟨t, m, t, ⟨⟨hs.path, ht.path, fun v hv => hs.isDeclared_eq ht hm hv, ?_⟩, rfl⟩,
      .refl hs ht hm, fun _ => rfl⟩
    intro v hv hdeclared
    have h1 := (hs.declared v).mp hdeclared
    have h2 := (hm v.id hv).mp h1
    rw [insertBoth, Declared.insert_of_mem h1, Declared.insert_of_mem h2]
  declaring {m v} hv s t hs ht hm a s' hrun := by
    rw [runOn_modifyGet] at hrun
    cases hrun
    refine ⟨(t.declare v).1, insertBoth v m, (t.declare v).2, ⟨?_, rfl⟩, .declare hs ht hm v,
      fun _ => runOn_modifyGet _⟩
    obtain ⟨-, -, -, -, hs'⟩ := hs.declare v
    obtain ⟨-, -, -, -, ht'⟩ := ht.declare v
    rw [hs', ht', hs.isDeclared_eq ht hm hv]
  asking {m r} _ s t hs ht hm a s' hrun := by
    rw [runOn_ask] at hrun
    cases hrun
    refine ⟨_, m, { t with asked := r :: t.asked }, ⟨rfl, rfl⟩, ?_, fun hnames => ?_⟩
    · exact ⟨⟨hs.path, hs.declared, hs.opened⟩, ⟨ht.path, ht.declared, ht.opened⟩, hm, rfl, rfl,
        NameTable.extends_answer s.names r, rfl⟩
    · have hagain : t.names.answer r = ((s.names.answer r).1, t.names) :=
        NameTable.answer_again hnames
      rw [runOn_ask, Session.ask, hagain]
      rfl
  scoping {_ m _ _ x y} h s t hs ht hm a s' hrun := by
    rw [inScope, runOn_between] at hrun
    rcases hx : x.runOn env s.openScope with ⟨_ | c, s₁⟩
    · rw [hx] at hrun
      cases hrun
    · rw [hx] at hrun
      cases hrun
      obtain ⟨b, n, t₁, hab, hn, hy⟩ := h s.openScope t.openScope hs.openScope ht.openScope hm _ s₁ hx
      obtain ⟨hs₂, hsscopes, hsnames, -⟩ := hs.closeScope hn.left hn.leftTail
      obtain ⟨ht₂, htscopes, htnames, -⟩ := ht.closeScope hn.right hn.rightTail
      refine ⟨b, m, t₁.closeScope, hab, ⟨hs₂, ht₂, hm, by rw [hsscopes], by rw [htscopes], ?_, ?_⟩,
        fun hnames => ?_⟩
      · rw [hsnames]
        exact hn.grows
      · rw [htnames]
        exact hn.unchanged
      · rw [hsnames] at hnames
        rw [inScope, runOn_between, hy hnames]

/-! ### Replaying a node -/

/-- Whether every kind is shown by its own renderer, if at all. -/
def Env.Standard (env : Env) : Prop :=
  ∀ kind r, env.registry.find? kind = some r → r.renderer = kind.renderer

theorem Env.standard_of_renderers {env : Env} (rs : List Renderer) (hrs : .shouting ∉ rs)
    (h : env.registry = .ofList (rs.map .of)) : env.Standard := by
  intro kind r hr
  rw [h] at hr
  exact Registry.renderer_of_find? hrs hr

/-- A relation between nodes at their places, with what is declared there. Related nodes see the same
    above them and show related nodes. -/
structure Occurrences
    (R : List Expr → Expr → Declared → List Expr → Expr → Declared → Prop) : Prop where
  alike : ∀ {p e d p' e' d'}, R p e d p' e' d' → e.Alike e'
  seen : ∀ {p e d p' e' d'}, R p e d p' e' d' → e.SeenAlike p p' e'
  plain : ∀ {p e d p' e' d'}, R p e d p' e' d' → e.kind ≠ .extension
  agree : ∀ {p e d p' e' d'}, R p e d p' e' d' → AgreeOn e.locals (d, d')
  step : ∀ {p e d p' e' d'}, R p e d p' e' d' → ∀ (i : Nat) x x',
    (e.steps Declared.insert d)[i]? = some x → (e'.steps Declared.insert d')[i]? = some x' →
    R (e :: p) x.1 x.2 (e' :: p') x'.1 x'.2

theorem getElem?_steps_both {e : Expr} {m : Declared × Declared} {i : Nat}
    {x : Expr × (Declared × Declared)} (h : (e.steps insertBoth m)[i]? = some x) :
    (e.steps Declared.insert m.1)[i]? = some (x.1, x.2.1) ∧
      (e.steps Declared.insert m.2)[i]? = some (x.1, x.2.2) := by
  constructor
  · rw [← Expr.map_steps insertBoth Declared.insert Prod.fst fun _ _ => rfl, List.getElem?_map, h]
    rfl
  · rw [← Expr.map_steps insertBoth Declared.insert Prod.snd fun _ _ => rfl, List.getElem?_map, h]
    rfl

/-- A node that was shown is shown again by its text wherever it is related to itself. -/
theorem replays_visitPlain {env : Env} (henv : env.Standard)
    {R : List Expr → Expr → Declared → List Expr → Expr → Declared → Prop} (hR : Occurrences R) :
    ∀ (depth depth' : Nat) {p e d p' e' d'}, R p e d p' e' d' → e.height ≤ depth → e'.height ≤ depth' →
    ∀ ids, Replays env p p' ids String (d, d') True (Told insertBoth e (d, d')) (visitPlain depth e)
      (visitPlain depth' e')
  | 0, _, _, e, _, _, _, _, _, hdepth, _ => by
    have : e.height ≠ 0 := by cases e <;> simp [Expr.height]
    omega
  | _, 0, _, _, _, _, e', _, _, _, hdepth => by
    have : e'.height ≠ 0 := by cases e' <;> simp [Expr.height]
    omega
  | depth + 1, depth' + 1, p, e, d, p', e', d', h, hdepth, hdepth' => by
    intro ids s t hs ht hm a s' hrun
    cases hfind : env.registry.find? e.kind with
    | none =>
      rw [runOn_visitPlain_none hfind] at hrun
      cases hrun
    | some r =>
      have hfind' : env.registry.find? e'.kind = some r := by rw [← (hR.alike h).kind, hfind]
      have hr := henv _ _ hfind
      have L := replays_lockstep env (hR.alike h) (hR.seen h)
      have hv : List.Forall₂ (fun x y => Visits insertBoth e
          (Replays env (e :: p) (e' :: p') e.locals) (visitPlain depth) (visitPlain depth')
          (fun _ => True) x.2 x.1 y.1)
          (e.steps insertBoth (d, d')) (e'.steps insertBoth (d, d')) := by
        have hsteps := (hR.alike h).steps insertBoth (d, d')
        refine forall₂_of_getElem? hsteps.length_eq fun i x x' hx hx' => ?_
        obtain ⟨hxx, hmoment⟩ := forall₂_getElem? hsteps hx hx'
        have hmem := Expr.mem_shown_of_mem_steps insertBoth (List.mem_of_getElem? hx)
        have hmem' := Expr.mem_shown_of_mem_steps insertBoth (List.mem_of_getElem? hx')
        have hle : x.1.height ≤ depth :=
          Nat.le_of_lt_succ (Nat.lt_of_lt_of_le (Expr.height_lt_of_mem_shown hmem) hdepth)
        have hle' : x'.1.height ≤ depth' :=
          Nat.le_of_lt_succ (Nat.lt_of_lt_of_le (Expr.height_lt_of_mem_shown hmem') hdepth')
        have hstep := hR.step h i _ _ (getElem?_steps_both hx).1 (getElem?_steps_both hx').2
        rw [← hmoment] at hstep
        exact ⟨hmem, hxx, replays_visitPlain henv hR depth depth' hstep hle hle' _⟩
      rw [runOn_visitPlain_some hfind, hr] at hrun
      rcases hx : (e.kind.renderer.render (visitPlain depth) e).runOn env (s.push e) with ⟨_ | a', s₁⟩
      · rw [hx] at hrun
        cases hrun
      · rw [hx] at hrun
        cases hrun
        obtain ⟨b, n, t₁, htold, hn, hrun'⟩ := L.render (hR.plain h) hv (s.push e) (t.push e')
          (hs.push e) (ht.push e') (hR.agree h) a s₁ hx
        obtain rfl : n = (d, d') := htold.1.2
        refine ⟨b, (d, d'), t₁.pop, htold, ⟨hn.left.pop, hn.right.pop, hm, hn.leftTail, hn.rightTail,
          hn.grows, hn.unchanged⟩, fun hnames => ?_⟩
        rw [runOn_visitPlain_some hfind', hr, hrun' hnames]

end ExprText
