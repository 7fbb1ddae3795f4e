import ExprText.Proofs.Lockstep.Renderers
import ExprText.Proofs.Run

/-! # A rendering alone

A node shown beside itself: what a whole rendering keeps, and when it succeeds. An invariant has to
hold through the changes that renderers make to a session; it then holds after every rendering,
failed or not. -/

namespace ExprText

/-- Whether an action ends as its condition says: it succeeds, or it refuses a node. -/
def Judged {α : Type} (P : Prop) : Except Fault α → Prop
  | .ok _ => P
  | .error fault => ¬P ∧ ∃ kind cause, fault = .malformed kind cause

theorem Judged.ok_iff {α : Type} {P : Prop} {x : Except Fault α} (h : Judged P x) :
    (∃ a, x = .ok a) ↔ P := by
  cases x with
  | ok a => exact ⟨fun _ => h, fun _ => ⟨a, rfl⟩⟩
  | error fault =>
    refine ⟨?_, fun hP => absurd hP h.1⟩
    rintro ⟨a, ha⟩
    cases ha

theorem Judged.malformed {α : Type} {P : Prop} {x : Except Fault α} (h : Judged P x) {fault : Fault}
    (hx : x = .error fault) : ∃ kind cause, fault = .malformed kind cause := by
  subst hx
  exact h.2

/-- An action under the given nodes keeps them and an invariant. Its end is judged if `J` says so. -/
def Alone (env : Env) (J : Prop) (I : Session → Prop) (path : List Expr) (α : Type) (_ : Unit)
    (P : Prop) (Q : α → α → Unit → Prop) (x _ : RenderM α) : Prop :=
  ∀ s : Session, s.path = path → I s →
    (x.runOn env s).2.path = path ∧ I (x.runOn env s).2 ∧ (J → Judged P (x.runOn env s).1) ∧
      ∀ a, (x.runOn env s).1 = .ok a → ∃ b, Q a b ()

/-- What is kept by everything that happens to a session in a rendering of `root`. Of a node at a place
    `P` says whether it can be shown. -/
structure Invariant (root : Expr) (J : Prop) (P : List Expr → Expr → Prop) (I : Session → Prop) :
    Prop where
  path : ∀ s path, I s → I { s with path }
  scopes : ∀ s scopes, I s → I { s with scopes }
  ask : ∀ s r, root.Mentions r → I s → I (s.ask r).2
  remember : ∀ s path e text, root.Reaches path e → (J → P path e) → I s →
    I (s.remember (e.place path) text)
  /-- What is remembered can be shown. -/
  known : ∀ s path e text, root.Reaches path e → I s → s.memo.lookup (e.place path) = some text →
    J → P path e
  shows : ∀ path e, J → (P path e ↔ e.Fits path ∧ ∀ c ∈ e.shown, P (e :: path) c)

namespace Invariant

open RenderM

variable {root : Expr} {J : Prop} {P : List Expr → Expr → Prop} {I : Session → Prop}

theorem lockstep (inv : Invariant root J P I) (env : Env) (path : List Expr) {e : Expr}
    (he : e ∈ root.nodes) :
    Lockstep (fun _ m => m) path path e e (Alone env J I (e :: path)) where
  alike := .refl e
  seen := ⟨rfl, fun _ _ => rfl, fun _ _ => Iff.rfl, fun _ => rfl, fun _ _ _ => rfl, fun _ _ _ => rfl⟩
  congr hP h s hs hI := by
    obtain ⟨hpath, hI', hJ, hQ⟩ := h s hs hI
    refine ⟨hpath, hI', fun j => ?_, hQ⟩
    rw [← propext hP]
    exact hJ j
  answer h s hs hI := ⟨hs, hI, fun _ => trivial, fun a ha => by cases ha; exact ⟨_, h⟩⟩
  sequel {_ _ _ Pfirst R T Q Q' x y f g} h hf hT s hs hI := by
    obtain ⟨hpath, hI', hJ, hQ⟩ := h s hs hI
    rw [runOn_bind]
    rcases hx : x.runOn env s with ⟨_ | a, t⟩
    · rw [hx] at hpath hI' hJ
      exact ⟨hpath, hI', fun j => ⟨fun hP => (hJ j).1 hP.1, (hJ j).2⟩, fun a ha => by cases ha⟩
    · rw [hx] at hpath hI' hJ hQ
      obtain ⟨b, hab⟩ := hQ a rfl
      obtain ⟨hpath', hI'', hJ', hQ'⟩ := hf a b () hab t hpath hI'
      refine ⟨hpath', hI'', fun j => ?_, hQ'⟩
      have hP : Pfirst := hJ j
      have hend : T a ↔ Pfirst ∧ R := (hT hP a).trans ⟨fun h => ⟨hP, h⟩, And.right⟩
      rw [← propext hend]
      exact hJ' j
  refusal cause s hs hI :=
    ⟨hs, hI, fun _ => ⟨id, _, _, rfl⟩, fun a ha => by cases ha⟩
  reading s hs hI :=
    ⟨hs, hI, fun _ => trivial, fun a ha => ⟨a, ⟨rfl, rfl⟩, rfl⟩⟩
  looking s hs hI := by
    refine ⟨hs, hI, fun _ => trivial, fun a ha => ⟨a, ?_, rfl⟩⟩
    cases ha
    exact ⟨hs, hs, fun _ _ => rfl, fun _ _ _ => rfl⟩
  declaring {_ v} _ s hs hI := by
    obtain ⟨scopes, heq⟩ := s.declare_eq v
    rw [runOn_modifyGet, heq]
    exact ⟨hs, inv.scopes s scopes hI, fun _ => trivial, fun a ha => ⟨a, rfl, rfl⟩⟩
  asking {_ r} hr s hs hI := by
    rw [runOn_ask]
    exact ⟨hs, inv.ask s r ⟨e, he, hr⟩ hI, fun _ => trivial, fun a ha => ⟨a, rfl, rfl⟩⟩
  scoping {_ _ _ _ x _} h s hs hI := by
    obtain ⟨hpath, hI', hJ, hQ⟩ := h s.openScope hs (inv.scopes s _ hI)
    obtain ⟨scopes, heq⟩ := (x.runOn env s.openScope).2.closeScope_eq
    rw [inScope, runOn_between, heq]
    exact ⟨hpath, inv.scopes _ scopes hI', hJ, hQ⟩

/-- A rendering keeps the invariant and succeeds on trees that can be shown. -/
theorem visit_native (inv : Invariant root J P I) (env : Env) (henv : env.registry = .standard)
    (hnative : ∀ e ∈ root.nodes, e.IsNative) :
    ∀ (depth : Nat) {path : List Expr} {e : Expr}, root.Reaches path e → e.height ≤ depth →
    Alone env J I path String () (P path e) (Told (fun _ m => m) e ()) (visit depth e)
      (visit depth e)
  | 0, path, e, _, hdepth => by
    have : e.height ≠ 0 := by cases e <;> simp [Expr.height]
    omega
  | depth + 1, path, e, he, hdepth => by
    intro s hs hI
    cases hmemo : s.memo.lookup (s.keyOf e) with
    | some text =>
      rw [runOn_visit_known hmemo]
      rw [Session.keyOf_eq hs] at hmemo
      refine ⟨hs, hI, inv.known s path e text he hI hmemo, fun a _ => ⟨a, ⟨rfl, rfl⟩, ?_⟩⟩
      exact fun _ _ _ _ _ => rfl
    | none =>
      have L := inv.lockstep env path he.mem_nodes
      have hv : List.Forall₂ (fun x y => Visits (fun _ m => m) e (Alone env J I (e :: path))
          (ExprText.visit depth) (ExprText.visit depth) (P (e :: path)) x.2 x.1 y.1)
          (e.steps (fun _ m => m) ()) (e.steps (fun _ m => m) ()) := by
        refine List.forall₂_same.mpr fun x hx => ?_
        have hmem := Expr.mem_shown_of_mem_steps _ hx
        have hlt := Expr.height_lt_of_mem_shown hmem
        exact ⟨hmem, .refl _, inv.visit_native env henv hnative depth (.step he hmem) (by omega)⟩
      have hfind : env.registry.find? e.kind = some (.of e.kind.renderer) := by
        rw [henv, Registry.standard_find?]
      obtain ⟨hpath, hI', hJ, hQ⟩ := L.render_native (hnative e he.mem_nodes) hv (s.push e)
        (by rw [Session.push, hs]) (inv.path s (e :: s.path) hI)
      rw [runOn_visit_new hmemo hfind]
      simp only [Registration.of]
      rcases hx : (e.kind.renderer.render (ExprText.visit depth) e).runOn env (s.push e) with
        ⟨fault | text, t⟩
      · rw [hx] at hpath hI' hJ
        have hpop : t.pop.path = path := by rw [Session.pop, hpath, List.tail_cons]
        refine ⟨hpop, inv.path t t.path.tail hI', fun j => ?_, fun a ha => by cases ha⟩
        rw [propext (inv.shows path e j)]
        exact hJ j
      · rw [hx] at hpath hI' hJ hQ
        have hpop : t.pop.path = path := by rw [Session.pop, hpath, List.tail_cons]
        have hP : J → P path e := fun j => (inv.shows path e j).mpr (hJ j)
        rw [Session.keyOf_eq hs]
        refine ⟨hpop, ?_, hP, fun a ha => by cases ha; exact hQ text rfl⟩
        exact inv.remember t.pop path e text he hP (inv.path t t.path.tail hI')

theorem visit (inv : Invariant root J P I) (env : Env) (henv : env.registry = .standard)
    (hext : ∀ e ∈ root.nodes, e.kind ≠ .extension) (depth : Nat) {path : List Expr} {e : Expr}
    (he : root.Reaches path e) (hdepth : e.height ≤ depth) :
    Alone env J I path String () (P path e) (Told (fun _ m => m) e ()) (ExprText.visit depth e)
      (ExprText.visit depth e) :=
  inv.visit_native env henv (fun c hc => .of_kind (hext c hc)) depth he hdepth

end Invariant

end ExprText
