import ExprText.Proofs.Parallel.Renderers

/-! # Whole renderings in parallel

The two renderings of a graph compare at every node that they reach: a text that is remembered is used by
both, and any other is made by both. -/

namespace ExprText.Parallel

open RenderM Comparison

variable {C : Comparison} {root : Expr} {path : List Expr}

/-! ### Sessions -/

theorem push {s t : Session} {e : Expr} (h : C.Sessions root path s t) :
    C.Sessions root (e :: path) (s.push e) (t.push e) :=
  ⟨congrArg _ h.left_path, congrArg _ h.right_path, h.names, h.legible, h.scopes, h.memo, h.origin⟩

theorem pop {s t : Session} {e : Expr} (h : C.Sessions root (e :: path) s t) :
    C.Sessions root path s.pop t.pop :=
  ⟨congrArg List.tail h.left_path, congrArg List.tail h.right_path, h.names, h.legible, h.scopes, h.memo, h.origin⟩

theorem remember {s t : Session} {p : List Expr} {e : Expr} (h : C.Sessions root path s t)
    (he : root.Reaches p e) {a b : String} (hab : C.Texts p.head? e a b) :
    C.Sessions root path (s.remember (e.place p) a) (t.remember (e.place p) b) where
  left_path := h.left_path
  right_path := h.right_path
  names := h.names
  legible := h.legible
  scopes := h.scopes
  memo key := by
    rw [Session.remember, Session.remember, lookup_cons_eq, lookup_cons_eq]
    split
    · exact .some hab.1
    · exact h.memo key
  origin key text hkey := by
    rw [Session.remember, lookup_cons_eq] at hkey
    split at hkey
    · cases hkey
      exact ⟨p, e, b, he, (‹key = e.place p›).symm, hab⟩
    · exact h.origin key text hkey

/-! ### Runs -/

/-- The renderings of a graph compare, wherever in it they are. -/
theorem visit (hs : C.Suits root) : ∀ (depth : Nat) {path : List Expr} {e : Expr}, root.Reaches path e →
    Parallel C root path C.Beside (ExprText.visit depth e) (ExprText.visit depth e)
  | 0, _, _, _ => refuse _
  | depth + 1, path, e, he => by
    intro s t hst
    have hkey : s.keyOf e = e.place path ∧ t.keyOf e = e.place path :=
      ⟨Session.keyOf_eq hst.left_path e, Session.keyOf_eq hst.right_path e⟩
    have hmemo := hst.memo (e.place path)
    rcases hleft : s.memo.lookup (e.place path) with _ | a <;>
      rcases hright : t.memo.lookup (e.place path) with _ | b <;> rw [hleft, hright] at hmemo
    · have hfind : C.left.registry.find? e.kind = some (.of e.kind.renderer) ∧
          C.right.registry.find? e.kind = some (.of e.kind.renderer) := by
        rw [C.left_standard, C.right_standard, Registry.standard_find?]
        exact ⟨rfl, rfl⟩
      have hv : ∀ c ∈ e.shown, Parallel C root (e :: path) C.Beside (ExprText.visit depth c)
          (ExprText.visit depth c) := fun c hc => visit hs depth (.step he hc)
      obtain ⟨hsessions, hends⟩ := render hs he.mem_nodes hv _ _ (push hst)
      rw [runOn_visit_new (by rw [hkey.1, hleft]) hfind.1, runOn_visit_new (by rw [hkey.2, hright]) hfind.2,
        hkey.1, hkey.2]
      simp only [Registration.of]
      rcases hrunl : (e.kind.renderer.render (ExprText.visit depth) e).runOn C.left (s.push e) with
        ⟨fault | a, s'⟩ <;>
        rcases hrunr : (e.kind.renderer.render (ExprText.visit depth) e).runOn C.right (t.push e) with
          ⟨fault' | b, t'⟩ <;>
        rw [hrunl, hrunr] at hsessions hends
      · exact ⟨pop hsessions, hends⟩
      · exact hends.elim
      · exact hends.elim
      · exact ⟨remember (pop hsessions) he hends, hends.1⟩
    · cases hmemo
    · cases hmemo
    · cases hmemo with
      | some hab =>
        rw [runOn_visit_known (by rw [hkey.1, hleft]), runOn_visit_known (by rw [hkey.2, hright])]
        exact ⟨hst, hab⟩

/-- What the two renderings of a whole graph come to. -/
theorem textOf (hs : C.Suits root) :
    C.Sessions root [] ((RenderM.textOf root).runOn C.left (.start root)).2
      ((RenderM.textOf root).runOn C.right (.start root)).2 ∧
      Ends C.Beside (root.render C.left) (root.render C.right) := by
  have hstart : C.Sessions root [] (.start root) (.start root) :=
    { left_path := rfl
      right_path := rfl
      names := rfl
      legible := fun _ _ h => by cases h
      scopes := rfl
      memo := fun _ => .none
      origin := fun _ _ h => by cases h }
  exact visit hs root.height .root _ _ hstart

end ExprText.Parallel
