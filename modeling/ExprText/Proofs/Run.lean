import ExprText.Render

/-! # Running actions

What an action answers and which session it leaves, one equation for each way to build an action.
Later proofs run renderers by these equations and never look at how actions are made. -/

namespace ExprText

theorem lookup_cons_eq {α β : Type} [BEq α] [LawfulBEq α] [DecidableEq α] (k a : α) (b : β)
    (l : List (α × β)) : ((a, b) :: l).lookup k = if k = a then some b else l.lookup k := by
  rw [List.lookup_cons]
  by_cases h : k = a
  · simp [h]
  · simp [h, beq_eq_false_iff_ne.mpr h]

end ExprText

namespace ExprText.RenderM

variable {α β : Type} {env : Env} {s : Session}

/-- The second action runs on what the first one left, unless the first one failed. -/
theorem runOn_bind (x : RenderM α) (f : α → RenderM β) :
    (x >>= f).runOn env s =
      match x.runOn env s with
      | (.ok a, t) => (f a).runOn env t
      | (.error fault, t) => (.error fault, t) := by
  simp only [runOn, ReaderT.run_bind, ExceptT.run_bind, StateT.run_bind]
  rcases ((x.run env).run).run s with ⟨_ | a, t⟩ <;> rfl

theorem runOn_bind_ok {x : RenderM α} {f : α → RenderM β} {a : α} {t : Session}
    (h : x.runOn env s = (.ok a, t)) : (x >>= f).runOn env s = (f a).runOn env t := by
  rw [runOn_bind, h]

theorem runOn_bind_error {x : RenderM α} {f : α → RenderM β} {fault : Fault} {t : Session}
    (h : x.runOn env s = (.error fault, t)) : (x >>= f).runOn env s = (.error fault, t) := by
  rw [runOn_bind, h]

/-- An action that succeeds runs all its parts. -/
theorem exists_of_runOn_bind {x : RenderM α} {f : α → RenderM β} {b : β} {u : Session}
    (h : (x >>= f).runOn env s = (.ok b, u)) :
    ∃ a t, x.runOn env s = (.ok a, t) ∧ (f a).runOn env t = (.ok b, u) := by
  rw [runOn_bind] at h
  rcases hx : x.runOn env s with ⟨fault | a, t⟩
  · rw [hx] at h
    cases h
  · rw [hx] at h
    exact ⟨a, t, rfl, h⟩

@[simp] theorem runOn_pure (a : α) : (pure a : RenderM α).runOn env s = (.ok a, s) := rfl

@[simp] theorem runOn_get : (get : RenderM Session).runOn env s = (.ok s, s) := rfl

@[simp] theorem runOn_read : (read : RenderM Env).runOn env s = (.ok env, s) := rfl

@[simp] theorem runOn_modifyGet (f : Session → α × Session) :
    (modifyGet f : RenderM α).runOn env s = (.ok (f s).1, (f s).2) := rfl

@[simp] theorem runOn_refuse (cause : Cause) :
    (refuse cause : RenderM α).runOn env s = (.error (.malformed s.currentKind cause), s) := rfl

@[simp] theorem runOn_between (enter leave : Session → Session) (x : RenderM α) :
    (between enter leave x).runOn env s =
      ((x.runOn env (enter s)).1, leave (x.runOn env (enter s)).2) := rfl

theorem exists_of_runOn_between {enter leave : Session → Session} {x : RenderM α} {a : α} {u : Session}
    (h : (between enter leave x).runOn env s = (.ok a, u)) :
    ∃ t, x.runOn env (enter s) = (.ok a, t) ∧ u = leave t := by
  rw [runOn_between] at h
  obtain ⟨hfirst, rfl⟩ := Prod.mk.inj h
  exact ⟨(x.runOn env (enter s)).2, Prod.ext hfirst rfl, rfl⟩

@[simp] theorem runOn_ask (request : NameRequest) :
    (ask request).runOn env s = (.ok (s.ask request).1, (s.ask request).2) := rfl

end ExprText.RenderM

namespace ExprText

/-! ### Scopes -/

namespace Session

theorem declare_eq (v : Variable) (s : Session) :
    ∃ scopes, (s.declare v).2 = { s with scopes } := by
  unfold declare
  split
  · exact ⟨s.scopes, rfl⟩
  · split
    · exact ⟨_, rfl⟩
    · exact ⟨s.scopes, rfl⟩

theorem closeScope_eq (s : Session) : ∃ scopes, s.closeScope = { s with scopes } := by
  unfold closeScope
  split
  · exact ⟨_, rfl⟩
  · exact ⟨s.scopes, rfl⟩

end Session

/-! ### Showing a node -/

section Visit
variable {env : Env} {s : Session} {e : Expr} {depth : Nat}

theorem runOn_visit_known {text : String} (h : s.memo.lookup (s.keyOf e) = some text) :
    (visit (depth + 1) e).runOn env s = (.ok text, s) := by
  rw [visit, RenderM.runOn_bind_ok RenderM.runOn_get, h]
  rfl

theorem runOn_visit_unsupported (h : s.memo.lookup (s.keyOf e) = none)
    (hr : env.registry.find? e.kind = none) :
    (visit (depth + 1) e).runOn env s = (.error (.unsupported e.kind), s) := by
  rw [visit, RenderM.runOn_bind_ok RenderM.runOn_get, h]
  dsimp only
  rw [RenderM.runOn_bind_ok RenderM.runOn_read, hr]
  rfl

/-- A node that is shown for the first time at its place is shown by the renderer of its kind, and its
    text is remembered. -/
theorem runOn_visit_new {r : Registration} (h : s.memo.lookup (s.keyOf e) = none)
    (hr : env.registry.find? e.kind = some r) :
    (visit (depth + 1) e).runOn env s =
      match (r.renderer.render (visit depth) e).runOn env (s.push e) with
      | (.ok text, t) => (.ok text, t.pop.remember (s.keyOf e) text)
      | (.error fault, t) => (.error fault, t.pop) := by
  rw [visit, RenderM.runOn_bind_ok RenderM.runOn_get, h]
  dsimp only
  rw [RenderM.runOn_bind_ok RenderM.runOn_read, hr]
  dsimp only
  rw [RenderM.runOn_bind, RenderM.within, RenderM.runOn_between]
  rcases (r.renderer.render (visit depth) e).runOn env (s.push e) with ⟨_ | text, t⟩ <;> rfl

end Visit

end ExprText
