import ExprText.Proofs.Names.Table
import ExprText.Proofs.Registry

/-! # Nodes with fixed texts

The texts of some nodes do not depend on the place where they stand: such a node has one fixed text,
made of the fixed texts of its children. The memo then holds the texts that showing the nodes again
would give, so a coherent graph of such nodes is shown as if nothing were shared. -/

namespace ExprText

open RenderM

/-- The remembered texts of nodes with fixed texts are these, and explicitly named variables go by
    their names. -/
structure Remembered (fixed : Expr → Option String) (root : Expr) (s : Session) : Prop where
  memo : ∀ key text, s.memo.lookup key = some text → ∀ e ∈ root.nodes, e.id = key.1 →
    ∀ given, fixed e = some given → text = given
  names : ∀ v n given, root.Mentions (.variable v) → v.explicitName? = some n →
    s.names.assigned.lookup (.variable v.id) = some given → given = n

/-- An action gives an answer and leaves only fixed texts remembered. -/
def Yields {α : Type} (fixed : Expr → Option String) (root : Expr) (env : Env) (action : RenderM α)
    (answer : α) : Prop :=
  ∀ s, Remembered fixed root s → ∃ t, action.runOn env s = (.ok answer, t) ∧ Remembered fixed root t

variable {fixed : Expr → Option String} {root : Expr} {env : Env} {s : Session}

section Actions
variable {α β : Type}

theorem Yields.bind {x : RenderM α} {f : α → RenderM β} {a : α} {b : β}
    (hx : Yields fixed root env x a) (hf : Yields fixed root env (f a) b) :
    Yields fixed root env (x >>= f) b := by
  intro s hs
  obtain ⟨t, hrun, ht⟩ := hx s hs
  obtain ⟨u, hrun', hu⟩ := hf t ht
  exact ⟨u, by rw [runOn_bind_ok hrun, hrun'], hu⟩

theorem yields_pure (a : α) : Yields fixed root env (pure a) a :=
  fun s hs => ⟨s, runOn_pure a, hs⟩

theorem yields_read : Yields fixed root env read env :=
  fun s hs => ⟨s, runOn_read, hs⟩

theorem yields_indent : Yields fixed root env indent env.indent :=
  fun s hs => ⟨s, rfl, hs⟩

theorem yields_stripped {e : Expr} {text text' : String} (h : ∀ s : Session, s.stripped e text = text') :
    Yields fixed root env (stripped e text) text' :=
  fun s hs => ⟨s, by rw [stripped, runOn_bind_ok runOn_get, h]; rfl, hs⟩

/-- A node without an overflow check in its chain carries no wrapper. -/
theorem yields_wrapChecked {e : Expr} (h : Render.chainHasChecked e = false) (text : String) :
    Yields fixed root env (Render.wrapChecked e text) text := by
  intro s hs
  have hcarries : Render.carriesChecked s.parent? e = false := by simp [Render.carriesChecked, h]
  refine ⟨s, ?_, hs⟩
  rw [Render.wrapChecked, runOn_bind_ok runOn_get, hcarries]
  rfl

end Actions

theorem remembered_start (root : Expr) : Remembered fixed root (.start root) where
  memo key text h := by simp [Session.start] at h
  names v n given _ _ h := by simp [Session.start, NameTable.reserve] at h

theorem Remembered.push (h : Remembered fixed root s) (e : Expr) : Remembered fixed root (s.push e) :=
  ⟨h.memo, h.names⟩

theorem Remembered.pop (h : Remembered fixed root s) : Remembered fixed root s.pop :=
  ⟨h.memo, h.names⟩

theorem Remembered.remember (h : Remembered fixed root s) (hroot : root.Coherent) {e : Expr}
    {text : String} {parent : Option Nat} (he : e ∈ root.nodes) (htext : fixed e = some text) :
    Remembered fixed root (s.remember (e.id, parent) text) where
  memo key known hlookup e' he' hid given hgiven := by
    rw [Session.remember, lookup_cons_eq] at hlookup
    split at hlookup
    · subst key
      obtain rfl := hroot.node e' he' e he hid
      rw [htext] at hgiven
      cases hgiven
      cases hlookup
      rfl
    · exact h.memo key known hlookup e' he' hid given hgiven
  names := h.names

theorem yields_nameOf (hroot : root.Coherent) {v : Variable} {n : String}
    (hv : root.Mentions (.variable v)) (hn : v.explicitName? = some n) :
    Yields fixed root env (nameOf v) n := by
  intro s h
  rw [nameOf, runOn_ask, Session.ask]
  cases hlookup : s.names.assigned.lookup (.variable v.id) with
  | some given =>
    obtain rfl := h.names v n given hv hn hlookup
    rw [NameTable.answer_variable_known hn hlookup]
    exact ⟨_, rfl, h.memo, h.names⟩
  | none =>
    rw [NameTable.answer_variable_new hn hlookup]
    refine ⟨_, rfl, h.memo, fun w m given hw hm hgiven => ?_⟩
    rw [lookup_cons_eq] at hgiven
    split at hgiven
    · have hkey : (NameRequest.variable w).key = (NameRequest.variable v).key := by assumption
      obtain rfl : w = v := NameRequest.variable.inj (hroot.name _ _ hw hv hkey)
      rw [hn] at hm
      cases hm
      cases hgiven
      rfl
    · exact h.names w m given hw hm hgiven

/-- A node is shown with its fixed text whatever was shown before, if its renderer makes the text
    from the fixed texts of the children. The induction is on how deep the rendering may go. -/
theorem yields_visit (hroot : root.Coherent) (henv : env.registry = .standard)
    (hrender : ∀ (visit : Visit) e text, e ∈ root.nodes → fixed e = some text →
      (∀ c ∈ e.children, ∀ given, fixed c = some given → Yields fixed root env (visit c) given) →
      Yields fixed root env (e.kind.renderer.render visit e) text) :
    ∀ depth e text, e ∈ root.nodes → e.height ≤ depth → fixed e = some text →
      Yields fixed root env (visit depth e) text := by
  intro depth
  induction depth with
  | zero =>
    intro e text he hdepth htext s hs
    cases e <;> simp [Expr.height] at hdepth
  | succ depth ih =>
    intro e text he hdepth htext s hs
    cases hmemo : s.memo.lookup (s.keyOf e) with
    | some known =>
      obtain rfl := hs.memo _ known hmemo e he rfl text htext
      exact ⟨s, runOn_visit_known hmemo, hs⟩
    | none =>
      have hfind : env.registry.find? e.kind = some (.of e.kind.renderer) := by
        rw [henv, Registry.standard_find?]
      have hchildren : ∀ c ∈ e.children, ∀ given, fixed c = some given →
          Yields fixed root env (visit depth c) given := by
        intro c hc given hgiven
        have := Expr.height_lt_of_mem_children hc
        exact ih c given (Expr.children_mem_nodes he hc) (by omega) hgiven
      obtain ⟨t, hrun, ht⟩ := hrender (visit depth) e text he htext hchildren _ (hs.push e)
      refine ⟨t.pop.remember (s.keyOf e) text, ?_, ht.pop.remember hroot he htext⟩
      rw [runOn_visit_new hmemo hfind]
      simp only [Registration.of, hrun]

/-- A graph is rendered with the fixed text of its root. -/
theorem render_eq_of_yields {text : String} {settings : Settings} {qualified : Bool}
    (hroot : root.Coherent) (htext : fixed root = some text)
    (hrender : ∀ (visit : Visit) e text, e ∈ root.nodes → fixed e = some text →
      (∀ c ∈ e.children, ∀ given, fixed c = some given →
        Yields fixed root { settings, qualified } (visit c) given) →
      Yields fixed root { settings, qualified } (e.kind.renderer.render visit e) text) :
    root.render { settings, qualified } = .ok text := by
  obtain ⟨t, hrun, -⟩ := yields_visit hroot (by simp) hrender root.height root text root.self_mem_nodes
    (Nat.le_refl _) htext (.start root) (remembered_start root)
  rw [Expr.render, textOf, hrun]

end ExprText
