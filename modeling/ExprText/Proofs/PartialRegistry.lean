import ExprText.Proofs.Sharing.Replay

/-! # Registries without some kinds

A registry may lack renderers. To render a graph with it goes as with the standard registry, step by
step and on the same session, until a node comes up whose kind it lacks. Then the rendering fails and
says so: no node is dropped, and none is shown otherwise. -/

namespace ExprText

open ExprText.Expr RenderM

/-- The same environment with another registry. -/
def Env.withRegistry (env : Env) (registry : Registry) : Env :=
  { env with registry }

theorem Env.withRegistry_registry (env : Env) (registry : Registry) :
    (env.withRegistry registry).registry = registry := rfl

/-- Whether a node and all that it shows below it have renderers. -/
def Expr.Supported (env : Env) (e : Expr) : Prop :=
  ∀ path c, e.Reaches path c → env.registry.supports c.kind = true

theorem Expr.Supported.node {env : Env} {e : Expr} (hkind : env.registry.supports e.kind = true)
    (hshown : ∀ c ∈ e.shown, c.Supported env) : e.Supported env := by
  intro path c hc
  rcases hc.cases_root with ⟨-, rfl⟩ | ⟨d, hd, rest, hrest, -⟩
  · exact hkind
  · exact hshown d hd rest c hrest

/-- Whether a fault says that a node of the graph has no renderer. -/
def Fault.Lacks (env : Env) (root : Expr) (fault : Fault) : Prop :=
  ∃ path e, root.Reaches path e ∧ env.registry.supports e.kind = false ∧ fault = .unsupported e.kind

/-- Whether all texts in a session are of nodes that are supported. -/
def Session.RemembersSupported (env : Env) (root : Expr) (s : Session) : Prop :=
  ∀ path e text, root.Reaches path e → s.memo.lookup (e.place path) = some text → e.Supported env

theorem Session.RemembersSupported.remember {env : Env} {root e : Expr} {path : List Expr} {s : Session}
    (hroot : root.NodesCoherent) (h : s.RemembersSupported env root) (he : root.Reaches path e)
    (hsupported : e.Supported env) (text : String) :
    (s.remember (e.place path) text).RemembersSupported env root := by
  intro q f text' hf hlookup
  rw [Session.remember, lookup_cons_eq] at hlookup
  split at hlookup
  · obtain ⟨rfl, -⟩ := eq_of_place_eq hroot hf he ‹_›
    exact hsupported
  · exact h q f text' hf hlookup

/-- How an action ends beside one in an environment with the registry `full`, from one session: it lacks a
    renderer, or both fail alike, or both succeed, as they do only if `P` holds. The sessions they leave
    are the same. -/
inductive FollowsFrom (env : Env) (full : Registry) (root : Expr) (path : List Expr) {α : Type} (P : Prop)
    (Q : α → α → Unit → Prop) (x y : RenderM α) (s : Session) : Prop
  | lacking {fault : Fault} {t : Session} (hx : x.runOn env s = (.error fault, t))
    (hlacks : fault.Lacks env root)
  | failing {fault : Fault} {t : Session} (hx : x.runOn env s = (.error fault, t))
    (hy : y.runOn (env.withRegistry full) s = (.error fault, t))
  | succeeding {a b : α} {t : Session} (hx : x.runOn env s = (.ok a, t))
    (hy : y.runOn (env.withRegistry full) s = (.ok b, t)) (hP : P) (hab : Q a b ()) (hpath : t.path = path)
    (ht : t.RemembersSupported env root)

def Follows (env : Env) (full : Registry) (root : Expr) (path : List Expr) (α : Type) (_ : Unit) (P : Prop)
    (Q : α → α → Unit → Prop) (x y : RenderM α) : Prop :=
  ∀ s : Session, s.path = path → s.RemembersSupported env root → FollowsFrom env full root path P Q x y s

theorem RenderM.runOn_inScope {α : Type} {env : Env} {x : RenderM α} {s t : Session}
    {result : Except Fault α} (h : x.runOn env s.openScope = (result, t)) :
    (inScope x).runOn env s = (result, t.closeScope) := by
  rw [inScope, runOn_between, h]

theorem follows_lockstep (env : Env) (full : Registry) (root : Expr) (path : List Expr) (e : Expr) :
    Lockstep (fun _ m => m) path path e e (Follows env full root (e :: path)) where
  alike := .refl e
  seen := ⟨rfl, fun _ _ => rfl, fun _ _ => Iff.rfl, fun _ => rfl, fun _ _ _ => rfl, fun _ _ _ => rfl⟩
  congr hP h s hs hI := by
    rw [← propext hP]
    exact h s hs hI
  answer h s hs hI := .succeeding (runOn_pure _) (runOn_pure _) trivial h hs hI
  sequel {_ _ _ _ _ _ _ _ _ _ _ _} h hf hT s hs hI := by
    rcases h s hs hI with ⟨hx, hlacks⟩ | ⟨hx, hy⟩ | ⟨hx, hy, hP, hab, hpath, ht⟩
    · exact .lacking (runOn_bind_error hx) hlacks
    · exact .failing (runOn_bind_error hx) (runOn_bind_error hy)
    · rcases hf _ _ () hab _ hpath ht with ⟨hx', hlacks⟩ | ⟨hx', hy'⟩ | ⟨hx', hy', hR, hcd, hpath', ht'⟩
      · exact .lacking ((runOn_bind_ok hx).trans hx') hlacks
      · exact .failing ((runOn_bind_ok hx).trans hx') ((runOn_bind_ok hy).trans hy')
      · exact .succeeding ((runOn_bind_ok hx).trans hx') ((runOn_bind_ok hy).trans hy')
          ⟨hP, (hT hP _).mp hR⟩ hcd hpath' ht'
  refusal cause _ _ _ := .failing (runOn_refuse cause) (runOn_refuse cause)
  reading s hs hI :=
    .succeeding runOn_read runOn_read trivial ⟨⟨rfl, rfl⟩, rfl⟩ hs hI
  looking s hs hI :=
    .succeeding runOn_get runOn_get trivial ⟨⟨hs, hs, fun _ _ => rfl, fun _ _ _ => rfl⟩, rfl⟩ hs hI
  declaring {_ v} _ s hs hI := by
    obtain ⟨scopes, heq⟩ := s.declare_eq v
    refine .succeeding (runOn_modifyGet _) (runOn_modifyGet _) trivial ⟨rfl, rfl⟩ ?_ ?_
    all_goals rw [heq]
    · exact hs
    · exact hI
  asking _ s hs hI := .succeeding (runOn_ask _) (runOn_ask _) trivial ⟨rfl, rfl⟩ hs hI
  scoping {_ _ _ _ x y} h s hs hI := by
    rcases h s.openScope hs hI with ⟨hx, hlacks⟩ | ⟨hx, hy⟩ | ⟨hx, hy, hP, hab, hpath, ht⟩
    · exact .lacking (runOn_inScope hx) hlacks
    · exact .failing (runOn_inScope hx) (runOn_inScope hy)
    · next t =>
      obtain ⟨scopes, heq⟩ := t.closeScope_eq
      refine .succeeding (runOn_inScope hx) (runOn_inScope hy) hP hab ?_ ?_
      all_goals rw [heq]
      · exact hpath
      · exact ht

/-! ### Graphs -/

section Graph
variable {env : Env} {root : Expr} (henv : env.Standard) (hroot : root.NodesCoherent)
  (hext : ∀ e ∈ root.nodes, e.kind ≠ .extension)
include henv hroot hext

theorem follows_visit : ∀ (depth : Nat) {path : List Expr} {e : Expr}, root.Reaches path e →
    e.height ≤ depth → Follows env .standard root path String () (e.Supported env)
      (Told (fun _ m => m) e ()) (visit depth e) (visit depth e)
  | 0, path, e, _, hdepth => by
    have : e.height ≠ 0 := by cases e <;> simp [Expr.height]
    omega
  | depth + 1, path, e, he, hdepth => by
    intro s hs hI
    cases hmemo : s.memo.lookup (s.keyOf e) with
    | some text =>
      refine .succeeding (runOn_visit_known hmemo) (runOn_visit_known hmemo) ?_ ⟨⟨rfl, rfl⟩, ?_⟩ hs hI
      · rw [Session.keyOf_eq hs] at hmemo
        exact hI path e text he hmemo
      · exact fun _ _ _ _ _ => rfl
    | none =>
      cases hfind : env.registry.find? e.kind with
      | none =>
        have hlacks : env.registry.supports e.kind = false := by rw [Registry.supports_eq, hfind]; rfl
        exact .lacking (runOn_visit_unsupported hmemo hfind) ⟨path, e, he, hlacks, rfl⟩
      | some r =>
        have hsupported : env.registry.supports e.kind = true := by rw [Registry.supports_eq, hfind]; rfl
        have hfull : (env.withRegistry .standard).registry.find? e.kind = some (.of e.kind.renderer) := by
          rw [env.withRegistry_registry, Registry.standard_find?]
        have hv : List.Forall₂ (fun x y => Visits (fun _ m => m) e (Follows env .standard root (e :: path))
            (visit depth) (visit depth) (Expr.Supported env) x.2 x.1 y.1)
            (e.steps (fun _ m => m) ()) (e.steps (fun _ m => m) ()) := by
          refine List.forall₂_same.mpr fun x hx => ?_
          have hmem := mem_shown_of_mem_steps _ hx
          have hlt := height_lt_of_mem_shown hmem
          exact ⟨hmem, .refl _, follows_visit depth (.step he hmem) (by omega)⟩
        have hx : (visit (depth + 1) e).runOn env s = _ := runOn_visit_new hmemo hfind
        have hy : (visit (depth + 1) e).runOn (env.withRegistry .standard) s = _ :=
          runOn_visit_new hmemo hfull
        simp only [Registration.of] at hy
        rw [henv _ _ hfind] at hx
        rcases (follows_lockstep env .standard root path e).render (hext e he.mem_nodes) hv (s.push e)
          (by rw [Session.push, hs]) hI with ⟨hrun, hlacks⟩ | ⟨hrun, hrun'⟩ | ⟨hrun, hrun', hP, hab, hpath, ht⟩
        · rw [hrun] at hx
          exact .lacking hx hlacks
        · rw [hrun] at hx
          rw [hrun'] at hy
          exact .failing hx hy
        · obtain ⟨⟨rfl, -⟩, hempty⟩ := hab
          have hall : e.Supported env := .node hsupported hP.2
          rw [hrun] at hx
          rw [hrun'] at hy
          rw [Session.keyOf_eq hs] at hx hy
          refine .succeeding hx hy hall ⟨⟨rfl, rfl⟩, hempty⟩ ?_ ?_
          · rw [Session.remember, Session.pop, hpath, List.tail_cons]
          · exact ht.remember hroot he hall _

end Graph

/-- A registry that lacks renderers changes nothing else. If a graph is rendered with it, all nodes that
    are shown have renderers, and the text is that of the standard registry; if not, then for a node
    that lacks one, or for the fault that the standard registry finds. A node that lacks one is never
    passed over. -/
theorem partial_registry_drops_nothing (root : Expr) (hroot : root.NodesCoherent)
    (hext : ∀ e ∈ root.nodes, e.kind ≠ .extension) (env : Env) (henv : env.Standard) :
    (∀ text, root.render env = .ok text →
      root.Supported env ∧ root.render (env.withRegistry .standard) = .ok text) ∧
    (∀ fault, root.render env = .error fault →
      fault.Lacks env root ∨ root.render (env.withRegistry .standard) = .error fault) ∧
    (∀ text, root.render (env.withRegistry .standard) = .ok text → ¬ root.Supported env →
      ∃ fault, fault.Lacks env root ∧ root.render env = .error fault) := by
  have hstart : (Session.start root).RemembersSupported env root := by
    intro path e text _ hlookup
    cases hlookup
  rcases follows_visit henv hroot hext root.height .root (Nat.le_refl _) (.start root) rfl hstart with
    ⟨hx, hlacks⟩ | ⟨hx, hy⟩ | ⟨hx, hy, hsupported, ⟨⟨rfl, -⟩, -⟩, -, -⟩
  · have hrender : root.render env = .error _ := congrArg Prod.fst hx
    refine ⟨fun text h => ?_, fun fault h => ?_, fun text _ _ => ⟨_, hlacks, hrender⟩⟩
    · rw [hrender] at h
      cases h
    · rw [hrender] at h
      cases h
      exact .inl hlacks
  · have hrender : root.render env = .error _ := congrArg Prod.fst hx
    have hfull : root.render (env.withRegistry .standard) = .error _ := congrArg Prod.fst hy
    refine ⟨fun text h => ?_, fun fault h => ?_, fun text h => ?_⟩
    · rw [hrender] at h
      cases h
    · rw [hrender] at h
      cases h
      exact .inr hfull
    · rw [hfull] at h
      cases h
  · have hrender : root.render env = .ok _ := congrArg Prod.fst hx
    have hfull : root.render (env.withRegistry .standard) = .ok _ := congrArg Prod.fst hy
    refine ⟨fun text h => ?_, fun fault h => ?_, fun text _ hnot => absurd hsupported hnot⟩
    · rw [hrender] at h
      cases h
      exact ⟨hsupported, hfull⟩
    · rw [hrender] at h
      cases h

section Negation

private def plainSum : Expr :=
  .binary 1 .add (.variable 2 ⟨0, some "x", .int⟩) (.variable 3 ⟨1, none, .int⟩) .int

/-- A sum and its negation, in an array. -/
private def sumAndNegation : Expr :=
  .newArray 0 .int [plainSum, .unary 4 .negate plainSum .int]

private def withoutUnary : List Renderer :=
  [.variable, .binary, .new]

private def unaryLacking : Env :=
  { registry := .ofList (withoutUnary.map .of) }

/-- The negation is not left out and not shown without its sign: the array is refused. -/
theorem partial_registry_drops_nothing_negation :
    sumAndNegation.NodesCoherent ∧ (∀ e ∈ sumAndNegation.nodes, e.kind ≠ .extension) ∧
      unaryLacking.Standard ∧
      sumAndNegation.render (unaryLacking.withRegistry .standard) =
        .ok "new[] \x7b x + intValue, -(x + intValue) \x7d" ∧
      ∃ fault, fault.Lacks unaryLacking sumAndNegation ∧ sumAndNegation.render unaryLacking = .error fault := by
  have hroot : sumAndNegation.NodesCoherent := .of_nodeAt rfl
  have hext : ∀ e ∈ sumAndNegation.nodes, e.kind ≠ .extension := by
    simp [sumAndNegation, plainSum, Expr.nodes, Expr.nodesOfAll, Expr.kind]
  have henv : unaryLacking.Standard :=
    Env.standard_of_renderers withoutUnary (by simp [withoutUnary]) (by simp only [unaryLacking])
  have hfull : sumAndNegation.render (unaryLacking.withRegistry .standard) =
      .ok "new[] \x7b x + intValue, -(x + intValue) \x7d" := by
    decide +kernel
  have hlacks : ¬ sumAndNegation.Supported unaryLacking := by
    intro h
    have hreach : sumAndNegation.Reaches [sumAndNegation] (.unary 4 .negate plainSum .int) :=
      .step .root (by simp [sumAndNegation, Expr.shown, Expr.children])
    have hkind : unaryLacking.registry.supports (.unary .negate) = true := h _ _ hreach
    revert hkind
    decide +kernel
  obtain ⟨-, -, hmissing⟩ := partial_registry_drops_nothing sumAndNegation hroot hext unaryLacking henv
  exact ⟨hroot, hext, henv, hfull, hmissing _ hfull hlacks⟩

end Negation

end ExprText
