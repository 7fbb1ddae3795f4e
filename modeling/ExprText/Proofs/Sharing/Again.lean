import ExprText.Proofs.Frame.Scripts
import ExprText.Proofs.Sharing.Unfolding

/-! # Trees without their memo

A tree has the text, or the fault, that it has when every node is shown anew each time. For a node that
is shown again at its place that is because it sees what it saw before: what is declared is the same
once the blocks in between are closed, and names that were given meanwhile do not change the others. -/

namespace ExprText

open ExprText.Expr

theorem Keeps.visitPlain : ∀ (depth : Nat) (declares : Bool) (e : Expr),
    Keeps declares (visitPlain depth e)
  | 0, _, _ => refuse _
  | depth + 1, declares, e => by
    intro env s hs
    cases hfind : env.registry.find? e.kind with
    | none =>
      rw [runOn_visitPlain_none hfind]
      exact .refl s
    | some r =>
      have hrender : Keeps declares (r.renderer.render (ExprText.visitPlain depth) e) := by
        rw [← Renderer.renderWith_script]
        exact renderWith (visitPlain depth) Expr.script e r.renderer
      rw [runOn_visitPlain_some hfind]
      exact (hrender env (s.push e) hs).pop

theorem Expr.SeenAlike.refl (path : List Expr) (e : Expr) : e.SeenAlike path path e :=
  ⟨rfl, fun _ _ => rfl, fun _ _ => Iff.rfl, fun _ => rfl, fun _ _ _ => rfl, fun _ _ _ => rfl⟩

/-- A node at its place, met for a second time with the same declarations. -/
def MetAgain (p : List Expr) (e : Expr) (d : Declared) (p' : List Expr) (e' : Expr) (d' : Declared) :
    Prop :=
  p = p' ∧ e = e' ∧ d = d' ∧ ∀ c ∈ e.nodes, c.kind ≠ .extension

theorem occurrences_metAgain : Occurrences MetAgain where
  alike := by
    rintro p e d _ _ _ ⟨rfl, rfl, rfl, -⟩
    exact .refl e
  seen := by
    rintro p e d _ _ _ ⟨rfl, rfl, rfl, -⟩
    exact .refl p e
  plain := by
    rintro p e d _ _ _ ⟨rfl, rfl, rfl, hplain⟩
    exact hplain e e.self_mem_nodes
  agree := by
    rintro p e d _ _ _ ⟨rfl, rfl, rfl, -⟩ i -
    exact Iff.rfl
  step := by
    rintro p e d _ _ _ ⟨rfl, rfl, rfl, hplain⟩ i x x' hx hx'
    rw [hx] at hx'
    cases hx'
    have hmem := mem_shown_of_mem_steps _ (List.mem_of_getElem? hx)
    exact ⟨rfl, rfl, rfl, fun c hc => hplain c (nodes_trans e (mem_nodes_of_mem_shown hmem) hc)⟩

/-- A node that was shown is shown again by its text, under the same nodes and with the same scopes open,
    in any session that knows the names given so far. Nothing is new to that session. -/
theorem runOn_visitPlain_again {env : Env} (henv : env.Standard) {e : Expr}
    (hext : ∀ c ∈ e.nodes, c.kind ≠ .extension) {s s' t : Session} {text : String}
    (hrun : (visitPlain e.height e).runOn env s = (.ok text, s')) (hopened : s.scopes ≠ [])
    (hpath : t.path = s.path) (hscopes : t.scopes = s.scopes) (hnames : s'.names.Extends t.names) :
    ∃ t', (visitPlain e.height e).runOn env t = (.ok text, t') ∧ t'.names = t.names ∧
      t'.path = t.path ∧ t'.scopes = t.scopes := by
  let d : Declared := fun i => ∃ scope ∈ s.scopes, i ∈ scope
  have hdeclared : ∀ v : Variable, s.isDeclared v = true ↔ d v.id := by
    intro v
    simp [Session.isDeclared, d]
  have hs : s.Stands s.path d := ⟨rfl, hdeclared, hopened⟩
  have ht : t.Stands s.path d := by
    refine ⟨hpath, fun v => ?_, hscopes ▸ hopened⟩
    rw [← hdeclared v, Session.isDeclared, Session.isDeclared, hscopes]
  obtain ⟨text', n, t', ⟨⟨rfl, -⟩, -⟩, hreplayed, hagain⟩ :=
    replays_visitPlain henv occurrences_metAgain e.height e.height ⟨rfl, rfl, rfl, hext⟩ (Nat.le_refl _)
      (Nat.le_refl _) [] s t hs ht (fun i hi => by cases hi) text s' hrun
  have hrun' := hagain hnames
  have hkept := Keeps.visitPlain e.height false e env t (hscopes ▸ hopened)
  rw [hrun'] at hkept
  exact ⟨t', hrun', hreplayed.unchanged, hkept.path, hkept.scopes.all rfl⟩

/-- A tree is rendered, or refused, as it is without a memo. There a node that is shown again at its
    place gets the text it had, whatever names were given and scopes closed in between. -/
theorem tree_render_eq_renderPlain (root : Expr) (htree : root.IsTree)
    (hext : ∀ e ∈ root.nodes, e.kind ≠ .extension) (env : Env) (henv : env.Standard) :
    root.render env = root.renderPlain env ∧
      ∀ path e, root.Reaches path e → ∀ s text s', s.path = path → s.scopes ≠ [] →
        (visitPlain e.height e).runOn env s = (.ok text, s') →
        ∀ t : Session, t.path = path → t.scopes = s.scopes → s'.names.Extends t.names →
          ∃ t', (visitPlain e.height e).runOn env t = (.ok text, t') ∧ t'.names = t.names ∧
            t'.path = t.path ∧ t'.scopes = t.scopes := by
  refine ⟨htree.render_eq_renderPlain henv hext, ?_⟩
  rintro path e hreach s text s' rfl hopened hrun t hpath hscopes hnames
  refine runOn_visitPlain_again henv (fun c hc => ?_) hrun hopened hpath hscopes hnames
  exact hext c (nodes_trans root hreach.mem_nodes hc)

section Counting

private def start : Variable := ⟨0, none, .int⟩
private def count : Variable := ⟨1, none, .int⟩
private def step : Variable := ⟨2, none, .int⟩
private def enough : Variable := ⟨3, none, .bool⟩

private def countBody : Expr :=
  .block 1 [count] [.assign 2 .assign (.variable 3 count) (.variable 4 start),
    .lambda 5 [step] (.binary 6 .add (.variable 7 count) (.variable 8 step) .int)
      (.delegate [.int] .int)] (.delegate [.int] .int)

/-- A lambda the body of which declares a variable and returns another lambda, all without names. -/
private def counting : Expr :=
  .lambda 0 [start] countBody (.delegate [.int] countBody.ty)

private def branch : Expr :=
  .conditional 1 (.variable 2 enough)
    (.block 3 [count] [.assign 4 .assign (.variable 5 count) (.variable 6 start),
      .assign 7 .assign (.variable 8 start) (.variable 9 count)] .void)
    (.default 10 .void) .void

/-- A lambda the body of which has no value and takes several lines, so that it is shown twice: once to see
    that, and once more between braces. It declares a variable each time. -/
private def branching : Expr :=
  .lambda 0 [enough, start] branch (.delegate [.bool, .int] .void)

private def fewRenderers : List Renderer :=
  [.variable, .binary, .assign, .conditional, .block, .lambda]

private def fewKinds : Env :=
  { registry := .ofList (fewRenderers.map .of) }

private def inCounting : Session :=
  (((Session.start counting).push counting).ask (.variable start)).2

private def countText : String :=
  "var intValue2 = intValue;\n\nreturn intValue3 => intValue2 + intValue3;"

private def branchingText : String :=
  "(boolValue, intValue) =>\n\x7b\n    if (boolValue)\n    \x7b\n        var intValue2 = intValue;" ++
    "\n        intValue = intValue2;\n    \x7d\n\x7d"

/-- The body is shown again after another variable was named and another scope closed. The body that is shown
    twice has the same text both times. -/
theorem tree_render_eq_renderPlain_counting :
    (counting.IsTree ∧ (∀ e ∈ counting.nodes, e.kind ≠ .extension) ∧ fewKinds.Standard ∧
      counting.render fewKinds = counting.renderPlain fewKinds ∧
      ∃ s', (visitPlain countBody.height countBody).runOn fewKinds inCounting = (.ok countText, s') ∧
        ∃ t', (visitPlain countBody.height countBody).runOn fewKinds
            (s'.ask (.variable ⟨4, none, .int⟩)).2.openScope.closeScope = (.ok countText, t')) ∧
      branching.IsTree ∧ (∀ e ∈ branching.nodes, e.kind ≠ .extension) ∧
        branching.render fewKinds = branching.renderPlain fewKinds ∧
        branching.render fewKinds = .ok branchingText := by
  have htree : counting.IsTree := by decide
  have hext : ∀ e ∈ counting.nodes, e.kind ≠ .extension := by
    simp [counting, countBody, Expr.nodes, Expr.nodesOfAll, Expr.kind]
  have henv : fewKinds.Standard :=
    Env.standard_of_renderers fewRenderers (by simp [fewRenderers]) (by simp only [fewKinds])
  have htree' : branching.IsTree := by decide
  have hext' : ∀ e ∈ branching.nodes, e.kind ≠ .extension := by
    simp [branching, branch, Expr.nodes, Expr.nodesOfAll, Expr.kind]
  obtain ⟨heq, hagain⟩ := tree_render_eq_renderPlain counting htree hext fewKinds henv
  have hreach : counting.Reaches [counting] countBody := .step .root (by simp [counting, countBody, Expr.shown, Expr.isEmpty])
  have htext : ((visitPlain countBody.height countBody).runOn fewKinds inCounting).1 = .ok countText := by
    decide +kernel
  have hkept := Keeps.visitPlain countBody.height false countBody fewKinds inCounting (by decide)
  rcases hrun : (visitPlain countBody.height countBody).runOn fewKinds inCounting with ⟨result, s'⟩
  rw [hrun] at hkept htext
  obtain rfl : result = .ok countText := htext
  have hlater : s'.Kept false (s'.ask (.variable ⟨4, none, .int⟩)).2.openScope.closeScope :=
    (Session.Kept.ask s' _).trans (.closeScope (hkept.scopes.opened (by decide)) (.refl _))
  obtain ⟨t', ht', -⟩ := hagain _ _ hreach inCounting countText s' rfl (by decide) hrun _
    (hlater.path.trans hkept.path) ((hlater.scopes.all rfl).trans (hkept.scopes.all rfl)) hlater.names
  exact ⟨⟨htree, hext, henv, heq, s', rfl, t', ht'⟩, htree', hext',
    (tree_render_eq_renderPlain branching htree' hext' fewKinds henv).1, by decide +kernel⟩

end Counting

end ExprText
