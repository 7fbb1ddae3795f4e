import ExprText.Proofs.Sharing.Fresh
import ExprText.Proofs.Sharing.Memo
import ExprText.Proofs.WellShaped

/-! # Graphs and their unfoldings

A tree unfolds a graph if it is alike and no node stands at two places. A graph that shares its nodes
safely has the text of its unfolding, or the same fault. One that does not may show a node by a text
that was right at another place: a jump out of one loop is then shown inside another. Such a graph is
rendered though it is not well shaped wherever it is reached, and its unfolding is refused. -/

namespace ExprText

open ExprText.Expr

/-- Whether a tree has a copy of its own for each place at which a graph has a node. -/
structure Expr.UnfoldsTo (g t : Expr) : Prop where
  alike : g.Alike t
  tree : t.IsTree

theorem Expr.unfoldsTo_fresh (g : Expr) : g.UnfoldsTo (g.fresh 0) :=
  ⟨(erase_fresh 0 g).symm, isTree_fresh 0 g⟩

theorem Env.standard_of_registry {env : Env} (h : env.registry = .standard) : env.Standard := by
  intro kind r hr
  rw [h, Registry.standard_find?] at hr
  cases hr
  rfl

theorem Expr.IsTree.render_eq_renderPlain {t : Expr} {env : Env} (ht : t.IsTree)
    (henv : env.Standard) (hext : ∀ e ∈ t.nodes, e.kind ≠ .extension) :
    t.render env = t.renderPlain env :=
  ExprText.render_eq_renderPlain henv ht.nodesCoherent (.refl t) hext (sharesSafely_self ht)

theorem Expr.Alike.plain {g t : Expr} (h : g.Alike t) (hext : ∀ e ∈ g.nodes, e.kind ≠ .extension) :
    ∀ e ∈ t.nodes, e.kind ≠ .extension := by
  intro e he
  have hmem : e.kind ∈ g.nodes.map Expr.kind := h.map_kind_nodes ▸ List.mem_map_of_mem he
  obtain ⟨f, hf, hkind⟩ := List.mem_map.mp hmem
  exact hkind ▸ hext f hf

/-! ### Graphs of values -/

theorem Expr.Copies.parent_alike {g t e e' : Expr} {p p' : List Expr} {d : Declared}
    (hgt : g.Alike t) (h : Copies g t p e d p' e') : Option.Rel Alike p.head? p'.head? := by
  cases h with
  | root => exact .none
  | step h => exact .some (h.alike hgt)

/-- A graph without method calls, blocks and jumps shares its nodes safely, however it shares them. -/
theorem sharesSafely_of_values {g t : Expr} (hgt : g.Alike t)
    (hcall : ∀ e ∈ g.nodes, e.isCall = false) (hblock : ∀ e ∈ g.nodes, e.isBlock = false)
    (hjump : ∀ e ∈ g.nodes, e.kind ≠ .break ∧ e.kind ≠ .continue) : SharesSafely g t := by
  intro p e d p' e' q d' q' f he hf hhead
  have hmem := he.reaches.mem_nodes
  have hnoCall := hcall e hmem
  have hnoBlock := hblock e hmem
  have hnoJump := hjump e hmem
  have halike := hf.alike hgt
  have hlink : p.head?.any Render.isChainLink = q'.head?.any Render.isChainLink := by
    have hparent := hf.parent_alike hgt
    rw [← hhead] at hparent
    generalize p.head? = a, q'.head? = b at hparent
    cases hparent with
    | none => rfl
    | some h => exact h.isChainLink
  refine ⟨⟨?_, ?_, ?_, ?_, ?_, ?_⟩, ?_⟩
  · rw [Render.carriesChecked, Render.carriesChecked, hlink, halike.kind, halike.chainHasChecked]
  · exact fun h => absurd h (by simp [hnoCall])
  · exact fun h => absurd h (by simp [hnoCall])
  · exact fun h => absurd h (by simp [hnoBlock])
  · rintro id target rfl
    exact absurd rfl hnoJump.1
  · rintro id target rfl
    exact absurd rfl hnoJump.2
  · intro i hi
    cases e with
    | block => cases hnoBlock
    | _ => cases hi

/-! ### Graphs that share safely -/

theorem Expr.UnfoldsTo.wellShaped_iff {g t : Expr} (h : g.UnfoldsTo t) :
    t.WellShaped [] ↔ g.WellShaped [] :=
  ⟨fun ht => ht.alike h.alike.symm .nil, fun hg => hg.alike h.alike .nil⟩

/-- A graph unfolds, and if it shares its nodes safely it is rendered as the trees that unfold it. If it
    does not it may be rendered where they are refused, since they are not well shaped at some place,
    but it is never refused where they are rendered. -/
theorem render_unfolding (g : Expr) (hg : g.NodesCoherent)
    (hext : ∀ e ∈ g.nodes, e.kind ≠ .extension) (settings : Settings) (qualified : Bool) :
    (∃ t, g.UnfoldsTo t) ∧ ∀ t, g.UnfoldsTo t →
      (SharesSafely g t → g.render { settings, qualified } = t.render { settings, qualified }) ∧
      ((∃ text, t.render { settings, qualified } = .ok text) ↔ g.WellShaped []) ∧
      (g.WellShaped [] → ∃ text, g.render { settings, qualified } = .ok text) := by
  refine ⟨⟨_, g.unfoldsTo_fresh⟩, fun t h => ?_⟩
  have henv : ({ settings, qualified } : Env).Standard := Env.standard_of_registry (by simp)
  have hext' := h.alike.plain hext
  refine ⟨fun hsafe => ?_, ?_, fun hshaped => hshaped.render_ok hext settings qualified⟩
  · calc g.render { settings, qualified }
      _ = t.renderPlain { settings, qualified } :=
        render_eq_renderPlain henv hg h.alike hext hsafe
      _ = t.render { settings, qualified } := (h.tree.render_eq_renderPlain henv hext').symm
  · exact (h.tree.judged_render hext' settings qualified).ok_iff.trans h.wellShaped_iff

section Total

private def total (i j k : Nat) : Expr :=
  .binary i .add (.variable j ⟨0, none, .int⟩) (.variable k ⟨1, some "y", .int⟩) .int

/-- A total times its own negation: one node at two places. -/
private def sharedTotal : Expr :=
  .binary 0 .multiply (total 1 2 3) (.unary 4 .negate (total 1 2 3) .int) .int

private def copiedTotal : Expr :=
  .binary 0 .multiply (total 1 2 3) (.unary 4 .negate (total 5 6 7) .int) .int

theorem render_unfolding_total :
    sharedTotal.NodesCoherent ∧ (∀ e ∈ sharedTotal.nodes, e.kind ≠ .extension) ∧
      sharedTotal.UnfoldsTo copiedTotal ∧ SharesSafely sharedTotal copiedTotal ∧
      sharedTotal.render {} = copiedTotal.render {} := by
  have hg : sharedTotal.NodesCoherent := .of_nodeAt rfl
  have hext : ∀ e ∈ sharedTotal.nodes, e.kind ≠ .extension := by
    simp [sharedTotal, total, Expr.nodes, Expr.kind]
  have h : sharedTotal.UnfoldsTo copiedTotal := ⟨rfl, by decide⟩
  have hsafe : SharesSafely sharedTotal copiedTotal := by
    refine sharesSafely_of_values h.alike ?_ ?_ ?_ <;>
      simp [sharedTotal, total, Expr.nodes, Expr.isCall, Expr.isBlock, Expr.kind]
  exact ⟨hg, hext, h, hsafe, ((render_unfolding sharedTotal hg hext {} false).2 _ h).1 hsafe⟩

end Total

/-! ### Graphs that do not -/

/-- A graph and its unfolding, with what they are rendered as. -/
structure Expr.RenderedBeside (g t : Expr) (result result' : Except Fault String) : Prop where
  coherent : g.NodesCoherent
  unfolds : g.UnfoldsTo t
  graph : g.render {} = result
  tree : t.render {} = result'

section Visible

private def ownLabel : Label := ⟨0, none, .void⟩

/-- Two loops of which the first owns the target of a break in both. -/
private def twoLoops (i : Nat) : Expr :=
  let body (i : Nat) : Expr := .block i [] [.break (i + 1) ownLabel] .void
  .block 0 [] [.loop 1 (some (body 3)) (some ownLabel) none,
    .loop 2 (some (body i)) (some ⟨1, none, .void⟩) none] .void

private def oneString (owner : Ty) (name : String) (result : Ty) : Method :=
  ((Method.new .static owner name).param "p" .string).returns result

/-- A concatenation that is the argument of an argument, once outside of arithmetic and once in it. -/
private def twoCalls (i : Nat) : Expr :=
  let calls (i : Nat) : Expr :=
    .call i none (oneString (.named none "T" []) "G" .int)
      [.call (i + 1) none (oneString (.named none "T" []) "F" .string)
        [.call (i + 2) none (oneString .string "Concat" .string)
          [.variable (i + 3) ⟨0, some "x", .string⟩, .variable (i + 4) ⟨1, some "y", .string⟩]]]
  .newArray 0 .int [calls 3, .binary 1 .add (calls i) (.constant 2 (.int 1) .int) .int]

/-- A block that lists a variable of the block around it, before and after that declares it. -/
private def twoBlocks (i : Nat) : Expr :=
  let v : Variable := ⟨0, some "v", .int⟩
  let set (i : Nat) (value : Int32) : Expr :=
    .assign i .assign (.variable (i + 1) v) (.constant (i + 2) (.int value) .int)
  let inner (i : Nat) : Expr := .block i [v] [set (i + 1) 1] .int
  .block 0 [v] [inner 4, set 1 2, inner i] .int

/-- A call on the end of a chain of calls that has the same chain as its argument. -/
private def twoChains (i : Nat) : Expr :=
  let owner : Ty := .named none "T" []
  let chain (i : Nat) : Expr :=
    .call i (some (.call (i + 1) (some (.variable (i + 2) ⟨0, some "a", owner⟩))
      (.new .onInstance owner "F") [])) (.new .onInstance owner "G") []
  .call 0 (some (chain 1)) ((Method.new .onInstance owner "H").param "p" owner) [chain i]

/-- A block that is both the test of a conditional and its first branch. -/
private def twoTests (i : Nat) : Expr :=
  let test (i : Nat) : Expr := .block i [] [.constant (i + 1) (.bool true) .bool] .bool
  .conditional 0 (test 2) (test i) (.default 1 .void) .void

/-- A graph that does not share safely may not be rendered as its unfolding: a break that has no loop is
    shown, parentheses are missing, a declaration is repeated, an argument is laid out as a receiver,
    and a branch as a test. -/
theorem sharing_visible :
    (twoLoops 3).RenderedBeside (twoLoops 5)
      (.ok "while (true)\n\x7b\n    break;\n\x7d\n\nwhile (true)\n\x7b\n    break;\n\x7d")
      (.error (.malformed .break (.jumpTarget "break"))) ∧
    (twoCalls 3).RenderedBeside (twoCalls 8)
      (.ok "new[] \x7b T.G(T.F(x + y)), T.G(T.F(x + y)) + 1 \x7d")
      (.ok "new[] \x7b T.G(T.F(x + y)), T.G(T.F((x + y))) + 1 \x7d") ∧
    (twoBlocks 4).RenderedBeside (twoBlocks 8) (.ok "var v = 1;\nvar v = 2;\nvar v = 1;")
      (.ok "var v = 1;\nvar v = 2;\nv = 1;") ∧
    (twoChains 1).RenderedBeside (twoChains 4) (.ok "a.F()\n    .G()\n    .H(a.F()\n    .G())")
      (.ok "a.F()\n    .G()\n    .H(a.F().G())") ∧
    (twoTests 2).RenderedBeside (twoTests 4)
      (.ok "if (\x7b\n    return true;\n\x7d)\n\x7b\n    \x7b\n        return true;\n    \x7d\n\x7d")
      (.ok "if (\x7b\n    return true;\n\x7d)\n\x7b\n    true;\n\x7d") := by
  refine ⟨⟨.of_nodeAt rfl, ⟨rfl, by decide⟩, ?_, ?_⟩, ⟨.of_nodeAt rfl, ⟨rfl, by decide⟩, ?_, ?_⟩,
    ⟨.of_nodeAt rfl, ⟨rfl, by decide⟩, ?_, ?_⟩, ⟨.of_nodeAt rfl, ⟨rfl, by decide⟩, ?_, ?_⟩,
    .of_nodeAt rfl, ⟨rfl, by decide⟩, ?_, ?_⟩ <;> decide +kernel

end Visible

end ExprText
