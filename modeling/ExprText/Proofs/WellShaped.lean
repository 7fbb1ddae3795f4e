import ExprText.Proofs.Lockstep.Alone

/-! # Well-shaped trees

A tree can be rendered exactly if every node that is shown fits its place. The memo does not get in
the way: a node of a tree is shown at one place, so what is remembered of it was well shaped there. -/

namespace ExprText

/-- Whether a node under the given nodes and all that it shows below it fit their places. -/
inductive Expr.WellShaped : List Expr → Expr → Prop
  | node {path : List Expr} {e : Expr} (fits : e.Fits path)
    (shown : ∀ c ∈ e.shown, WellShaped (e :: path) c) : WellShaped path e

theorem Expr.wellShaped_iff {path : List Expr} {e : Expr} :
    e.WellShaped path ↔ e.Fits path ∧ ∀ c ∈ e.shown, c.WellShaped (e :: path) := by
  constructor
  · rintro ⟨hfits, hshown⟩
    exact ⟨hfits, hshown⟩
  · exact fun h => .node h.1 h.2

theorem Expr.WellShaped.alike {e f : Expr} {p q : List Expr} (hshaped : e.WellShaped p)
    (h : e.Alike f) (hpath : List.Forall₂ Alike p q) : f.WellShaped q := by
  induction hshaped generalizing f q with
  | @node p e hfits _ ih =>
    refine .node ((h.fits hpath).mp hfits) fun c hc => ?_
    obtain ⟨b, hb, hbc⟩ := exists_mem_of_forall₂ h.shown hc
    exact ih b hb hbc (.cons h hpath)

theorem Expr.Reaches.wellShaped {root e : Expr} {path : List Expr} (h : root.Reaches path e)
    (hroot : root.WellShaped []) : e.WellShaped path := by
  induction h with
  | root => exact hroot
  | step _ hc ih => exact (wellShaped_iff.mp ih).2 _ hc

/-! ### Trees -/

/-- Every node that is remembered at its place in a tree was well shaped there. -/
def Session.RemembersShaped (root : Expr) (s : Session) : Prop :=
  ∀ path e text, root.Reaches path e → s.memo.lookup (e.place path) = some text → e.WellShaped path

theorem Session.RemembersShaped.remember {root e : Expr} {path : List Expr} {s : Session}
    (htree : root.IsTree) (h : s.RemembersShaped root) (he : root.Reaches path e)
    (hshaped : e.WellShaped path) (text : String) :
    (s.remember (e.place path) text).RemembersShaped root := by
  intro q f text' hf hlookup
  rw [Session.remember, lookup_cons_eq] at hlookup
  split at hlookup
  · have hid : f.id = e.id := congrArg Prod.fst ‹f.place q = e.place path›
    obtain ⟨rfl, rfl⟩ := hf.unique htree he hid
    exact hshaped
  · exact h q f text' hf hlookup

theorem remembersShaped_invariant {root : Expr} (htree : root.IsTree) :
    Invariant root True (fun path e => e.WellShaped path) (Session.RemembersShaped root) where
  path _ _ h := h
  scopes _ _ h := h
  ask _ _ _ h := h
  remember _ _ _ text he hP h := h.remember htree he (hP trivial) text
  known _ path e text he h hlookup _ := h path e text he hlookup
  shows _ _ _ := Expr.wellShaped_iff

theorem Expr.IsTree.judged_render {root : Expr} (htree : root.IsTree)
    (hext : ∀ e ∈ root.nodes, e.kind ≠ .extension) (settings : Settings) (qualified : Bool) :
    Judged (root.WellShaped []) (root.render { settings, qualified }) := by
  have hstart : (Session.start root).RemembersShaped root := by
    intro path e text _ hlookup
    cases hlookup
  obtain ⟨-, -, hjudged, -⟩ := (remembersShaped_invariant htree).visit { settings, qualified }
    (by simp) hext root.height .root (Nat.le_refl _) (.start root) rfl hstart
  exact hjudged trivial

/-- A tree is rendered if and only if it is well shaped, and a tree that is not is refused for the shape
    of one of its nodes. -/
theorem render_ok_iff_wellShaped (root : Expr) (hext : ∀ e ∈ root.nodes, e.kind ≠ .extension)
    (htree : root.IsTree) (settings : Settings) (qualified : Bool) :
    ((∃ text, root.render { settings, qualified } = .ok text) ↔ root.WellShaped []) ∧
      ∀ fault, root.render { settings, qualified } = .error fault →
        ∃ kind cause, fault = .malformed kind cause := by
  have hjudged := htree.judged_render hext settings qualified
  exact ⟨hjudged.ok_iff, fun fault hfault => hjudged.malformed hfault⟩

section Nested

private def outer : Label := ⟨0, none, .void⟩

/-- The getter of an indexed property. -/
private def getItem : Method :=
  { Method.new .onInstance (.named none "Table" []) "get_Item" with accessor := some ⟨"Item", 1, false⟩ }

private def cell : Expr :=
  .call 4 (some (.variable 5 ⟨0, some "table", .named none "Table" []⟩)) getItem [.constant 6 (.int 7) .int]

/-- A loop that is left from inside another loop, and an indexer call behind that. -/
private def nestedLoops : Expr :=
  .loop 0 (some (.block 1 [] [.loop 2 (some (.break 3 outer)) (some ⟨1, none, .void⟩) none, cell] .void))
    (some outer) none

private theorem cell_wellShaped (path : List Expr) : cell.WellShaped path := by
  have hfits : cell.Fits path := ⟨by simp, by decide⟩
  refine .node hfits fun c hc => ?_
  have hparts : c ∈ [.variable 5 ⟨0, some "table", .named none "Table" []⟩, .constant 6 (.int 7) .int] := hc
  rcases List.mem_pair.mp hparts with rfl | rfl
  · exact .node trivial fun c hc => by cases hc
  · exact .node trivial fun c hc => by cases hc

/-- The break belongs to the outer loop and the indexer call has a subject and an index, so the tree is
    rendered. -/
theorem render_ok_iff_wellShaped_nestedLoops :
    (∀ e ∈ nestedLoops.nodes, e.kind ≠ .extension) ∧ nestedLoops.IsTree ∧
      (∃ text, nestedLoops.render {} = .ok text) ∧ nestedLoops.WellShaped [] := by
  have hext : ∀ e ∈ nestedLoops.nodes, e.kind ≠ .extension := by
    simp [nestedLoops, cell, Expr.nodes, Expr.nodesOf, Expr.nodesOfAll, Expr.kind]
  have htree : nestedLoops.IsTree := by decide
  have hshaped : nestedLoops.WellShaped [] := by
    refine .node trivial fun c hc => ?_
    obtain rfl := List.mem_singleton.mp hc
    refine .node trivial fun c hc => ?_
    have hstatements : c ∈ [.loop 2 (some (.break 3 outer)) (some ⟨1, none, .void⟩) none, cell] := hc
    rcases List.mem_pair.mp hstatements with rfl | rfl
    · refine .node trivial fun c hc => ?_
      obtain rfl := List.mem_singleton.mp hc
      have hloop : ∀ e f : Expr, nestedLoops ∈ [e, f, nestedLoops] := by simp
      exact .node ⟨0, _, outer, none, hloop _ _, rfl⟩ fun c hc => by cases hc
    · exact cell_wellShaped _
  exact ⟨hext, htree,
    (render_ok_iff_wellShaped nestedLoops hext htree {} false).1.mpr hshaped, hshaped⟩

end Nested

/-! ### Graphs -/

/-- A graph that is well shaped wherever it is reached is rendered, however it shares its nodes. -/
theorem Expr.WellShaped.render_ok {root : Expr} (h : root.WellShaped [])
    (hext : ∀ e ∈ root.nodes, e.kind ≠ .extension) (settings : Settings) (qualified : Bool) :
    ∃ text, root.render { settings, qualified } = .ok text := by
  have inv : Invariant root True (fun path e => e.WellShaped path) fun _ => True :=
    { path _ _ _ := trivial
      scopes _ _ _ := trivial
      ask _ _ _ _ := trivial
      remember _ _ _ _ _ _ _ := trivial
      known _ _ _ _ he _ _ _ := he.wellShaped h
      shows _ _ _ := wellShaped_iff }
  obtain ⟨-, -, hjudged, -⟩ := inv.visit { settings, qualified } (by simp) hext root.height .root
    (Nat.le_refl _) (.start root) rfl trivial
  have hjudged : Judged (root.WellShaped []) (root.render { settings, qualified }) := hjudged trivial
  exact hjudged.ok_iff.mpr h

end ExprText
