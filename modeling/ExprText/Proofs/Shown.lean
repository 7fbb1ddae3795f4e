import Mathlib.Data.List.Flatten
import ExprText.Proofs.Twin
import ExprText.Render

/-! # Shown nodes

Which nodes the renderer of a node shows below it. Not every child is shown: the subject of a static
call is not. Not every shown node is a child: the items of a trailing array are shown as arguments of
the call, and a concatenation shows what its operands turn into text. A rendering reaches the nodes
that are shown from the root on, each under the nodes above it. -/

namespace ExprText

namespace Render

/-- The nodes shown for an argument: the items of a trailing array, or the argument itself. -/
def argumentNodes (modifier : Modifier) (arg : Expr) : List Expr :=
  match modifier, arg with
  | .params, .newArray _ _ items => items
  | _, _ => [arg]

def argumentsNodes (args : List Expr) : Option (List Parameter) → List Expr
  | none => args
  | some params => (args.zip params).flatMap fun (arg, p) => argumentNodes p.modifier arg

def callNodes (subject : Option Expr) (method : Method) (args : List Expr) : List Expr :=
  if isConcatenation subject method then (concatenated args).map concatenand
  else if isIndexer method then subject.toList ++ args
  else
    match method.kind with
    | .extension => args.head?.toList ++ argumentsNodes args.tail (some method.params.tail)
    | .static => argumentsNodes args (some method.params)
    | .onInstance =>
      (subject.filter (!·.isCaptured)).toList ++ argumentsNodes args (some method.params)

end Render

namespace Expr

open Render

/-- The nodes that a node shows below it, in the order in which they are shown. -/
def shown : Expr → List Expr
  | .conditional _ test ifTrue ifFalse ty =>
    [test, ifTrue] ++ if ifFalse.isEmpty && ty.isVoid then [] else [ifFalse]
  | .call _ subject method args => callNodes subject method args
  | .new _ _ constructor args => argumentsNodes args (constructor.map Method.params)
  | .member _ subject target =>
    if target.isStatic then [] else (subject.filter (!·.isCaptured)).toList
  | .lambda _ _ body _ => if body.isEmpty then [] else [body]
  | .block _ _ statements _ => statements.filter (!·.isEmpty)
  | e => e.children

/-! ### Where shown nodes lie -/

/-- Whether no node stands at two places. -/
def IsTree (root : Expr) : Prop :=
  root.nodes.Pairwise fun a b => a.id ≠ b.id

instance (root : Expr) : Decidable root.IsTree :=
  inferInstanceAs (Decidable (root.nodes.Pairwise fun a b => a.id ≠ b.id))

theorem flatMap_argumentNodes_sublist (modifier : Modifier) (arg : Expr) :
    ((argumentNodes modifier arg).flatMap nodes).Sublist arg.nodes := by
  unfold argumentNodes
  split
  · rw [nodes_eq (.newArray ..)]
    exact List.sublist_cons_self _ _
  · simp

theorem flatMap_argumentsNodes_sublist (args : List Expr) (params : Option (List Parameter)) :
    ((argumentsNodes args params).flatMap nodes).Sublist (args.flatMap nodes) := by
  cases params with
  | none => exact List.Sublist.refl _
  | some params =>
    induction args generalizing params with
    | nil => simp [argumentsNodes]
    | cons arg args ih =>
      cases params with
      | nil => simp [argumentsNodes]
      | cons p params =>
        simp only [argumentsNodes, List.zip_cons_cons, List.flatMap_cons, List.flatMap_append]
        exact (flatMap_argumentNodes_sublist p.modifier arg).append (ih params)

theorem flatMap_filter_toList_sublist (subject : Option Expr) (p : Expr → Bool) :
    ((subject.filter p).toList.flatMap nodes).Sublist (subject.toList.flatMap nodes) := by
  cases subject with
  | none => simp
  | some subject => by_cases h : p subject <;> simp [Option.filter, h]

theorem concatenand_nodes_sublist (e : Expr) : (concatenand e).nodes.Sublist e.nodes := by
  unfold concatenand
  split
  · split
    · rw [nodes_eq (.call ..)]
      refine List.Sublist.cons _ ?_
      simp [children]
    · exact List.Sublist.refl _
  · exact List.Sublist.refl _

theorem concatenated_nodes_sublist (args : List Expr) :
    ((concatenated args).flatMap nodes).Sublist (args.flatMap nodes) := by
  unfold concatenated
  split
  · rw [List.flatMap_singleton, nodes_eq (.newArray ..)]
    exact List.sublist_cons_self _ _
  · exact List.Sublist.refl _

/-- The nodes below those shown for a call lie apart from each other below the call. -/
theorem callNodes_sublist (subject : Option Expr) (method : Method) (args : List Expr) :
    ((callNodes subject method args).flatMap nodes).Sublist
      ((subject.toList ++ args).flatMap nodes) := by
  unfold callNodes
  rw [List.flatMap_append]
  split
  · refine List.Sublist.trans ?_ (List.sublist_append_right _ _)
    refine List.Sublist.trans ?_ (concatenated_nodes_sublist args)
    rw [List.flatMap_map]
    exact List.Sublist.flatMap_right _ fun e _ => concatenand_nodes_sublist e
  · split
    · rw [List.flatMap_append]
    · split
      · refine List.Sublist.trans ?_ (List.sublist_append_right _ _)
        rw [List.flatMap_append]
        cases args with
        | nil => simp [argumentsNodes]
        | cons a args =>
          simpa using List.Sublist.append (List.Sublist.refl a.nodes)
            (flatMap_argumentsNodes_sublist args (some method.params.tail))
      · exact (flatMap_argumentsNodes_sublist _ _).trans (List.sublist_append_right _ _)
      · rw [List.flatMap_append]
        exact (flatMap_filter_toList_sublist _ _).append (flatMap_argumentsNodes_sublist _ _)

theorem shown_nodes_sublist (e : Expr) :
    (e.shown.flatMap nodes).Sublist (e.children.flatMap nodes) := by
  cases e with
  | conditional _ test ifTrue ifFalse ty =>
    simp only [shown, children]
    split <;> simp
  | call _ subject method args => exact callNodes_sublist subject method args
  | new _ _ constructor args => exact flatMap_argumentsNodes_sublist _ _
  | member _ subject target =>
    simp only [shown, children]
    split
    · simp
    · exact flatMap_filter_toList_sublist _ _
  | lambda _ _ body _ =>
    simp only [shown, children]
    split <;> simp
  | block _ _ statements _ => exact List.Sublist.flatMap List.filter_sublist _
  | _ => exact List.Sublist.refl _

theorem mem_children_nodes_of_mem_shown {e c : Expr} (h : c ∈ e.shown) :
    c ∈ e.children.flatMap nodes :=
  (shown_nodes_sublist e).subset (List.mem_flatMap.mpr ⟨c, h, self_mem_nodes c⟩)

theorem mem_nodes_of_mem_shown {e c : Expr} (h : c ∈ e.shown) : c ∈ e.nodes := by
  rw [nodes_eq]
  exact List.mem_cons_of_mem _ (mem_children_nodes_of_mem_shown h)

theorem height_le_of_mem_nodes {root e : Expr} (h : e ∈ root.nodes) : e.height ≤ root.height := by
  induction root using childInduction with
  | step root ih =>
    rw [nodes_eq] at h
    rcases List.mem_cons.mp h with rfl | h
    · exact Nat.le_refl _
    · obtain ⟨c, hc, h⟩ := List.mem_flatMap.mp h
      exact Nat.le_trans (ih c hc h) (Nat.le_of_lt (height_lt_of_mem_children hc))

theorem height_lt_of_mem_shown {e c : Expr} (h : c ∈ e.shown) : c.height < e.height := by
  obtain ⟨d, hd, hc⟩ := List.mem_flatMap.mp (mem_children_nodes_of_mem_shown h)
  exact Nat.lt_of_le_of_lt (height_le_of_mem_nodes hc) (height_lt_of_mem_children hd)

/-! ### Alike nodes show alike nodes -/

section Alike
variable {e f : Expr} {xs ys : List Expr}

theorem Alike.needsGrouping (h : Alike e f) :
    RenderM.needsGrouping e = RenderM.needsGrouping f := by
  cases h.twin <;> rfl

theorem Alike.isChainLink (h : Alike e f) : Render.isChainLink e = Render.isChainLink f := by
  cases h.twin <;> rfl

theorem chainHasChecked_erase (e : Expr) :
    Render.chainHasChecked e.erase = Render.chainHasChecked e := by
  have hlink : ∀ c : Expr, Render.isChainLink c.erase = Render.isChainLink c := by
    intro c
    cases c <;> rfl
  induction e using childInduction with
  | step e ih =>
    cases e with
    | binary _ op l r ty =>
      rw [erase, Render.chainHasChecked, Render.chainHasChecked, ih l (by simp [children]),
        ih r (by simp [children]), hlink, hlink]
    | unary _ op a ty =>
      rw [erase, Render.chainHasChecked, Render.chainHasChecked, ih a (by simp [children]), hlink]
    | _ => rfl

theorem Alike.chainHasChecked (h : Alike e f) :
    Render.chainHasChecked e = Render.chainHasChecked f := by
  rw [← chainHasChecked_erase e, ← chainHasChecked_erase f, h]

theorem Alike.declaredBy (h : Alike e f) (locals : List Variable) :
    Render.declaredBy locals e = Render.declaredBy locals f := by
  cases h.twin with
  | @assign _ _ op _ _ _ _ ha => cases op <;> cases ha.twin <;> rfl
  | _ => rfl

theorem kind_of_declaredBy {locals : List Variable} {v : Variable}
    (h : Render.declaredBy locals e = some v) : ∃ op, e.kind = .assign op := by
  cases e with
  | assign _ op => exact ⟨op, rfl⟩
  | _ => cases h

theorem exists_local_of_declaredBy {locals : List Variable} {v : Variable}
    (h : Render.declaredBy locals e = some v) : ∃ w ∈ locals, w.id = v.id := by
  unfold Render.declaredBy at h
  split at h
  · split at h
    · cases h
      obtain ⟨w, hw, hid⟩ := List.any_eq_true.mp ‹_›
      exact ⟨w, hw, beq_iff_eq.mp hid⟩
    · cases h
  · cases h

theorem isAssigned_alike (h : List.Forall₂ Alike xs ys) (locals : List Variable) (v : Variable) :
    isAssigned locals xs v = isAssigned locals ys v := by
  induction h with
  | nil => rfl
  | cons hx _ ih => simp only [isAssigned, List.any_cons, hx.declaredBy locals] at ih ⊢; rw [ih]

theorem filter_isEmpty_alike (h : List.Forall₂ Alike xs ys) :
    List.Forall₂ Alike (xs.filter (!·.isEmpty)) (ys.filter (!·.isEmpty)) := by
  induction h with
  | nil => exact .nil
  | @cons x y _ _ hx _ ih =>
    cases hy : y.isEmpty with
    | true => simpa [hx.isEmpty, hy] using ih
    | false => simpa [hx.isEmpty, hy] using ⟨hx, ih⟩

theorem getLast?_any_ty_alike (h : List.Forall₂ Alike xs ys) :
    xs.getLast?.any (!·.ty.isVoid) = ys.getLast?.any (!·.ty.isVoid) := by
  induction h with
  | nil => rfl
  | cons hx hxs ih =>
    cases hxs with
    | nil => simp [hx.ty]
    | cons => simpa [List.getLast?_cons_cons] using ih

theorem filter_isCaptured_alike {a b : Option Expr} (h : Option.Rel Alike a b) :
    List.Forall₂ Alike (a.filter (!·.isCaptured)).toList (b.filter (!·.isCaptured)).toList := by
  cases h with
  | none => exact .nil
  | @some x y hx => cases hy : y.isCaptured <;> simp [Option.filter, hx.isCaptured, hy, hx]

theorem argumentNodes_alike (h : Alike e f) (modifier : Modifier) :
    List.Forall₂ Alike (argumentNodes modifier e) (argumentNodes modifier f) := by
  cases modifier <;> cases h.twin <;> first | exact .cons h .nil | assumption

theorem argumentsNodes_alike (h : List.Forall₂ Alike xs ys) (params : Option (List Parameter)) :
    List.Forall₂ Alike (argumentsNodes xs params) (argumentsNodes ys params) := by
  cases params with
  | none => exact h
  | some params =>
    induction h generalizing params with
    | nil => exact .nil
    | cons hx _ ih =>
      cases params with
      | nil => exact .nil
      | cons p params => exact List.rel_append (argumentNodes_alike hx p.modifier) (ih params)

theorem toList_alike {a b : Option Expr} (h : Option.Rel Alike a b) :
    List.Forall₂ Alike a.toList b.toList := by
  cases h with
  | none => exact .nil
  | some hx => exact .cons hx .nil

theorem Alike.concatenand (h : Alike e f) : Alike (Render.concatenand e) (Render.concatenand f) := by
  cases h.twin with
  | @call _ _ a a' method args args' ha hargs =>
    cases ha with
    | none => exact h
    | some ha =>
      simp only [Render.concatenand]
      have hempty : args.isEmpty = args'.isEmpty := by cases hargs <;> rfl
      rw [hempty]
      split
      · exact ha
      · exact h
  | _ => exact h

theorem concatenated_alike (h : List.Forall₂ Alike xs ys) :
    List.Forall₂ Alike (concatenated xs) (concatenated ys) := by
  cases h with
  | nil => exact .nil
  | cons hx hxs =>
    cases hxs with
    | nil => cases hx.twin <;> first | assumption | exact .cons hx .nil
    | cons hy hys => cases hx.twin <;> cases hy.twin <;> exact .cons hx (.cons hy hys)

theorem isConcatenation_alike {a b : Option Expr} (h : Option.Rel Alike a b) (method : Method) :
    isConcatenation a method = isConcatenation b method := by
  cases h <;> rfl

theorem callNodes_alike {a b : Option Expr} (ha : Option.Rel Alike a b)
    (h : List.Forall₂ Alike xs ys) (method : Method) :
    List.Forall₂ Alike (callNodes a method xs) (callNodes b method ys) := by
  unfold callNodes
  rw [isConcatenation_alike ha]
  split
  · rw [List.forall₂_map_left_iff, List.forall₂_map_right_iff]
    exact (concatenated_alike h).imp fun _ _ hx => hx.concatenand
  · split
    · exact List.rel_append (toList_alike ha) h
    · split
      · cases h with
        | nil => exact argumentsNodes_alike .nil (some method.params.tail)
        | cons hx hxs => exact List.rel_append (.cons hx .nil) (argumentsNodes_alike hxs _)
      · exact argumentsNodes_alike h _
      · exact List.rel_append (filter_isCaptured_alike ha) (argumentsNodes_alike h _)

theorem Alike.shown (h : Alike e f) : List.Forall₂ Alike e.shown f.shown := by
  cases h.twin with
  | constant | «variable» | «break» | «continue» | default | extension => exact .nil
  | binary hl hr | assign hl hr => exact .cons hl (.cons hr .nil)
  | unary ha => exact .cons ha .nil
  | conditional ha hb hc =>
    simp only [Expr.shown, hc.isEmpty]
    split
    · exact .cons ha (.cons hb .nil)
    · exact .cons ha (.cons hb (.cons hc .nil))
  | call ha hargs => exact callNodes_alike ha hargs _
  | invoke ha hargs | index ha hargs => exact .cons ha hargs
  | new hargs => exact argumentsNodes_alike hargs _
  | newArray hitems => exact hitems
  | member ha =>
    simp only [Expr.shown]
    split
    · exact .nil
    · exact filter_isCaptured_alike ha
  | lambda ha =>
    simp only [Expr.shown, ha.isEmpty]
    split
    · exact .nil
    · exact .cons ha .nil
  | block hxs => exact filter_isEmpty_alike hxs
  | loop ha | «return» ha => exact toList_alike ha

theorem any_isCall_alike (h : List.Forall₂ Alike xs ys) : xs.any isCall = ys.any isCall := by
  induction h with
  | nil => rfl
  | cons hx _ ih => rw [List.any_cons, List.any_cons, hx.isCall, ih]

theorem Alike.receiver?_any_isCall (h : Alike e f) :
    e.receiver?.any Expr.isCall = f.receiver?.any Expr.isCall := by
  have hcall : ∀ r : Option Expr, (r.map erase).any Expr.isCall = r.any Expr.isCall := by
    rintro (_ | r)
    · rfl
    · cases r <;> rfl
  rw [← hcall, ← receiver?_erase, h, receiver?_erase, hcall]

theorem eq_break_of_alike {id : Nat} {target : Label} (h : Alike e (.break id target)) :
    ∃ i, e = .break i target := by
  cases h.twin
  exact ⟨_, rfl⟩

theorem eq_continue_of_alike {id : Nat} {target : Label} (h : Alike e (.continue id target)) :
    ∃ i, e = .continue i target := by
  cases h.twin
  exact ⟨_, rfl⟩

end Alike

/-! ### What a rendering reaches -/

/-- Whether a rendering of `root` shows a node under the given nodes, the nearest of them first. -/
inductive Reaches (root : Expr) : List Expr → Expr → Prop
  | root : Reaches root [] root
  | step {path : List Expr} {e c : Expr} (h : Reaches root path e) (hc : c ∈ e.shown) :
    Reaches root (e :: path) c

theorem Reaches.mem_nodes {root e : Expr} {path : List Expr} (h : root.Reaches path e) :
    e ∈ root.nodes := by
  induction h with
  | root => exact self_mem_nodes root
  | step h hc ih => exact nodes_trans root ih (mem_nodes_of_mem_shown hc)

theorem Reaches.cases_root {root e : Expr} {path : List Expr} (h : root.Reaches path e) :
    (path = [] ∧ e = root) ∨
      ∃ c ∈ root.shown, ∃ rest, c.Reaches rest e ∧ path = rest ++ [root] := by
  induction h with
  | root => exact Or.inl ⟨rfl, rfl⟩
  | step h hc ih =>
    right
    rcases ih with ⟨rfl, rfl⟩ | ⟨d, hd, rest, hr, rfl⟩
    · exact ⟨_, hc, [], .root, rfl⟩
    · exact ⟨d, hd, _, .step hr hc, rfl⟩

/-- Of a tree in which no node stands at two places the parts below the shown nodes are such trees. -/
theorem IsTree.shown {e : Expr} (h : e.IsTree) :
    (∀ f ∈ e.children.flatMap nodes, e.id ≠ f.id) ∧ (∀ c ∈ e.shown, c.IsTree) ∧
      e.shown.Pairwise fun c d => ∀ x ∈ c.nodes, ∀ y ∈ d.nodes, x.id ≠ y.id := by
  rw [IsTree, nodes_eq, List.pairwise_cons] at h
  have hshown := h.2.sublist (shown_nodes_sublist e)
  rw [List.pairwise_flatMap] at hshown
  exact ⟨h.1, hshown.1, hshown.2⟩

theorem Reaches.isTree {root e : Expr} {path : List Expr} (ht : root.IsTree) (h : root.Reaches path e) :
    e.IsTree := by
  induction h with
  | root => exact ht
  | step _ hc ih => exact ih.shown.2.1 _ hc

theorem Reaches.unique {root e f : Expr} {p q : List Expr} (ht : root.IsTree)
    (he : root.Reaches p e) (hf : root.Reaches q f) (hid : e.id = f.id) : p = q ∧ e = f := by
  induction hn : root.height using Nat.strongRecOn generalizing root p q with
  | ind n ih =>
    subst hn
    obtain ⟨hroot, hshown, happart⟩ := ht.shown
    have below : ∀ {c : Expr} {rest : List Expr} {x : Expr}, c ∈ root.shown → c.Reaches rest x →
        root.id ≠ x.id := by
      intro c rest x hc hx
      apply hroot
      exact (shown_nodes_sublist root).subset (List.mem_flatMap.mpr ⟨c, hc, hx.mem_nodes⟩)
    rcases he.cases_root with ⟨rfl, rfl⟩ | ⟨c, hc, rest, hrest, rfl⟩ <;>
      rcases hf.cases_root with ⟨rfl, rfl⟩ | ⟨d, hd, rest', hrest', rfl⟩
    · exact ⟨rfl, rfl⟩
    · exact absurd hid (below hd hrest')
    · exact absurd hid.symm (below hc hrest)
    · obtain rfl : c = d := by
        apply Classical.byContradiction
        intro hne
        have hall := List.Pairwise.forall_of_forall_of_flip
          (R := fun c d => c ≠ d → ∀ x ∈ c.nodes, ∀ y ∈ d.nodes, x.id ≠ y.id)
          (fun _ _ h => absurd rfl h) (happart.imp fun {c d} h (_ : c ≠ d) => h)
          (happart.imp fun {c d} h (_ : d ≠ c) x hx y hy => (h y hy x hx).symm)
        exact hall hc hd hne e hrest.mem_nodes f hrest'.mem_nodes hid
      obtain ⟨rfl, rfl⟩ := ih c.height (height_lt_of_mem_shown hc) (hshown c hc) hrest hrest' rfl
      exact ⟨rfl, rfl⟩

/-- The place of a node under the given nodes. -/
def place (path : List Expr) (e : Expr) : MemoKey :=
  (e.id, path.head?.map Expr.id)

/-- A place tells the node there and the node above it. -/
theorem eq_of_place_eq {g e f : Expr} {p q : List Expr} (hg : g.NodesCoherent) (he : g.Reaches p e)
    (hf : g.Reaches q f) (h : e.place p = f.place q) : e = f ∧ p.head? = q.head? := by
  have hid : e.id = f.id := congrArg Prod.fst h
  have hhead : p.head?.map Expr.id = q.head?.map Expr.id := congrArg Prod.snd h
  refine ⟨hg e he.mem_nodes f hf.mem_nodes hid, ?_⟩
  cases he with
  | root =>
    cases hf with
    | root => rfl
    | step => cases hhead
  | step he =>
    cases hf with
    | root => cases hhead
    | step hf =>
      have hparent := Option.some.inj hhead
      exact congrArg some (hg _ he.mem_nodes _ hf.mem_nodes hparent)

end Expr

theorem Session.keyOf_eq {s : Session} {path : List Expr} (h : s.path = path) (e : Expr) :
    s.keyOf e = e.place path := by
  subst h
  rfl

end ExprText
