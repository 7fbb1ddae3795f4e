import ExprText.Name.Table

/-! # Trees and graphs

How nodes lie below each other. A tree in which one node stands at several places is a graph; it is
coherent when its identities tell its nodes, its variables and its captured objects apart. -/

namespace ExprText.Expr

/-! ### Nodes below a node -/

theorem nodesOfAll_eq : ∀ es : List Expr, nodesOfAll es = es.flatMap nodes
  | [] => rfl
  | e :: es => by rw [nodesOfAll, nodesOfAll_eq es, List.flatMap_cons]

theorem nodesOf_eq : ∀ e : Option Expr, nodesOf e = e.toList.flatMap nodes
  | none => rfl
  | some e => by simp [nodesOf]

theorem nodes_eq (e : Expr) : e.nodes = e :: e.children.flatMap nodes := by
  cases e <;> simp [nodes, children, nodesOfAll_eq, nodesOf_eq]

theorem self_mem_nodes (e : Expr) : e ∈ e.nodes := by
  rw [nodes_eq]
  exact List.mem_cons_self

theorem mem_nodes_of_mem_children {e c x : Expr} (hc : c ∈ e.children) (hx : x ∈ c.nodes) :
    x ∈ e.nodes := by
  rw [nodes_eq]
  exact List.mem_cons_of_mem _ (List.mem_flatMap.mpr ⟨c, hc, hx⟩)

/-! ### Induction over children -/

theorem height_le_heightOfAll {c : Expr} : ∀ {es : List Expr}, c ∈ es → c.height ≤ heightOfAll es
  | [], h => by simp at h
  | e :: es, h => by
    rw [heightOfAll]
    rcases List.mem_cons.mp h with rfl | h
    · exact Nat.le_max_left _ _
    · exact Nat.le_trans (height_le_heightOfAll h) (Nat.le_max_right _ _)

theorem height_le_heightOf {c : Expr} : ∀ {e : Option Expr}, c ∈ e.toList → c.height ≤ heightOf e
  | none, h => by simp at h
  | some e, h => by
    obtain rfl := List.mem_singleton.mp h
    exact Nat.le_refl _

theorem height_lt_of_mem_children {e c : Expr} (h : c ∈ e.children) : c.height < e.height := by
  cases e with
  | constant | «variable» | «break» | «continue» | default | extension => simp [children] at h
  | binary | unary | assign | conditional | lambda =>
    simp only [children, List.mem_cons, List.not_mem_nil, or_false] at h
    simp only [height]
    grind
  | call _ subject _ args =>
    rw [height]
    rcases List.mem_append.mp h with h | h
    · have := height_le_heightOf h
      omega
    · have := height_le_heightOfAll h
      omega
  | invoke _ subject args | index _ subject args =>
    rw [height]
    rcases List.mem_cons.mp h with rfl | h
    · omega
    · have := height_le_heightOfAll h
      omega
  | new | newArray | block =>
    rw [height]
    exact Nat.lt_succ_of_le (height_le_heightOfAll h)
  | member | loop | «return» =>
    rw [height]
    exact Nat.lt_succ_of_le (height_le_heightOf h)

/-- What holds of a node whenever it holds of its children holds of every node. -/
theorem childInduction {P : Expr → Prop} (step : ∀ e, (∀ c ∈ e.children, P c) → P e) (e : Expr) :
    P e := by
  induction hn : e.height using Nat.strongRecOn generalizing e with
  | ind n ih =>
    refine step e fun c hc => ih c.height ?_ c rfl
    rw [← hn]
    exact height_lt_of_mem_children hc

theorem nodes_trans {a b : Expr} (root : Expr) (hb : b ∈ root.nodes) (ha : a ∈ b.nodes) :
    a ∈ root.nodes := by
  induction root using childInduction with
  | step root ih =>
    rw [nodes_eq] at hb
    rcases List.mem_cons.mp hb with rfl | hb
    · exact ha
    · obtain ⟨c, hc, hb⟩ := List.mem_flatMap.mp hb
      exact mem_nodes_of_mem_children hc (ih c hc hb)

theorem children_mem_nodes {root e c : Expr} (he : e ∈ root.nodes) (hc : c ∈ e.children) :
    c ∈ root.nodes :=
  nodes_trans root he (mem_nodes_of_mem_children hc (self_mem_nodes c))

/-! ### Identities -/

/-- The names that a node can ask for by itself. -/
def requests : Expr → List NameRequest
  | .variable _ target => [.variable target]
  | .lambda _ params _ _ => params.map .variable
  | .block _ locals _ _ => locals.map .variable
  | .constant _ (.captured object) _ => [.captured object]
  | .member _ (some subject) target => (subject.captured?.map (.capturedMember · target.name)).toList
  | _ => []

/-- Whether a name that a rendering asks for is about something that occurs in a graph. -/
def Mentions (root : Expr) (request : NameRequest) : Prop :=
  ∃ e ∈ root.nodes, request ∈ e.requests

/-- Nodes with one identity are one node. -/
def NodesCoherent (root : Expr) : Prop :=
  ∀ a ∈ root.nodes, ∀ b ∈ root.nodes, a.id = b.id → a = b

/-- Nodes with one identity are one node, and so are variables and captured objects. -/
structure Coherent (root : Expr) : Prop where
  node : root.NodesCoherent
  name : ∀ r q, root.Mentions r → root.Mentions q → r.key = q.key → r = q

/-- The first node of a graph that has a given identity. -/
def nodeAt (root : Expr) (id : Nat) : Expr :=
  (root.nodes.find? (·.id == id)).getD root

theorem NodesCoherent.of_nodeAt {root : Expr}
    (h : root.nodes.map (fun e => root.nodeAt e.id) = root.nodes) : root.NodesCoherent := by
  have hnode : ∀ e ∈ root.nodes, root.nodeAt e.id = e :=
    List.map_inj_left.mp (h.trans (List.map_id _).symm)
  intro a ha b hb hid
  rw [← hnode a ha, ← hnode b hb, hid]

theorem NodesCoherent.coherent {root : Expr} (h : root.NodesCoherent)
    (requestOf : NameKey → NameRequest)
    (hrequest : ∀ e ∈ root.nodes, ∀ r ∈ e.requests, requestOf r.key = r) : root.Coherent where
  node := h
  name r q hr hq hkey := by
    obtain ⟨a, ha, hr⟩ := hr
    obtain ⟨b, hb, hq⟩ := hq
    rw [← hrequest a ha r hr, ← hrequest b hb q hq, hkey]

end ExprText.Expr
