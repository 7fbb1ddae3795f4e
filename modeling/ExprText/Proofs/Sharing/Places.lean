import ExprText.Proofs.Sharing.Replay

/-! # Places in a graph and in its unfolding

Every node that a graph shows has a copy in the tree that unfolds it. A node that is shown at several
places has a copy at each of them; the graph remembers one text for all places under one parent. That
is right as long as the node and its copies see the same above them. -/

namespace ExprText

namespace Expr

/-- Whether a node of `g` under the given nodes has a node of `t` under its nodes as its copy, and what
    is declared where they are shown. -/
inductive Copies (g t : Expr) : List Expr → Expr → Declared → List Expr → Expr → Prop
  | root : Copies g t [] g (fun _ => False) [] t
  | step {p e d p' e'} (h : Copies g t p e d p' e') {i : Nat} {x x' : Expr × Declared}
    (hx : (e.steps Declared.insert d)[i]? = some x)
    (hx' : (e'.steps Declared.insert d)[i]? = some x') :
    Copies g t (e :: p) x.1 x.2 (e' :: p') x'.1

/-- Whether, wherever a node of `g` is shown twice under one parent, it sees above it at the one place
    what its copy sees at the other, and finds the same of its locals declared. -/
def SharesSafely (g t : Expr) : Prop :=
  ∀ ⦃p e d p' e' q d' q' f⦄, Copies g t p e d p' e' → Copies g t q e d' q' f → p.head? = q.head? →
    e.SeenAlike p q' f ∧ AgreeOn e.locals (d, d')

section Copies
variable {g t e e' f : Expr} {p p' q q' : List Expr} {d d' : Declared}

theorem Alike.locals (h : Alike e f) : e.locals = f.locals := by
  cases h.twin <;> rfl

theorem Copies.alike (hgt : Alike g t) (h : Copies g t p e d p' e') : Alike e e' := by
  induction h with
  | root => exact hgt
  | @step _ _ d _ _ h _ _ _ hx hx' ih => exact (forall₂_getElem? (ih.steps _ d) hx hx').1

theorem Copies.reaches (h : Copies g t p e d p' e') : g.Reaches p e := by
  induction h with
  | root => exact .root
  | step _ hx _ ih => exact .step ih (mem_shown_of_mem_steps _ (List.mem_of_getElem? hx))

theorem SeenAlike.join {k : Expr} {r : List Expr} (h : e.SeenAlike p q f) (h' : e.SeenAlike p r k)
    (hf : Alike e f) (hk : Alike e k) : f.SeenAlike q r k where
  wraps := h.wraps.symm.trans h'.wraps
  keeps hcall hany := by
    have hcall' : e.isCall = true := hf.isCall.trans hcall
    have hany' : e.shown.any isCall = true := by
      rw [any_isCall_alike hf.shown]
      exact hany
    exact (h.keeps hcall' hany').symm.trans (h'.keeps hcall' hany')
  chains hcall hany := by
    have hcall' : e.isCall = true := hf.isCall.trans hcall
    have hany' : e.receiver?.any isCall = true := by
      rw [hf.receiver?_any_isCall]
      exact hany
    exact (h.chains hcall' hany').symm.trans (h'.chains hcall' hany')
  position hblock :=
    (h.position (hf.isBlock.trans hblock)).symm.trans (h'.position (hf.isBlock.trans hblock))
  breaks id target hb := by
    subst hb
    obtain ⟨i, rfl⟩ := eq_break_of_alike hf
    exact (h.breaks i target rfl).symm.trans (h'.breaks i target rfl)
  continues id target hb := by
    subst hb
    obtain ⟨i, rfl⟩ := eq_continue_of_alike hf
    exact (h.continues i target rfl).symm.trans (h'.continues i target rfl)

end Copies

/-! ### Copies of one node -/

/-- Whether two nodes of `t` are copies of one node of `g` that it shows under one parent. -/
def Shared (g t : Expr) (p' : List Expr) (e' : Expr) (d : Declared) (q' : List Expr) (f : Expr)
    (d' : Declared) : Prop :=
  ∃ p e q, Copies g t p e d p' e' ∧ Copies g t q e d' q' f ∧ p.head? = q.head?

theorem fst_eq_of_getElem?_steps {e : Expr} {d d' : Declared} {i : Nat} {x y : Expr × Declared}
    (hx : (e.steps Declared.insert d)[i]? = some x) (hy : (e.steps Declared.insert d')[i]? = some y) :
    x.1 = y.1 := by
  have hx' : e.shown[i]? = some x.1 := by
    rw [← steps_fst Declared.insert e d, List.getElem?_map, hx, Option.map_some]
  have hy' : e.shown[i]? = some y.1 := by
    rw [← steps_fst Declared.insert e d', List.getElem?_map, hy, Option.map_some]
  exact Option.some.inj (hx'.symm.trans hy')

/-- The copies of one node see the same above them and show copies of one node each. -/
theorem shared_occurrences {g t : Expr} (hgt : Alike g t)
    (hext : ∀ e ∈ g.nodes, e.kind ≠ .extension) (hsafe : SharesSafely g t) :
    Occurrences (Shared g t) where
  alike := by
    rintro p' e' d q' f d' ⟨p, e, q, he, hf, -⟩
    exact (he.alike hgt).symm.trans (hf.alike hgt)
  seen := by
    rintro p' e' d q' f d' ⟨p, e, q, he, hf, hhead⟩
    exact (hsafe he he rfl).1.join (hsafe he hf hhead).1 (he.alike hgt) (hf.alike hgt)
  plain := by
    rintro p' e' d q' f d' ⟨p, e, q, he, -, -⟩
    rw [← (he.alike hgt).kind]
    exact hext e he.reaches.mem_nodes
  agree := by
    rintro p' e' d q' f d' ⟨p, e, q, he, hf, hhead⟩
    rw [← (he.alike hgt).locals]
    exact (hsafe he hf hhead).2
  step := by
    rintro p' e' d q' f d' ⟨p, e, q, he, hf, -⟩ i x x' hx hx'
    obtain ⟨y, hy, -, hmoment⟩ := exists_getElem?_of_forall₂ ((he.alike hgt).steps _ d) hx
    obtain ⟨y', hy', -, hmoment'⟩ := exists_getElem?_of_forall₂ ((hf.alike hgt).steps _ d') hx'
    refine ⟨e :: p, y.1, e :: q, hmoment ▸ .step he hy hx, ?_, rfl⟩
    rw [fst_eq_of_getElem?_steps hy hy', ← hmoment']
    exact .step hf hy' hx'

/-! ### Trees -/

section Tree
variable {t e e' : Expr} {p p' : List Expr} {d : Declared}

theorem IsTree.shown_nodup (ht : t.IsTree) : t.shown.Nodup := by
  refine ht.shown.2.2.imp ?_
  rintro c _ h rfl
  exact h c (self_mem_nodes c) c (self_mem_nodes c) rfl

theorem IsTree.nodesCoherent (ht : t.IsTree) : t.NodesCoherent := by
  intro a ha b hb hid
  have hall := List.Pairwise.forall_of_forall_of_flip (R := fun a b : Expr => a ≠ b → a.id ≠ b.id)
    (fun _ _ h => absurd rfl h) (ht.imp fun {a b} h (_ : a ≠ b) => h)
    (ht.imp fun {a b} h (_ : b ≠ a) => h.symm)
  apply Classical.byContradiction
  intro hne
  exact hall ha hb hne hid

theorem Copies.self (h : Copies t t p e d p' e') : p = p' ∧ e = e' := by
  induction h with
  | root => exact ⟨rfl, rfl⟩
  | step _ hx hx' ih =>
    obtain ⟨rfl, rfl⟩ := ih
    rw [hx] at hx'
    cases hx'
    exact ⟨rfl, rfl⟩

/-- What is declared where a node of a tree is shown is known from its place. -/
theorem Copies.declared_unique (ht : t.IsTree) (h : Copies t t p e d p' e') {d' : Declared}
    {q' : List Expr} {f : Expr} (h' : Copies t t p e d' q' f) : d = d' := by
  induction h generalizing d' q' f with
  | root =>
    cases h'
    rfl
  | @step p e d p' e' h i x x' hx hx' ih =>
    generalize hc : x.1 = c at h'
    cases h' with
    | @step _ _ d₂ _ _ h₂ j y y' hy hy' =>
      obtain rfl := ih h₂
      have hx₁ : e.shown[i]? = some x.1 := by
        rw [← steps_fst Declared.insert e d, List.getElem?_map, hx, Option.map_some]
      have hy₁ : e.shown[j]? = some y.1 := by
        rw [← steps_fst Declared.insert e d, List.getElem?_map, hy, Option.map_some]
      obtain ⟨hi, -⟩ := List.getElem?_eq_some_iff.mp hx₁
      obtain rfl : i = j := by
        refine (List.getElem?_inj hi (h.reaches.isTree ht).shown_nodup).mp ?_
        rw [hx₁, hy₁, hc]
      rw [hx] at hy
      cases hy
      rfl

theorem sharesSafely_self (ht : t.IsTree) : SharesSafely t t := by
  intro p e d p' e' q d' q' f he hf _
  obtain ⟨rfl, -⟩ := he.reaches.unique ht hf.reaches rfl
  obtain rfl := he.declared_unique ht hf
  obtain ⟨rfl, rfl⟩ := hf.self
  exact ⟨⟨rfl, fun _ _ => rfl, fun _ _ => Iff.rfl, fun _ => rfl, fun _ _ _ => rfl,
    fun _ _ _ => rfl⟩, fun _ _ => Iff.rfl⟩

end Tree

end Expr

end ExprText
