import ExprText.Proofs.Lockstep.Alone
import ExprText.Proofs.Names.Spelling
import ExprText.Proofs.Names.Unique

/-! # Names in a rendering

A rendering asks only for names of what occurs in its graph, so its name table stays sound. -/

namespace ExprText

open NameTable

/-- All questions so far were about what occurs in a graph, and the table is the one they made. -/
def Session.AsksAbout (root : Expr) (s : Session) : Prop :=
  (∀ r ∈ s.asked, root.Mentions r) ∧
    s.names = ((({} : NameTable).reserve root).answerAll s.asked.reverse).2

theorem Session.AsksAbout.ask {root : Expr} {s : Session} {r : NameRequest} (h : s.AsksAbout root)
    (hr : root.Mentions r) : (s.ask r).2.AsksAbout root := by
  refine ⟨List.forall_mem_cons.mpr ⟨hr, h.1⟩, ?_⟩
  have hnames : (s.ask r).2.names = (s.names.answer r).2 := rfl
  have hasked : (s.ask r).2.asked.reverse = s.asked.reverse ++ [r] := List.reverse_cons
  rw [hnames, hasked, answerAll_concat, ← h.2]

theorem asksAbout_invariant (root : Expr) :
    Invariant root False (fun _ _ => True) (Session.AsksAbout root) where
  path _ _ h := h
  scopes _ _ h := h
  ask _ _ hr h := h.ask hr
  remember _ _ _ _ _ _ h := h
  known _ _ _ _ _ _ _ _ := trivial
  shows _ _ h := h.elim

/-- A property of names that every answer about a graph keeps is one of all names that a rendering gives. -/
theorem gave_native {root : Expr} (hnative : ∀ e ∈ root.nodes, e.IsNative) {env : Env}
    (henv : env.registry = .standard) {P : String → Prop}
    (hkeep : ∀ (t : NameTable) r, root.Mentions r → t.Gave P → (t.answer r).2.Gave P) :
    ((RenderM.textOf root).runOn env (.start root)).2.names.Gave P := by
  have inv : Invariant root False (fun _ _ => True) fun s => s.names.Gave P :=
    { path := fun _ _ h => h
      scopes := fun _ _ h => h
      ask := fun s r hr h => hkeep s.names r hr h
      remember := fun _ _ _ _ _ _ h => h
      known := fun _ _ _ _ _ _ _ _ => trivial
      shows := fun _ _ h => h.elim }
  have hstart : (Session.start root).names.Gave P := fun key name hkey => by cases hkey
  exact (inv.visit_native env henv hnative root.height .root (Nat.le_refl _) (.start root) rfl hstart).2.1

theorem gave_textOf {root : Expr} (hext : ∀ e ∈ root.nodes, e.kind ≠ .extension) {env : Env}
    (henv : env.registry = .standard) {P : String → Prop}
    (hkeep : ∀ (t : NameTable) r, root.Mentions r → t.Gave P → (t.answer r).2.Gave P) :
    ((RenderM.textOf root).runOn env (.start root)).2.names.Gave P :=
  gave_native (fun c hc => .of_kind (hext c hc)) henv hkeep

/-- The names of a graph: whatever is asked about it and in whatever order, the same question gets the
    same answer, a generated name is the name of nothing else, and it is no keyword. A rendering asks
    about nothing else. -/
theorem generated_names_unique (root : Expr) (hext : ∀ e ∈ root.nodes, e.kind ≠ .extension)
    (hc : root.Coherent) :
    (∀ requests, (∀ r ∈ requests, root.Mentions r) →
      ∀ given, given = ((({} : NameTable).reserve root).answerAll requests).1 →
        (∀ r m n, (r, m) ∈ given → (r, n) ∈ given → m = n) ∧
        (∀ r q m n, (r, m) ∈ given → (q, n) ∈ given → r.explicit? = none → r.key ≠ q.key → m ≠ n) ∧
        ∀ r m, (r, m) ∈ given → r.explicit? = none → m ∉ Name.keywords) ∧
    ∀ settings qualified,
      ((RenderM.textOf root).runOn { settings, qualified } (.start root)).2.AsksAbout root := by
  constructor
  · rintro requests hm given rfl
    obtain ⟨hsound, -, hgives⟩ := (sound_reserve root).answerAll hc hm
    refine ⟨?_, ?_, ?_⟩
    · intro r m n hr hr'
      exact (hgives r m hr).2.unique (hgives r n hr').2
    · rintro r q m n hr hq hgen hkey rfl
      obtain ⟨hrm, hr⟩ := hgives r m hr
      obtain ⟨hqm, hq⟩ := hgives q m hq
      rw [gives_generated hgen] at hr
      cases hex : q.explicit? with
      | none =>
        rw [gives_generated hex] at hq
        exact hkey (hsound.once r m hrm hgen hr q.key hq).symm
      | some name =>
        rw [Gives, hex] at hq
        exact hsound.apart r m hrm hgen hr q hqm (hq ▸ hex)
    · intro r m hr hgen hkeyword
      obtain ⟨hrm, hr⟩ := hgives r m hr
      have := hsound.notKeyword r m hrm hgen ((gives_generated hgen).mp hr)
      rw [Name.isKeyword, List.contains_iff_mem.mpr hkeyword] at this
      cases this
  · intro settings qualified
    have hstart : (Session.start root).AsksAbout root := ⟨by simp [Session.start], rfl⟩
    exact ((asksAbout_invariant root).visit { settings, qualified } (by simp) hext root.height
      .root (Nat.le_refl _) (.start root) rfl hstart).2.1

section Clash

private def unnamed : Variable := ⟨0, none, .int⟩

/-- A variable that has the name which the other one would get. -/
private def named : Variable := ⟨1, some "intValue", .int⟩

private def object : Captured := ⟨0, .int⟩

private def clash : Expr :=
  .lambda 0 [unnamed] (.binary 1 .add (.binary 2 .add (.variable 3 unnamed) (.variable 4 named) .int)
    (.constant 5 (.captured object) .int) .int) .int

private theorem clash_plain : ∀ e ∈ clash.nodes, e.kind ≠ .extension := by
  simp [clash, Expr.nodes, Expr.kind]

private theorem clash_coherent : clash.Coherent := by
  have hnode : clash.NodesCoherent := .of_nodeAt rfl
  refine hnode.coherent (fun key => if key = .variable 0 then .variable unnamed
    else if key = .variable 1 then .variable named else .captured object) ?_
  simp [clash, Expr.nodes, Expr.requests, NameRequest.key, unnamed, named, object]

/-- The name that the unnamed variable gets is that of neither the other variable nor the object. -/
theorem generated_names_unique_clash :
    (∀ e ∈ clash.nodes, e.kind ≠ .extension) ∧ clash.Coherent ∧
      ∀ given, given = ((({} : NameTable).reserve clash).answerAll
        [.variable unnamed, .variable named, .captured object, .variable unnamed]).1 →
        (∀ m n, (.variable unnamed, m) ∈ given → (.variable unnamed, n) ∈ given → m = n) ∧
        ∀ q m n, (.variable unnamed, m) ∈ given → (q, n) ∈ given → q.key ≠ .variable 0 → m ≠ n := by
  refine ⟨clash_plain, clash_coherent, fun given hgiven => ?_⟩
  obtain ⟨hstable, hunique, -⟩ := (generated_names_unique clash clash_plain clash_coherent).1
    [.variable unnamed, .variable named, .captured object, .variable unnamed]
    (by simp [Expr.Mentions, clash, Expr.nodes, Expr.requests]) given hgiven
  exact ⟨hstable _, fun q m n hm hn hq => hunique _ q m n hm hn rfl hq.symm⟩

end Clash

end ExprText
