import ExprText.Proofs.Locals.Writing

/-! # Composed texts

The text of a node is composed of the texts of the nodes that it shows. What a whole rendering remembers
of these in the end is all that the renderer of the node needs: run again, with these texts in the place
of the nodes and with the names that were given in the end, it makes the same text. So a property of the
texts of a tree follows from what each renderer does with texts, one node at a time. -/

namespace ExprText

open Render RenderM

/-- Shows a node by the text that is remembered of it under the given nodes. -/
def Session.recall (s : Session) (path : List Expr) : Visit :=
  fun c => pure (s.textAt path c)

/-- Whether `text` is composed of what is remembered of the nodes that `e` shows, where the variables with
    the given identities are declared. -/
structure Session.Composes (s : Session) (env : Env) (path : List Expr) (known : List Nat) (e : Expr)
    (text : String) : Prop where
  fits : e.Fits path
  remembered : ∀ c ∈ e.shown, (s.memo.lookup (c.place (e :: path))).isSome = true
  again : ∀ u, u.Stands (e :: path) (· ∈ known) → s.names.Extends u.names →
    ∃ u', (e.kind.renderer.render (s.recall (e :: path)) e).runOn env u = (.ok text, u')

/-- A session in which a composed text is made again. -/
theorem Session.Composes.exists_run {s : Session} {env : Env} {path : List Expr} {known : List Nat} {e : Expr}
    {text : String} (h : s.Composes env path known e text) : ∃ u v : Session, u.path = e :: path ∧
      u.names = s.names ∧
      (e.kind.renderer.render (s.recall (e :: path)) e).runOn env u = (.ok text, v) := by
  let u : Session := { path := e :: path, names := s.names, scopes := [known] }
  have hstands : u.Stands (e :: path) (· ∈ known) := ⟨rfl, by simp [u, Session.isDeclared], by simp [u]⟩
  obtain ⟨v, hrun⟩ := h.again u hstands (.refl _)
  exact ⟨u, v, rfl, rfl, hrun⟩

/-- Whether all that a session remembers is composed of what `final` remembers. -/
def Session.ComposedIn (s : Session) (root : Expr) (env : Env) (final : Session) : Prop :=
  s.Grows final → ∀ p e text, root.Reaches p e → s.memo.lookup (e.place p) = some text →
    ∃ known, root.Meets p e known ∧ final.Composes env p known e text

section Sessions
variable {root : Expr} {env : Env} {final s t : Session} {path : List Expr} {known : List Nat}

theorem Session.ComposedIn.change (h : s.ComposedIn root env final) (hgrows : s.Grows t)
    (hmemo : t.memo = s.memo) : t.ComposedIn root env final := by
  intro ht p e text he htext
  rw [hmemo] at htext
  exact h (hgrows.trans ht) p e text he htext

theorem Session.Stands.declareId (h : s.Stands path (· ∈ known)) (v : Variable) :
    (s.declare v).2.Stands path (· ∈ ExprText.declareId v known) := by
  obtain ⟨hstands, -⟩ := h.declare v
  refine ⟨hstands.path, fun w => ?_, hstands.opened⟩
  rw [hstands.declared w, mem_declareId]
  rfl

theorem Session.Grows.remember {key : MemoKey} {text : String} (hnew : s.memo.lookup key = none) :
    s.Grows (s.pop.remember key text) := by
  refine ⟨.refl _, fun key' text' hkey => ?_⟩
  rw [Session.remember, lookup_cons_eq, if_neg]
  · exact hkey
  · rintro rfl
    rw [hnew] at hkey
    cases hkey

end Sessions

/-! ### Running a renderer again -/

/-- What is left of two sessions after an action on the one was run again on the other. -/
structure Recalled (root : Expr) (env : Env) (final : Session) (path : List Expr) (known : List Nat)
    (s t u v : Session) : Prop where
  left : t.Records root env path known
  composed : t.ComposedIn root env final
  right : v.Stands path (· ∈ known)
  leftTail : t.scopes.tail = s.scopes.tail
  rightTail : v.scopes.tail = u.scopes.tail
  grows : s.Grows t
  unchanged : v.names = u.names

/-- What `x` did under the given nodes is done again by `y`, once all is remembered and named that is in
    the end. The session that `y` leaves is told beforehand. -/
def Recalls (root : Expr) (env : Env) (final : Session) (path : List Expr) (α : Type) (known : List Nat)
    (P : Prop) (Q : α → α → List Nat → Prop) (x y : RenderM α) : Prop :=
  ∀ s u : Session, s.Records root env path known → s.ComposedIn root env final →
    u.Stands path (· ∈ known) → ∀ a t, x.runOn env s = (.ok a, t) →
    ∃ b n v, Q a b n ∧ Recalled root env final path n s t u v ∧
      (t.Grows final → final.names.Extends u.names → P ∧ y.runOn env u = (.ok b, v))

section Rules
variable {root : Expr} {env : Env} {final : Session} {path : List Expr} {known n k : List Nat}
  {s t r u v w : Session}

theorem Recalled.refl (hs : s.Records root env path known) (hc : s.ComposedIn root env final)
    (hu : u.Stands path (· ∈ known)) : Recalled root env final path known s s u u :=
  ⟨hs, hc, hu, rfl, rfl, .of_eq rfl rfl, rfl⟩

theorem Recalled.trans (h : Recalled root env final path n s t u v)
    (h' : Recalled root env final path k t r v w) : Recalled root env final path k s r u w :=
  ⟨h'.left, h'.composed, h'.right, h'.leftTail.trans h.leftTail, h'.rightTail.trans h.rightTail,
    h.grows.trans h'.grows, h'.unchanged.trans h.unchanged⟩

end Rules

theorem recalls_lockstep (root : Expr) (env : Env) (final : Session) (path : List Expr) (e : Expr) :
    Lockstep declareId path path e e (Recalls root env final (e :: path)) where
  alike := .refl e
  seen := ⟨rfl, fun _ _ => rfl, fun _ _ => Iff.rfl, fun _ => rfl, fun _ _ _ => rfl, fun _ _ _ => rfl⟩
  congr hP h s u hs hc hu a t hrun := by
    obtain ⟨b, n, v, hab, hn, hy⟩ := h s u hs hc hu a t hrun
    refine ⟨b, n, v, hab, hn, fun hgrows hnames => ?_⟩
    obtain ⟨hp, hy⟩ := hy hgrows hnames
    exact ⟨hP.mp hp, hy⟩
  answer {_ known _ _ b} h s u hs hc hu a t hrun := by
    cases hrun
    exact ⟨b, known, u, h, .refl hs hc hu, fun _ _ => ⟨trivial, rfl⟩⟩
  sequel {_ _ _ _ _ _ _ _ x y f g} h hf hT s u hs hc hu c r hrun := by
    obtain ⟨a, t, hx, hrun⟩ := exists_of_runOn_bind hrun
    obtain ⟨b, n, v, hab, hn, hy⟩ := h s u hs hc hu a t hx
    obtain ⟨d, k, w, hcd, hk, hg⟩ := hf a b n hab t v hn.left hn.composed hn.right c r hrun
    refine ⟨d, k, w, hcd, hn.trans hk, fun hgrows hnames => ?_⟩
    obtain ⟨hp, hy⟩ := hy (hk.grows.trans hgrows) hnames
    obtain ⟨ht, hg⟩ := hg hgrows (hn.unchanged ▸ hnames)
    exact ⟨⟨hp, (hT hp a).mp ht⟩, by rw [runOn_bind_ok hy, hg]⟩
  refusal cause s u _ _ _ a t hrun := by cases hrun
  reading {known} s u hs hc hu a t hrun := by
    cases hrun
    exact ⟨env, known, u, ⟨⟨rfl, rfl⟩, rfl⟩, .refl hs hc hu, fun _ _ => ⟨trivial, rfl⟩⟩
  looking {known} s u hs hc hu a t hrun := by
    cases hrun
    refine ⟨u, known, u, ⟨⟨hs.stands.path, hu.path, fun v _ => ?_, fun v _ hv => ?_⟩, rfl⟩,
      .refl hs hc hu, fun _ _ => ⟨trivial, rfl⟩⟩
    · rw [Bool.eq_iff_iff, hs.stands.declared v, hu.declared v]
    · exact List.insert_of_mem ((hs.stands.declared v).mp hv)
  declaring {known v} _ s u hs hc hu a t hrun := by
    rw [runOn_modifyGet] at hrun
    cases hrun
    obtain ⟨-, htail, hnames, hmemo, hanswer⟩ := hs.stands.declare v
    obtain ⟨-, htail', hnames', -, hanswer'⟩ := hu.declare v
    refine ⟨(u.declare v).1, declareId v known, (u.declare v).2, ⟨?_, rfl⟩,
      ⟨hs.declare v, hc.change (.of_eq hnames hmemo) hmemo, hu.declareId v, htail, htail',
        .of_eq hnames hmemo, hnames'⟩, fun _ _ => ⟨trivial, runOn_modifyGet _⟩⟩
    rw [hanswer, hanswer', Bool.not_inj_iff, Bool.eq_iff_iff, hs.stands.declared v, hu.declared v]
  asking {known r} _ s u hs hc hu a t hrun := by
    rw [runOn_ask] at hrun
    cases hrun
    have hgrows : s.Grows (s.ask r).2 := .ask s r
    refine ⟨(s.ask r).1, known, { u with asked := r :: u.asked }, ⟨rfl, rfl⟩,
      ⟨hs.ask r, hc.change hgrows rfl, ⟨hu.path, hu.declared, hu.opened⟩, rfl, rfl, hgrows, rfl⟩,
      fun hfinal hnames => ⟨trivial, ?_⟩⟩
    have hagain : u.names.answer r = ((s.names.answer r).1, u.names) :=
      NameTable.answer_again (hfinal.names.trans hnames)
    rw [runOn_ask, Session.ask, hagain]
    rfl
  scoping {_ known _ _ x y} h s u hs hc hu a t hrun := by
    obtain ⟨r, hx, rfl⟩ := exists_of_runOn_between hrun
    obtain ⟨b, n, v, hab, hn, hy⟩ := h s.openScope u.openScope hs.openScope
      (hc.change (.of_eq rfl rfl) rfl) hu.openScope _ r hx
    obtain ⟨hclosed, hscopes⟩ := hs.closeScope hn.left hn.leftTail
    obtain ⟨-, -, hnames, hmemo⟩ := hs.stands.closeScope hn.left.stands hn.leftTail
    obtain ⟨hright, hscopes', hnames', -⟩ := hu.closeScope hn.right hn.rightTail
    have hclose : r.Grows r.closeScope := .of_eq hnames hmemo
    refine ⟨b, known, v.closeScope, hab, ⟨hclosed, hn.composed.change hclose hmemo, hright,
      by rw [hscopes], by rw [hscopes'], .trans ⟨hn.grows.names, hn.grows.memo⟩ hclose,
      hnames'.trans hn.unchanged⟩,
      fun hfinal hgiven => ?_⟩
    obtain ⟨hp, hy⟩ := hy (hclose.trans hfinal) hgiven
    exact ⟨hp, by rw [inScope, runOn_between, hy]⟩

/-! ### Whole renderings -/

section Nodes
variable {root : Expr} {env : Env} (final : Session)

/-- A rendering of a tree remembers texts that are composed of those it remembers in the end. -/
theorem composedIn_visit (htree : root.IsTree) (hnative : ∀ e ∈ root.nodes, e.IsNative)
    (henv : env.registry = .standard) : ∀ (depth : Nat) {path : List Expr} {e : Expr} {known : List Nat},
    root.Meets path e known → e.height ≤ depth → ∀ s t text, s.Records root env path known →
    s.ComposedIn root env final → (visit depth e).runOn env s = (.ok text, t) →
    t.ComposedIn root env final
  | 0, path, e, known, _, hdepth => by
    have : e.height ≠ 0 := by cases e <;> simp [Expr.height]
    omega
  | depth + 1, path, e, known, he, hdepth => by
    intro s t text hs hc hrun
    have hkey := Session.keyOf_eq hs.stands.path e
    cases hmemo : s.memo.lookup (s.keyOf e) with
    | some given =>
      rw [runOn_visit_known hmemo] at hrun
      cases hrun
      exact hc
    | none =>
      have hfind : env.registry.find? e.kind = some (.of e.kind.renderer) := by
        rw [henv, Registry.standard_find?]
      have hv : List.Forall₂ (fun x y => Visits declareId e (Recalls root env final (e :: path))
          (visit depth) (final.recall (e :: path))
          (fun c => (final.memo.lookup (c.place (e :: path))).isSome = true) x.2 x.1 y.1)
          (e.steps declareId known) (e.steps declareId known) := by
        refine List.forall₂_same.mpr fun x hx => ⟨Expr.mem_shown_of_mem_steps _ hx, .refl _, ?_⟩
        have hlt := Expr.height_lt_of_mem_shown (Expr.mem_shown_of_mem_steps _ hx)
        intro s u hs hc hu a t hrun
        obtain ⟨ht, hgrows, htail, htext, hnonempty⟩ :=
          watches_visit htree hnative henv depth (.step he hx) (by omega) s t a hs hrun
        have hcomposed := composedIn_visit htree hnative henv depth (.step he hx) (by omega) s t a hs hc hrun
        refine ⟨a, x.2, u, ⟨⟨rfl, rfl⟩, fun op hop hempty => absurd hempty (hnonempty op hop)⟩,
          ⟨ht, hcomposed, hu, htail, rfl, hgrows, rfl⟩, fun hfinal _ => ?_⟩
        have hkept := hfinal.memo _ _ htext
        refine ⟨by rw [hkept]; rfl, ?_⟩
        rw [Session.recall, runOn_pure, Session.textAt, hkept]
        rfl
      rw [runOn_visit_new hmemo hfind] at hrun
      rw [hkey] at hmemo hrun
      have hpush := hs.push hmemo
      have hpushed : (s.push e).ComposedIn root env final := hc.change (.of_eq rfl rfl) rfl
      rcases hrender : (e.kind.renderer.render (visit depth) e).runOn env (s.push e) with ⟨fault | text', r⟩
      · simp only [Registration.of, hrender] at hrun
        cases hrun
      · simp only [Registration.of, hrender] at hrun
        cases hrun
        have hagain : ∀ u : Session, u.Stands (e :: path) (· ∈ known) → ∃ v,
            Recalled root env final (e :: path) known (s.push e) r u v ∧
            (r.Grows final → final.names.Extends u.names →
              (e.Fits path ∧ ∀ c ∈ e.shown, (final.memo.lookup (c.place (e :: path))).isSome = true) ∧
              (e.kind.renderer.render (final.recall (e :: path)) e).runOn env u = (.ok text, v)) := by
          intro u hu
          obtain ⟨_, _, v, ⟨⟨rfl, rfl⟩, -⟩, hn, hy⟩ :=
            (recalls_lockstep root env final path e).render_native (hnative e he.reaches.mem_nodes) hv (s.push e) u
              hpush hpushed hu _ r hrender
          exact ⟨v, hn, hy⟩
        obtain ⟨_, hrecalled, -⟩ := hagain _ hpush.stands
        have hnew : r.memo.lookup (e.place path) = none :=
          hrecalled.left.unseen e path (List.suffix_refl _)
        have hgrows : r.Grows (r.pop.remember (e.place path) text) := .remember hnew
        intro hfinal p f text' hf htext
        rw [Session.remember, lookup_cons_eq] at htext
        split at htext
        · next hplace =>
          cases htext
          obtain ⟨rfl, rfl⟩ := hf.unique htree he.reaches (congrArg Prod.fst hplace)
          have hstands : { s.push f with names := final.names }.Stands (f :: p) (· ∈ known) :=
            ⟨hpush.stands.path, hpush.stands.declared, hpush.stands.opened⟩
          obtain ⟨_, -, hfirst⟩ := hagain _ hstands
          obtain ⟨⟨hfits, hremembered⟩, -⟩ := hfirst (hgrows.trans hfinal) (.refl _)
          refine ⟨known, he, hfits, hremembered, fun u hu hnames => ?_⟩
          obtain ⟨v, -, hy⟩ := hagain u hu
          exact ⟨v, (hy (hgrows.trans hfinal) hnames).2⟩
        · exact hrecalled.composed (hgrows.trans hfinal) p f text' hf htext

end Nodes

section Trees
variable {root : Expr} {env : Env} (htree : root.IsTree) (henv : env.registry = .standard) {text : String}
  {s : Session} (hrun : (RenderM.textOf root).runOn env (.start root) = (.ok text, s))
include htree henv hrun

/-- A successful rendering of a tree remembers the text that it makes of it. -/
theorem remembered_root (hnative : ∀ e ∈ root.nodes, e.IsNative) :
    s.memo.lookup (root.place []) = some text := by
  obtain ⟨-, -, -, htext, -⟩ := watches_visit htree hnative henv root.height .root (Nat.le_refl _) _ _ _
    (.start root env) hrun
  exact htext

variable {path : List Expr} {e : Expr} (he : root.Reaches path e)
include he

/-- The texts that a successful rendering of a tree remembers are composed of each other. -/
theorem composes_native (hnative : ∀ e ∈ root.nodes, e.IsNative) {given : String}
    (hgiven : s.memo.lookup (e.place path) = some given) :
    ∃ known, root.Meets path e known ∧ s.Composes env path known e given := by
  have hstart : (Session.start root).ComposedIn root env s := by
    intro _ p e text _ htext
    cases htext
  have hcomposed := composedIn_visit s htree hnative henv root.height .root (Nat.le_refl _) _ _ _
    (.start root env) hstart hrun
  exact hcomposed (.of_eq rfl rfl) path e given he hgiven

/-- A successful rendering of a tree remembers a text of every node that it reaches. -/
theorem exists_remembered_native (hnative : ∀ e ∈ root.nodes, e.IsNative) :
    ∃ given, s.memo.lookup (e.place path) = some given := by
  induction he with
  | root => exact ⟨text, remembered_root htree henv hrun hnative⟩
  | step he hc ih =>
    obtain ⟨given, hgiven⟩ := ih
    obtain ⟨_, -, hcomposes⟩ := composes_native htree henv hrun he hnative hgiven
    exact Option.isSome_iff_exists.mp (hcomposes.remembered _ hc)

end Trees

theorem composes_textOf {root : Expr} {env : Env} (htree : root.IsTree)
    (hext : ∀ e ∈ root.nodes, e.kind ≠ .extension) (henv : env.registry = .standard) {text : String}
    {s : Session} (hrun : (RenderM.textOf root).runOn env (.start root) = (.ok text, s))
    {path : List Expr} {e : Expr} (he : root.Reaches path e) {given : String}
    (hgiven : s.memo.lookup (e.place path) = some given) :
    ∃ known, root.Meets path e known ∧ s.Composes env path known e given :=
  composes_native htree henv hrun he (fun c hc => .of_kind (hext c hc)) hgiven

theorem exists_remembered {root : Expr} {env : Env} (htree : root.IsTree)
    (hext : ∀ e ∈ root.nodes, e.kind ≠ .extension) (henv : env.registry = .standard) {text : String}
    {s : Session} (hrun : (RenderM.textOf root).runOn env (.start root) = (.ok text, s))
    {path : List Expr} {e : Expr} (he : root.Reaches path e) :
    ∃ given, s.memo.lookup (e.place path) = some given :=
  exists_remembered_native htree henv hrun he fun c hc => .of_kind (hext c hc)

end ExprText
