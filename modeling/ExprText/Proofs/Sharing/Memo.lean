import ExprText.Proofs.Sharing.Places

/-! # The memo of a graph

A graph is rendered with a memo, the tree that unfolds it without one. Both go on in lockstep: where
the graph finds a text in its memo, the tree shows a copy of the node once more, and the text is the
same as long as the graph shares its nodes safely. So sharing is not seen in the text, and the memo
of a tree is not seen at all. -/

namespace ExprText

open ExprText.Expr RenderM

/-! ### What is remembered -/

/-- Whether every text in a memo of `g` is what the copies of its node in `t` are shown by, from the
    given names on. -/
def Settled (env : Env) (g t : Expr) (memo : List (MemoKey × String)) (names : NameTable) : Prop :=
  ∀ ⦃p e d p' e' text⦄, Copies g t p e d p' e' → memo.lookup (e.place p) = some text →
    (∀ op, e.kind = .assign op → text ≠ "") ∧
    ∀ depth (s : Session), e'.height ≤ depth → s.Stands p' d → names.Extends s.names →
      ∃ s', (visitPlain depth e').runOn env s = (.ok text, s') ∧ s'.Stands p' d ∧
        s'.scopes.tail = s.scopes.tail ∧ s'.names = s.names

section Settled
variable {env : Env} {g t : Expr} {memo : List (MemoKey × String)} {names names' : NameTable}

theorem Settled.mono (h : Settled env g t memo names) (hnames : names.Extends names') :
    Settled env g t memo names' := by
  intro p e d p' e' text he hlookup
  obtain ⟨hempty, hrun⟩ := h he hlookup
  exact ⟨hempty, fun depth s hdepth hs hext => hrun depth s hdepth hs (hnames.trans hext)⟩

theorem not_insert_eq (h : ∀ (v : Variable) (d : Declared), d.insert v = d) : False :=
  (congrFun (h ⟨0, none, .void⟩ fun _ => False) 0).mp (Or.inl rfl)

/-- A node that the tree has shown can be remembered. -/
theorem Settled.remember (henv : env.Standard) (hg : g.NodesCoherent) (hgt : Alike g t)
    (hext : ∀ e ∈ g.nodes, e.kind ≠ .extension) (hsafe : SharesSafely g t)
    (h : Settled env g t memo names) {p e d p' e'} (he : Copies g t p e d p' e') {depth : Nat}
    (hdepth : e'.height ≤ depth) {s s' : Session} {text : String} (hs : s.Stands p' d)
    (hrun : (visitPlain depth e').runOn env s = (.ok text, s')) (hnames : s'.names = names)
    (hempty : ∀ op, e.kind = .assign op → text ≠ "") :
    Settled env g t ((e.place p, text) :: memo) names := by
  intro q f d' q' f' text' hf hlookup
  rw [lookup_cons_eq] at hlookup
  split at hlookup
  · cases hlookup
    obtain ⟨rfl, hhead⟩ := eq_of_place_eq hg hf.reaches he.reaches ‹_›
    have hshared : Shared g t p' e' d q' f' d' := ⟨p, f, q, he, hf, hhead.symm⟩
    refine ⟨hempty, fun depth' r hdepth' hr hnames' => ?_⟩
    obtain ⟨b, n, r', htold, hn, hrun'⟩ := replays_visitPlain henv
      (shared_occurrences hgt hext hsafe) depth depth' hshared hdepth hdepth' [] s r hs hr
      (fun i hi => by cases hi) text s' hrun
    obtain ⟨⟨rfl, rfl⟩, -⟩ := htold
    exact ⟨r', hrun' (hnames ▸ hnames'), hn.right, hn.rightTail, hn.unchanged⟩
  · exact h hf hlookup

end Settled

/-! ### Graph and tree in lockstep -/

/-- Two sessions of which the first has a memo: they stand alike, know the same names, and what the
    first one remembers is settled. -/
structure Abreast (env : Env) (g t : Expr) (path path' : List Expr) (d : Declared) (s r : Session) :
    Prop where
  left : s.Stands path d
  right : r.Stands path' d
  names : s.names = r.names
  settled : Settled env g t s.memo s.names

/-- Two actions from sessions abreast fail alike, or end with their sessions abreast. -/
def Matches (env : Env) (g t : Expr) (path path' : List Expr) (α : Type) (d : Declared) (_ : Prop)
    (Q : α → α → Declared → Prop) (x y : RenderM α) : Prop :=
  ∀ s r : Session, Abreast env g t path path' d s r →
    (∃ fault s' r', x.runOn env s = (.error fault, s') ∧ y.runOn env r = (.error fault, r')) ∨
    ∃ a b n s' r', x.runOn env s = (.ok a, s') ∧ y.runOn env r = (.ok b, r') ∧ Q a b n ∧
      Abreast env g t path path' n s' r' ∧ s'.scopes.tail = s.scopes.tail ∧
      r'.scopes.tail = r.scopes.tail

theorem matches_lockstep (env : Env) (g t : Expr) {path path' : List Expr} {e e' : Expr}
    (halike : e.Alike e') (hseen : e.SeenAlike path path' e') :
    Lockstep Declared.insert path path' e e' (Matches env g t (e :: path) (e' :: path')) where
  alike := halike
  seen := hseen
  congr _ h := h
  answer {_ d _ a b} h s r hsr := .inr ⟨a, b, d, s, r, rfl, rfl, h, hsr, rfl, rfl⟩
  sequel {_ _ _ _ _ _ _ _ x y f g} h hf _ s r hsr := by
    rcases h s r hsr with ⟨fault, s', r', hx, hy⟩ | ⟨a, b, n, s', r', hx, hy, hab, hsr', hs, hr⟩
    · exact .inl ⟨fault, s', r', runOn_bind_error hx, runOn_bind_error hy⟩
    · rw [runOn_bind_ok hx, runOn_bind_ok hy]
      rcases hf a b n hab s' r' hsr' with hfail | ⟨c, c', k, s'', r'', hx', hy', hc, hsr'', hs', hr'⟩
      · exact .inl hfail
      · exact .inr ⟨c, c', k, s'', r'', hx', hy', hc, hsr'', hs'.trans hs, hr'.trans hr⟩
  refusal cause s r hsr := by
    have hkind : s.currentKind = r.currentKind := by
      rw [Session.currentKind, Session.currentKind, Session.current?, Session.current?,
        hsr.left.path, hsr.right.path]
      exact halike.kind
    refine .inl ⟨.malformed s.currentKind cause, s, r, rfl, ?_⟩
    rw [runOn_refuse, hkind]
  reading {d} s r hsr := .inr ⟨env, env, d, s, r, rfl, rfl, ⟨⟨rfl, rfl⟩, rfl⟩, hsr, rfl, rfl⟩
  looking {d} s r hsr := by
    refine .inr ⟨s, r, d, s, r, rfl, rfl, ⟨⟨hsr.left.path, hsr.right.path, ?_, ?_⟩, rfl⟩, hsr, rfl, rfl⟩
    · intro v _
      rw [Bool.eq_iff_iff, hsr.left.declared v, hsr.right.declared v]
    · exact fun v _ hv => Declared.insert_of_mem ((hsr.left.declared v).mp hv)
  declaring {d v} _ s r hsr := by
    obtain ⟨hs, hstail, hsnames, hsmemo, hsfresh⟩ := hsr.left.declare v
    obtain ⟨hr, hrtail, hrnames, -, hrfresh⟩ := hsr.right.declare v
    refine .inr ⟨(s.declare v).1, (r.declare v).1, d.insert v, (s.declare v).2, (r.declare v).2,
      runOn_modifyGet _, runOn_modifyGet _, ⟨?_, rfl⟩, ⟨hs, hr, ?_, ?_⟩, hstail, hrtail⟩
    · rw [hsfresh, hrfresh, Bool.eq_iff_iff, Bool.not_eq_true', Bool.not_eq_true',
        ← Bool.not_eq_true, ← Bool.not_eq_true, hsr.left.declared v, hsr.right.declared v]
    · rw [hsnames, hrnames, hsr.names]
    · rw [hsnames, hsmemo]
      exact hsr.settled
  asking {d q} _ s r hsr := by
    refine .inr ⟨_, _, d, (s.ask q).2, (r.ask q).2, runOn_ask q, runOn_ask q, ⟨?_, rfl⟩, ?_, rfl, rfl⟩
    · rw [Session.ask, Session.ask, hsr.names]
    · refine ⟨⟨hsr.left.path, hsr.left.declared, hsr.left.opened⟩,
        ⟨hsr.right.path, hsr.right.declared, hsr.right.opened⟩, ?_, ?_⟩
      · exact congrArg (fun names => (names.answer q).2) hsr.names
      · exact hsr.settled.mono (s.names.extends_answer q)
  scoping {_ d _ _ x y} h s r hsr := by
    have hopen : Abreast env g t (e :: path) (e' :: path') d s.openScope r.openScope :=
      ⟨hsr.left.openScope, hsr.right.openScope, hsr.names, hsr.settled⟩
    rw [inScope, inScope, runOn_between, runOn_between]
    rcases h _ _ hopen with ⟨fault, s', r', hx, hy⟩ | ⟨a, b, n, s', r', hx, hy, hab, hsr', hs, hr⟩
    · rw [hx, hy]
      exact .inl ⟨fault, s'.closeScope, r'.closeScope, rfl, rfl⟩
    · rw [hx, hy]
      obtain ⟨hs₂, hsscopes, hsnames, hsmemo⟩ := hsr.left.closeScope hsr'.left hs
      obtain ⟨hr₂, hrscopes, hrnames, -⟩ := hsr.right.closeScope hsr'.right hr
      refine .inr ⟨a, b, d, s'.closeScope, r'.closeScope, rfl, rfl, hab, ⟨hs₂, hr₂, ?_, ?_⟩,
        by rw [hsscopes], by rw [hrscopes]⟩
      · rw [hsnames, hrnames, hsr'.names]
      · rw [hsmemo, hsnames]
        exact hsr'.settled

section Graph
variable {env : Env} {g t : Expr} (henv : env.Standard) (hg : g.NodesCoherent) (hgt : Alike g t)
  (hext : ∀ e ∈ g.nodes, e.kind ≠ .extension) (hsafe : SharesSafely g t)
include henv hg hgt hext hsafe

theorem matches_visit : ∀ (depth depth' : Nat) {p e d p' e'}, Copies g t p e d p' e' →
    e.height ≤ depth → e'.height ≤ depth' →
    Matches env g t p p' String d True (Told Declared.insert e d) (visit depth e)
      (visitPlain depth' e')
  | 0, _, _, e, _, _, _, _, hdepth, _ => by
    have : e.height ≠ 0 := by cases e <;> simp [Expr.height]
    omega
  | _, 0, _, _, _, _, e', _, _, hdepth => by
    have : e'.height ≠ 0 := by cases e' <;> simp [Expr.height]
    omega
  | depth + 1, depth' + 1, p, e, d, p', e', h, hdepth, hdepth' => by
    intro s r hsr
    have halike := h.alike hgt
    have hkey := Session.keyOf_eq hsr.left.path e
    cases hmemo : s.memo.lookup (s.keyOf e) with
    | some text =>
      obtain ⟨hempty, hagain⟩ := hsr.settled h (hkey ▸ hmemo)
      obtain ⟨r', hrun, hr', htail, hnames⟩ := hagain (depth' + 1) r hdepth' hsr.right
        (hsr.names ▸ .refl _)
      refine .inr ⟨text, text, d, s, r', runOn_visit_known hmemo, hrun, ⟨⟨rfl, rfl⟩, ?_⟩,
        ⟨hsr.left, hr', hsr.names.trans hnames.symm, hsr.settled⟩, rfl, htail⟩
      exact fun op hop htext => absurd htext (hempty op hop)
    | none =>
      cases hfind : env.registry.find? e.kind with
      | none =>
        have hfind' : env.registry.find? e'.kind = none := by rw [← halike.kind, hfind]
        refine .inl ⟨.unsupported e.kind, s, r, runOn_visit_unsupported hmemo hfind, ?_⟩
        rw [runOn_visitPlain_none hfind', halike.kind]
      | some reg =>
        have hfind' : env.registry.find? e'.kind = some reg := by rw [← halike.kind, hfind]
        have hreg := henv _ _ hfind
        have L := matches_lockstep env g t halike (hsafe h h rfl).1
        have hv : List.Forall₂ (fun x y => Visits Declared.insert e
            (Matches env g t (e :: p) (e' :: p')) (visit depth) (visitPlain depth') (fun _ => True)
            x.2 x.1 y.1) (e.steps Declared.insert d) (e'.steps Declared.insert d) := by
          have hsteps := halike.steps Declared.insert d
          refine forall₂_of_getElem? hsteps.length_eq fun i x x' hx hx' => ?_
          have hmem := Expr.mem_shown_of_mem_steps _ (List.mem_of_getElem? hx)
          have hmem' := Expr.mem_shown_of_mem_steps _ (List.mem_of_getElem? hx')
          have hlt := Expr.height_lt_of_mem_shown hmem
          have hlt' := Expr.height_lt_of_mem_shown hmem'
          exact ⟨hmem, (forall₂_getElem? hsteps hx hx').1,
            matches_visit depth depth' (.step h hx hx') (by omega) (by omega)⟩
        have hpush : Abreast env g t (e :: p) (e' :: p') d (s.push e) (r.push e') :=
          ⟨hsr.left.push e, hsr.right.push e', hsr.names, hsr.settled⟩
        have hplain : (visitPlain (depth' + 1) e').runOn env r = _ := runOn_visitPlain_some hfind'
        rw [runOn_visit_new hmemo hfind, hreg]
        rw [hreg] at hplain
        rcases L.render (hext e h.reaches.mem_nodes) hv _ _ hpush with
          ⟨fault, s', r', hx, hy⟩ | ⟨a, b, n, s', r', hx, hy, htold, hsr', hs, hr⟩
        · rw [hy] at hplain
          rw [hx, hplain]
          exact .inl ⟨fault, s'.pop, r'.pop, rfl, rfl⟩
        · rw [hy] at hplain
          obtain ⟨⟨rfl, rfl⟩, hempty⟩ := htold
          rw [hx, hkey]
          refine .inr ⟨a, a, n, s'.pop.remember (e.place p) a, r'.pop, rfl, hplain, ⟨⟨rfl, rfl⟩, hempty⟩,
            ⟨⟨hsr'.left.pop.path, hsr'.left.declared, hsr'.left.opened⟩, hsr'.right.pop, hsr'.names, ?_⟩,
            hs, hr⟩
          refine Settled.remember henv hg hgt hext hsafe hsr'.settled h hdepth' hsr.right hplain
            hsr'.names.symm fun op hop htext => ?_
          exact not_insert_eq (hempty op hop htext)

/-- A graph that shares its nodes safely is rendered as the tree that unfolds it is without a memo. -/
theorem render_eq_renderPlain : g.render env = t.renderPlain env := by
  have hstart : Abreast env g t [] [] (fun _ => False) (.start g) (.start t) := by
    refine ⟨⟨rfl, fun v => ?_, by simp [Session.start]⟩, ⟨rfl, fun v => ?_, by simp [Session.start]⟩,
      hgt.reserve _, fun p e d p' e' text _ hlookup => by cases hlookup⟩
    all_goals simp [Session.start, Session.isDeclared]
  rw [Expr.render, Expr.renderPlain, textOf]
  rcases matches_visit henv hg hgt hext hsafe g.height t.height .root (Nat.le_refl _) (Nat.le_refl _)
    _ _ hstart with ⟨fault, s', r', hx, hy⟩ | ⟨a, b, n, s', r', hx, hy, htold, -⟩
  · rw [hx, hy]
  · rw [hx, hy, htold.1.1]


end Graph

end ExprText
