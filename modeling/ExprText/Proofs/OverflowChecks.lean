import Mathlib.Logic.Relation
import ExprText.Proofs.Composed.Tails

/-! # Overflow checks

Arithmetic and conversions that stand directly below each other form a chain. Each node of a chain decides for
itself whether `checked` is written around it, from the node above it and the chain below it. All these
decisions together write it at most once a chain, around the topmost node, and there for the whole chain. -/

namespace ExprText

open Text Render RenderM Session

namespace Expr

/-! ### Chains -/

/-- Whether a rendering of `root` shows `c` directly below `e` in a chain of arithmetic. -/
def ChainParent (root e c : Expr) : Prop :=
  (∃ path, root.Reaches path e) ∧ c ∈ e.shown ∧ isChainLink e = true ∧ isChainLink c = true

/-- Whether two nodes belong to one chain. -/
def SameChain (root : Expr) : Expr → Expr → Prop :=
  Relation.EqvGen root.ChainParent

/-- Whether a node is the topmost one of a chain: all nodes of the chain are below it. -/
def IsTop (root e : Expr) : Prop :=
  isChainLink e = true ∧ ∀ x, root.SameChain e x → Relation.ReflTransGen root.ChainParent e x

/-- Whether the overflow check of a chain is written around a node. -/
structure CarriesCheck (root e : Expr) : Prop where
  top : root.IsTop e
  takes : e.kind.takesChecked = true
  check : ∃ x, root.SameChain e x ∧ x.kind.isChecked = true

section Chains
variable {root e c t x : Expr} {path : List Expr}

theorem isChainLink_of_takesChecked (h : e.kind.takesChecked = true) : isChainLink e = true := by
  cases e with
  | binary i op left right ty => cases op <;> first | rfl | cases h
  | unary i op operand ty =>
    have hop : op.isConvert = true := h
    simp [isChainLink, hop]
  | _ => cases h

theorem isChainLink_of_isChecked (h : e.kind.isChecked = true) : isChainLink e = true := by
  cases e with
  | binary i op left right ty => cases op <;> first | rfl | cases h
  | unary i op operand ty => cases op <;> first | rfl | cases h
  | _ => cases h

theorem ChainParent.height_lt (h : root.ChainParent e c) : c.height < e.height :=
  height_lt_of_mem_shown h.2.1

/-- Of a tree each node has one node above it. -/
theorem ChainParent.unique (htree : root.IsTree) (h : root.ChainParent e c) (h' : root.ChainParent t c) :
    e = t := by
  obtain ⟨⟨path, he⟩, hc, -⟩ := h
  obtain ⟨⟨path', ht⟩, hc', -⟩ := h'
  obtain ⟨hpath, -⟩ := (Reaches.step he hc).unique htree (.step ht hc') rfl
  exact List.head_eq_of_cons_eq hpath

theorem height_le_of_chain (h : Relation.ReflTransGen root.ChainParent e x) : x.height ≤ e.height := by
  induction h with
  | refl => exact Nat.le_refl _
  | tail _ hlast ih => exact Nat.le_trans (Nat.le_of_lt hlast.height_lt) ih

theorem SameChain.of_chain (h : Relation.ReflTransGen root.ChainParent e x) : root.SameChain e x := by
  induction h with
  | refl => exact .refl _
  | tail _ hlast ih => exact .trans _ _ _ ih (.rel _ _ hlast)

/-- A node with no chain above it has all of its chain below it: a node of the chain that is not below it
    would have two nodes above it. -/
theorem chain_of_sameChain (htree : root.IsTree) (hfirst : ∀ p, ¬root.ChainParent p e)
    (h : root.SameChain e x) : Relation.ReflTransGen root.ChainParent e x := by
  have hiff : ∀ a b, root.SameChain a b → (Relation.ReflTransGen root.ChainParent e a ↔
      Relation.ReflTransGen root.ChainParent e b) := by
    intro a b hab
    induction hab with
    | rel a b hab =>
      refine ⟨fun ha => ha.tail hab, fun hb => ?_⟩
      cases hb with
      | refl => exact absurd hab (hfirst a)
      | tail hz hlast => exact hab.unique htree hlast ▸ hz
    | refl => exact Iff.rfl
    | symm _ _ _ ih => exact ih.symm
    | trans _ _ _ _ _ ih ih' => exact ih.trans ih'
  exact (hiff e x h).mp .refl

/-- A link of a chain is the topmost one exactly if the node above it is no link. -/
theorem isTop_iff (htree : root.IsTree) (he : root.Reaches path e) (hlink : isChainLink e = true) :
    root.IsTop e ↔ path.head?.any isChainLink = false := by
  constructor
  · rintro ⟨-, htop⟩
    rw [Bool.eq_false_iff]
    intro habove
    cases he with
    | root => cases habove
    | @step rest p e hp hc =>
      have hparent : root.ChainParent p e := ⟨⟨rest, hp⟩, hc, habove, hlink⟩
      have hbelow := htop p (.symm _ _ (.rel _ _ hparent))
      exact absurd hparent.height_lt (Nat.not_lt.mpr (height_le_of_chain hbelow))
  · intro habove
    refine ⟨hlink, fun x hx => chain_of_sameChain htree ?_ hx⟩
    rintro p ⟨⟨rest, hp⟩, hc, hlinked, -⟩
    obtain ⟨rfl, -⟩ := he.unique htree (.step hp hc) rfl
    simp only [List.head?_cons, Option.any_some, hlinked] at habove
    cases habove

/-- A chain has one topmost node. -/
theorem IsTop.unique (h : root.IsTop e) (h' : root.IsTop t) (hsame : root.SameChain e t) : e = t := by
  have hdown := h.2 t hsame
  have hup := h'.2 e (.symm _ _ hsame)
  cases hdown with
  | refl => rfl
  | tail hz hlast =>
    have hbetween := height_le_of_chain hz
    have hlt := hlast.height_lt
    exact absurd (height_le_of_chain hup) (by omega)

/-- The topmost node of a chain is on the path to each of its nodes, with nothing but the chain in between. -/
theorem exists_top (htree : root.IsTree) (he : root.Reaches path e) (hlink : isChainLink e = true) :
    ∃ between t above, e :: path = between ++ t :: above ∧ root.Reaches above t ∧ root.IsTop t ∧
      (∀ x ∈ t :: between, root.SameChain e x) ∧ ∀ x ∈ between, ¬root.IsTop x := by
  induction he with
  | root =>
    have htop : root.IsTop root := (isTop_iff htree .root hlink).mpr rfl
    exact ⟨[], root, [], rfl, .root, htop, by simp [SameChain, Relation.EqvGen.refl], by simp⟩
  | @step rest p e hp hc ih =>
    have he : root.Reaches (p :: rest) e := .step hp hc
    cases habove : isChainLink p with
    | false =>
      have htop : root.IsTop e := (isTop_iff htree he hlink).mpr habove
      exact ⟨[], e, p :: rest, rfl, he, htop, by simp [SameChain, Relation.EqvGen.refl], by simp⟩
    | true =>
      have hsame : root.SameChain e p := .symm _ _ (.rel _ _ ⟨⟨rest, hp⟩, hc, habove, hlink⟩)
      have hinner : ¬root.IsTop e := by
        rw [isTop_iff htree he hlink]
        simp [habove]
      obtain ⟨between, t, above, hpath, ht, htop, hchain, hothers⟩ := ih habove
      refine ⟨e :: between, t, above, by rw [hpath]; rfl, ht, htop, ?_, List.forall_mem_cons.mpr ⟨hinner, hothers⟩⟩
      obtain ⟨hlast, hbetween⟩ := List.forall_mem_cons.mp hchain
      refine List.forall_mem_cons.mpr ⟨.trans _ _ _ hsame hlast, List.forall_mem_cons.mpr ⟨.refl _, ?_⟩⟩
      exact fun x hx => .trans _ _ _ hsame (hbetween x hx)

/-! ### Decisions -/

/-- The look below a node finds the checked operators of its chain that are below it. -/
theorem chainHasChecked_iff (he : root.Reaches path e) (hlink : isChainLink e = true) :
    chainHasChecked e = true ↔
      ∃ x, Relation.ReflTransGen root.ChainParent e x ∧ x.kind.isChecked = true := by
  induction e using childInduction generalizing path with
  | step e ih =>
    have hbelow : ∀ c ∈ e.children, c ∈ e.shown → ((isChainLink c && chainHasChecked c) = true ↔
        root.ChainParent e c ∧ ∃ x, Relation.ReflTransGen root.ChainParent c x ∧ x.kind.isChecked = true) := by
      intro c hc hshown
      rw [Bool.and_eq_true]
      refine ⟨fun ⟨hc', h⟩ => ⟨⟨⟨path, he⟩, hshown, hlink, hc'⟩, (ih c hc (.step he hshown) hc').mp h⟩,
        fun ⟨hparent, h⟩ => ⟨hparent.2.2.2, (ih c hc (.step he hshown) hparent.2.2.2).mpr h⟩⟩
    have hstep : (∃ x, Relation.ReflTransGen root.ChainParent e x ∧ x.kind.isChecked = true) ↔
        e.kind.isChecked = true ∨ ∃ c ∈ e.shown, root.ChainParent e c ∧
          ∃ x, Relation.ReflTransGen root.ChainParent c x ∧ x.kind.isChecked = true := by
      constructor
      · rintro ⟨x, hx, hchecked⟩
        rcases Relation.ReflTransGen.cases_head hx with rfl | ⟨c, hparent, hrest⟩
        · exact .inl hchecked
        · exact .inr ⟨c, hparent.2.1, hparent, x, hrest, hchecked⟩
      · rintro (hchecked | ⟨c, -, hparent, x, hrest, hchecked⟩)
        · exact ⟨e, .refl, hchecked⟩
        · exact ⟨x, .head hparent hrest, hchecked⟩
    rw [hstep]
    cases e with
    | binary i op left right ty =>
      have hl := hbelow left (by simp [children]) (by simp [shown, children])
      have hr := hbelow right (by simp [children]) (by simp [shown, children])
      simp only [chainHasChecked, Bool.or_eq_true, hl, hr, kind, Kind.isChecked, shown, children, List.mem_cons,
        List.not_mem_nil, or_false, exists_eq_or_imp, exists_eq_left, or_assoc]
    | unary i op operand ty =>
      have hoperand := hbelow operand (by simp [children]) (by simp [shown, children])
      simp only [chainHasChecked, Bool.or_eq_true, hoperand, kind, Kind.isChecked, shown, children, List.mem_cons,
        List.not_mem_nil, or_false, exists_eq_left]
    | _ => cases hlink

/-- What a node decides from the node above it and the chain below it is what the whole chain decides. -/
theorem carriesChecked_iff (htree : root.IsTree) (he : root.Reaches path e) :
    carriesChecked path.head? e = true ↔ root.CarriesCheck e := by
  rw [carriesChecked, Bool.and_eq_true, Bool.and_eq_true, Bool.not_eq_true']
  constructor
  · rintro ⟨⟨htakes, habove⟩, hchecked⟩
    have hlink := isChainLink_of_takesChecked htakes
    obtain ⟨x, hx, hop⟩ := (chainHasChecked_iff he hlink).mp hchecked
    exact ⟨(isTop_iff htree he hlink).mpr habove, htakes, x, .of_chain hx, hop⟩
  · rintro ⟨htop, htakes, x, hx, hop⟩
    exact ⟨⟨htakes, (isTop_iff htree he htop.1).mp htop⟩,
      (chainHasChecked_iff he htop.1).mpr ⟨x, htop.2 x hx, hop⟩⟩

end Chains

end Expr

/-! ### Texts -/

/-- The text of a chain of arithmetic without its overflow check: the operators of the chain around the texts
    of the nodes that do not belong to it. -/
def Session.chainTextAt (s : Session) (env : Env) : List Expr → Expr → String
  | path, e@(.binary _ op left right _) =>
    binaryText op left right
      (if isChainLink left then s.chainTextAt env (e :: path) left else s.textAt (e :: path) left)
      (if isChainLink right then s.chainTextAt env (e :: path) right else s.textAt (e :: path) right)
  | path, e@(.unary _ op operand ty) =>
    unaryText env op operand.ty ty (groupedText operand
      (if isChainLink operand then s.chainTextAt env (e :: path) operand else s.textAt (e :: path) operand))
  | path, e => s.textAt path e

section Runs
variable {root : Expr} {env : Env} {s : Session} {text : String} (htree : root.IsTree)
  (hext : ∀ e ∈ root.nodes, e.kind ≠ .extension) (henv : env.registry = .standard)
  (hrun : (RenderM.textOf root).runOn env (.start root) = (.ok text, s))
include htree hext henv hrun

/-- The text of a link of a chain is the text of the chain below it, in the overflow check of the chain if the
    link carries it. The links below it carry none, since they have a link above them. -/
theorem lookup_chainTextAt {e : Expr} (hlink : isChainLink e = true) {path : List Expr}
    (he : root.Reaches path e) : s.memo.lookup (e.place path) = some
      ((if carriesChecked path.head? e then checkedText env.indent else id) (s.chainTextAt env path e)) := by
  induction e using Expr.childInduction generalizing path with
  | step e ih =>
    obtain ⟨given, hgiven⟩ := exists_remembered htree hext henv hrun he
    obtain ⟨_, -, hcomposes⟩ := composes_textOf htree hext henv hrun he hgiven
    rw [hgiven]
    have hbelow : ∀ c ∈ e.children, c ∈ e.shown → s.textAt (e :: path) c =
        if isChainLink c then s.chainTextAt env (e :: path) c else s.textAt (e :: path) c := by
      intro c hc hshown
      split
      · next hc' =>
        have hcarries : carriesChecked (e :: path).head? c = false := by simp [carriesChecked, hlink]
        rw [Session.textAt, ih c hc hc' (.step he hshown), hcarries]
        rfl
      · rfl
    cases e with
    | binary i op left right ty =>
      have hl := hbelow left (by simp [Expr.children]) (by simp [Expr.shown, Expr.children])
      have hr := hbelow right (by simp [Expr.children]) (by simp [Expr.shown, Expr.children])
      rw [hcomposes.binary_eq_wrapped, Session.chainTextAt, ← hl, ← hr]
    | unary i op operand ty =>
      have hoperand := hbelow operand (by simp [Expr.children]) (by simp [Expr.shown, Expr.children])
      rw [hcomposes.unary_eq_wrapped, Session.chainTextAt, ← hoperand]
    | _ => cases hlink

end Runs

/-- A chain of arithmetic is checked for overflow once, at its top. In a tree, `checked` is written around a
    node exactly if the node is the topmost one of a chain with a checked operator, and an addition, a
    subtraction, a multiplication or a conversion. Each chain has one topmost node. Below it the text of the
    chain has no further overflow check of the chain: what stands in the operators of a chain are the texts of
    nodes that do not belong to it. So a checked operator is in the overflow check of its own chain, if there
    is one, and in no other that is nearer. -/
theorem overflow_check_once_per_chain (root : Expr) (htree : root.IsTree)
    (hext : ∀ e ∈ root.nodes, e.kind ≠ .extension) :
    (∀ path e, root.Reaches path e → ∀ (env : Env) (u : Session) (given : String), u.path = e :: path →
      (root.CarriesCheck e → (wrapChecked e given).runOn env u = (.ok (checkedText env.indent given), u)) ∧
      (¬root.CarriesCheck e → (wrapChecked e given).runOn env u = (.ok given, u))) ∧
    (∀ path e, root.Reaches path e → isChainLink e = true → ∃! top, root.SameChain e top ∧ root.IsTop top) ∧
    ∀ (env : Env) (text : String) (s : Session), env.registry = .standard →
      (RenderM.textOf root).runOn env (.start root) = (.ok text, s) →
      (∀ path e, root.Reaches path e → isChainLink e = true →
        (root.CarriesCheck e → s.memo.lookup (e.place path) =
          some (checkedText env.indent (s.chainTextAt env path e))) ∧
        (¬root.CarriesCheck e → s.memo.lookup (e.place path) = some (s.chainTextAt env path e))) ∧
      ∀ path e, root.Reaches path e → e.kind.isChecked = true →
        ∀ top, root.SameChain e top → root.IsTop top → top.kind.takesChecked = true →
        ∃ between above, e :: path = between ++ top :: above ∧ s.memo.lookup (top.place above) =
            some (checkedText env.indent (s.chainTextAt env above top)) ∧
          ∀ x ∈ between, root.SameChain e x ∧ ¬root.CarriesCheck x := by
  refine ⟨?_, ?_, ?_⟩
  · intro path e he env u given hpath
    have hparent : u.parent? = path.head? := by rw [Session.parent?, hpath, List.tail_cons]
    rw [runOn_wrapChecked_recall, hparent, ← Expr.carriesChecked_iff htree he]
    exact ⟨fun h => by rw [if_pos h], fun h => by rw [if_neg h]⟩
  · intro path e he hlink
    obtain ⟨between, t, above, -, -, htop, hchain, -⟩ := Expr.exists_top htree he hlink
    obtain ⟨hsame, -⟩ := List.forall_mem_cons.mp hchain
    refine ⟨t, ⟨hsame, htop⟩, ?_⟩
    rintro t' ⟨hsame', htop'⟩
    exact htop'.unique htop (.trans _ _ _ (.symm _ _ hsame') hsame)
  · intro env text s henv hrun
    have htexts : ∀ path e, root.Reaches path e → isChainLink e = true →
        (root.CarriesCheck e → s.memo.lookup (e.place path) =
          some (checkedText env.indent (s.chainTextAt env path e))) ∧
        (¬root.CarriesCheck e → s.memo.lookup (e.place path) = some (s.chainTextAt env path e)) := by
      intro path e he hlink
      rw [lookup_chainTextAt htree hext henv hrun hlink he, ← Expr.carriesChecked_iff htree he]
      exact ⟨fun h => by rw [if_pos h], fun h => by rw [if_neg h]; rfl⟩
    refine ⟨htexts, ?_⟩
    intro path e he hop top hsame htop htakes
    obtain ⟨between, t, above, hpath, ht, htop', hchain, hothers⟩ :=
      Expr.exists_top htree he (Expr.isChainLink_of_isChecked hop)
    obtain ⟨hsame', hbetween⟩ := List.forall_mem_cons.mp hchain
    obtain rfl : top = t := htop.unique htop' (.trans _ _ _ (.symm _ _ hsame) hsame')
    refine ⟨between, above, hpath, ?_, fun x hx => ⟨hbetween x hx, fun hx' => hothers x hx hx'.top⟩⟩
    exact (htexts above top ht htop.1).1 ⟨htop, htakes, e, .symm _ _ hsame, hop⟩

section Examples

private def checkedSum : Expr :=
  .binary 1 .addChecked (.variable 2 ⟨0, some "x", .int⟩) (.variable 3 ⟨1, some "y", .int⟩) .int

/-- A difference with a checked sum and a negation in its chain. -/
private def checkedDifference : Expr :=
  .binary 0 .subtract checkedSum (.unary 4 .negate (.variable 5 ⟨2, some "z", .int⟩) .int) .int

/-- What is remembered after the difference was shown. -/
private def shownDifference : Session :=
  ((RenderM.textOf checkedDifference).runOn {} (.start checkedDifference)).2

theorem overflow_check_once_per_chain_difference :
    checkedDifference.IsTree ∧ (∀ e ∈ checkedDifference.nodes, e.kind ≠ .extension) ∧
    checkedDifference.CarriesCheck checkedDifference ∧ ¬checkedDifference.CarriesCheck checkedSum ∧
    ∃ text s, (RenderM.textOf checkedDifference).runOn {} (.start checkedDifference) = (.ok text, s) ∧
      s.memo.lookup (checkedDifference.place []) = some "checked((x + y) - -z)" ∧
      s.memo.lookup (checkedSum.place [checkedDifference]) = some "(x + y)" := by
  have htree : checkedDifference.IsTree := by decide +kernel
  have hext : ∀ e ∈ checkedDifference.nodes, e.kind ≠ .extension := by decide +kernel
  have hsum : checkedDifference.Reaches [checkedDifference] checkedSum := .step .root List.mem_cons_self
  have hcarries : checkedDifference.CarriesCheck checkedDifference :=
    (Expr.carriesChecked_iff htree .root).mp rfl
  have hplain : ¬checkedDifference.CarriesCheck checkedSum :=
    fun h => absurd ((Expr.carriesChecked_iff htree hsum).mpr h) (by decide)
  have hok : ((RenderM.textOf checkedDifference).runOn {} (.start checkedDifference)).1.toOption.isSome = true := by
    decide +kernel
  have htexts : checkedText ({} : Env).indent (shownDifference.chainTextAt {} [] checkedDifference) =
        "checked((x + y) - -z)" ∧
      shownDifference.chainTextAt {} [checkedDifference] checkedSum = "(x + y)" := by
    decide +kernel
  rcases hrun : (RenderM.textOf checkedDifference).runOn {} (.start checkedDifference) with ⟨fault | text, s⟩
  · rw [hrun] at hok
    cases hok
  · rw [show shownDifference = s by rw [shownDifference, hrun]] at htexts
    obtain ⟨-, -, hall⟩ := overflow_check_once_per_chain checkedDifference htree hext
    obtain ⟨hshown, -⟩ := hall {} text s (by simp) hrun
    have htop := (hshown [] checkedDifference .root rfl).1 hcarries
    have hbelow := (hshown [checkedDifference] checkedSum hsum rfl).2 hplain
    rw [htexts.1] at htop
    rw [htexts.2] at hbelow
    exact ⟨htree, hext, hcarries, hplain, text, s, rfl, htop, hbelow⟩

end Examples

end ExprText
