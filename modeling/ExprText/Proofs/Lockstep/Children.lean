import ExprText.Proofs.Lockstep.Basic

/-! # Children in lockstep

The texts of children enter the texts of alike nodes alike: as bodies, operands, receivers and
arguments. -/

namespace ExprText

open ExprText.Expr Render RenderM

variable {M : Type} {declare : Variable → M → M} {path path' : List Expr} {e e' : Expr}
  {Step : (α : Type) → M → Prop → (α → α → M → Prop) → RenderM α → RenderM α → Prop}

/-- What is known of a node `c` that `e` shows and of its twin: they are alike, and so are the ways in
    which they are shown. -/
structure Visits (declare : Variable → M → M) (e : Expr)
    (Step : (α : Type) → M → Prop → (α → α → M → Prop) → RenderM α → RenderM α → Prop)
    (visit visit' : Visit) (P : Expr → Prop) (m : M) (c c' : Expr) : Prop where
  mem : c ∈ e.shown
  alike : Alike c c'
  told : Step String m (P c) (Told declare c m) (visit c) (visit' c')

namespace Lockstep

variable (L : Lockstep declare path path' e e' Step) {visit visit' : Visit} {P : Expr → Prop} {m : M}
  {c c' : Expr}
include L

theorem keepsParens {s t : Session} (hc : c ∈ e.shown) (hcc : Alike c c')
    (hst : Beside declare path path' e e' m s t) : s.keepsParens c = t.keepsParens c' := by
  cases hcc.twin with
  | invoke ha => exact ha.isLambda
  | call =>
    simp only [Session.keepsParens, hst.left, hst.right]
    cases hcall : e.isCall with
    | true => exact L.seen.keeps hcall (List.any_eq_true.mpr ⟨_, hc, rfl⟩)
    | false =>
      have hcall' : e'.isCall = false := by rw [← L.alike.isCall, hcall]
      simp [List.find?, hcall, hcall', L.alike.kind]
  | _ => rfl

theorem stripped (hc : c ∈ e.shown) (hcc : Alike c c') (text : String) :
    Step String m True (Same m) (stripped c text) (stripped c' text) := by
  refine L.congr (by rw [and_true]) (L.andThen L.looking fun s t n h => L.answer ?_)
  obtain ⟨hst, rfl⟩ := h
  exact ⟨by rw [Session.stripped, Session.stripped, L.keepsParens hc hcc hst], rfl⟩

theorem visited (h : Visits declare e Step visit visit' P m c c') :
    Step String m (P c) (Same m) (visit c) (visit' c') :=
  L.weaken h.told fun _ _ _ h => h.1

theorem strippedText (h : Visits declare e Step visit visit' P m c c') :
    Step String m (P c) (Same m) (strippedText visit c) (strippedText visit' c') :=
  L.congr (by rw [and_true]) (L.next (L.visited h) fun text => L.stripped h.mem h.alike text)

theorem body (h : Visits declare e Step visit visit' P m c c') :
    Step Body m (P c) (Same m) (body visit c) (body visit' c') := by
  refine L.congr (by rw [and_true]) (L.next (L.visited h) fun text => ?_)
  have other := L.sure (L.stripped h.mem h.alike text) fun text =>
    L.last (R := Same m) L.indent fun indent => ⟨(rfl : Body.mk text true indent = _), rfl⟩
  cases h.alike.twin with
  | block hxs =>
    dsimp only
    rw [(filter_isEmpty_alike hxs).length_eq]
    exact L.last L.indent fun indent => ⟨rfl, rfl⟩
  | _ => exact other

theorem operandText (h : Visits declare e Step visit visit' P m c c') :
    Step String m (P c) (Same m) (operandText visit c) (operandText visit' c') := by
  refine L.congr (by rw [and_true]) (L.next (L.visited h) fun text => ?_)
  cases h.alike.twin <;> exact L.same _

theorem receiverText (h : Visits declare e Step visit visit' P m c c') :
    Step String m (P c) (Same m) (receiverText visit c) (receiverText visit' c') :=
  L.last (L.visited h) fun text => ⟨by rw [h.alike.needsGrouping], rfl⟩

/-! ### Arguments -/

theorem argumentTexts (hc : Alike c c') (modifier : Modifier)
    (h : List.Forall₂ (Visits declare e Step visit visit' P m) (argumentNodes modifier c)
      (argumentNodes modifier c')) :
    Step (List String) m (∀ x ∈ argumentNodes modifier c, P x) (Same m)
      (argumentTexts visit modifier c) (argumentTexts visit' modifier c') := by
  cases modifier with
  | value =>
    obtain ⟨h, -⟩ := List.forall₂_cons.mp h
    exact L.congr (by simp [argumentNodes]) (L.last (L.strippedText h) fun text => ⟨rfl, rfl⟩)
  | ref | out =>
    obtain ⟨h, -⟩ := List.forall₂_cons.mp h
    exact L.congr (by simp [argumentNodes]) (L.last (L.visited h) fun text => ⟨rfl, rfl⟩)
  | params =>
    have single : List.Forall₂ (Visits declare e Step visit visit' P m) [c] [c'] →
        Step (List String) m (∀ x ∈ [c], P x) (Same m) (do return [← RenderM.strippedText visit c])
          (do return [← RenderM.strippedText visit' c']) := by
      intro h
      obtain ⟨h, -⟩ := List.forall₂_cons.mp h
      exact L.congr (by simp) (L.last (L.strippedText h) fun text => ⟨rfl, rfl⟩)
    cases hc.twin with
    | newArray => exact L.mapM (h.imp fun _ _ hx => L.strippedText hx)
    | _ => exact single h

omit L in
theorem forall₂_append {α β : Type} {R : α → β → Prop} {xs zs : List α} {ys ws : List β}
    (hlen : xs.length = ys.length) (h : List.Forall₂ R (xs ++ zs) (ys ++ ws)) :
    List.Forall₂ R xs ys ∧ List.Forall₂ R zs ws := by
  have hleft := List.forall₂_take xs.length h
  have hright := List.forall₂_drop xs.length h
  simp only [List.take_left, List.drop_left, List.take_left' hlen.symm, List.drop_left' hlen.symm]
    at hleft hright
  exact ⟨hleft, hright⟩

omit L in
theorem forall₂_concat {α β : Type} {R : α → β → Prop} {xs : List α} {x : α} {ys : List β}
    (h : List.Forall₂ R (xs.concat x) ys) :
    ∃ zs y, ys = zs ++ [y] ∧ List.Forall₂ R xs zs ∧ R x y := by
  rw [List.concat_eq_append] at h
  have hleft := List.forall₂_take xs.length h
  have hright := List.forall₂_drop xs.length h
  rw [List.take_left] at hleft
  rw [List.drop_left] at hright
  obtain ⟨y, zs, hxy, hzs, hdrop⟩ := List.forall₂_cons_left_iff.mp hright
  cases hzs
  refine ⟨_, y, ?_, hleft, hxy⟩
  rw [← hdrop, List.take_append_drop]

omit L in
theorem forall₂_arguments {args args' : List Expr} (h : List.Forall₂ Alike args args')
    {params : List Parameter} (hv : List.Forall₂ (Visits declare e Step visit visit' P m)
      (argumentsNodes args (some params)) (argumentsNodes args' (some params))) :
    List.Forall₂ (fun x y => x.2 = y.2 ∧ Alike x.1 y.1 ∧
      List.Forall₂ (Visits declare e Step visit visit' P m) (argumentNodes x.2.modifier x.1)
        (argumentNodes y.2.modifier y.1)) (args.zip params) (args'.zip params) := by
  induction h generalizing params with
  | nil => simp
  | cons hx _ ih =>
    cases params with
    | nil => simp
    | cons p params =>
      obtain ⟨hhead, htail⟩ := forall₂_append (argumentNodes_alike hx p.modifier).length_eq hv
      exact .cons ⟨rfl, hx, hhead⟩ (ih htail)

theorem arguments {args args' : List Expr} (h : List.Forall₂ Alike args args')
    (params : Option (List Parameter))
    (hv : List.Forall₂ (Visits declare e Step visit visit' P m) (argumentsNodes args params)
      (argumentsNodes args' params)) :
    Step (List String) m (Counted args params ∧ ∀ x ∈ argumentsNodes args params, P x) (Same m)
      (arguments visit args params) (arguments visit' args' params) := by
  cases params with
  | none =>
    have hall := L.mapM (m := m) (P := P) (f := RenderM.argumentTexts visit .value)
      (g := RenderM.argumentTexts visit' .value) (hv.imp fun x y hx => by
        refine L.congr ?_ (L.argumentTexts hx.alike .value (.cons hx .nil))
        simp [argumentNodes])
    exact L.congr (by simp [Counted, argumentsNodes]) (L.last hall fun texts => ⟨rfl, rfl⟩)
  | some params =>
    unfold RenderM.arguments
    rw [← h.length_eq]
    by_cases hlen : params.length = args.length
    · dsimp only
      rw [if_pos hlen, if_pos hlen]
      have hpairs : List.Forall₂ (fun x y => Step (List String) m
          (∀ c ∈ argumentNodes x.2.modifier x.1, P c) (Same m)
          (RenderM.argumentTexts visit x.2.modifier x.1)
          (RenderM.argumentTexts visit' y.2.modifier y.1)) (args.zip params) (args'.zip params) := by
        refine (forall₂_arguments h hv).imp ?_
        rintro ⟨x, p⟩ ⟨y, q⟩ ⟨hp, hx, hn⟩
        obtain rfl : p = q := hp
        exact L.argumentTexts hx p.modifier hn
      have hall := L.mapM hpairs
      refine L.congr ?_ (L.last hall fun texts => ⟨rfl, rfl⟩)
      simp only [Counted, hlen.symm, true_and, argumentsNodes, List.mem_flatMap]
      constructor
      · rintro hP c ⟨x, hx, hc⟩
        exact hP x hx c hc
      · exact fun hP x hx c hc => hP c ⟨x, hx, hc⟩
    · dsimp only
      rw [if_neg hlen, if_neg hlen]
      exact L.congr (by simp [Counted, Ne.symm hlen]) (L.refusal _)

theorem parameters {args args' : List Expr} (h : List.Forall₂ Alike args args')
    (params : Option (List Parameter))
    (hv : List.Forall₂ (Visits declare e Step visit visit' P m) (argumentsNodes args params)
      (argumentsNodes args' params)) :
    Step String m (Counted args params ∧ ∀ x ∈ argumentsNodes args params, P x) (Same m)
      (parameters visit args params) (parameters visit' args' params) :=
  L.congr (by rw [and_true]) (L.next (L.arguments h params hv) fun texts => L.argumentList "(" ")" texts)

end Lockstep

end ExprText
