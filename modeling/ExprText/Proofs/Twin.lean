import Mathlib.Data.List.Forall2
import ExprText.Proofs.Graph

/-! # Trees that differ in identities only

Two trees are alike if they are the same tree once the identities of their nodes are forgotten; the
identities of variables, labels and captured objects are kept. -/

namespace ExprText

section Forall₂
variable {α β : Type} {R : α → β → Prop} {xs : List α} {ys : List β}

theorem forall₂_of_getElem? (hlen : xs.length = ys.length)
    (h : ∀ (i : Nat) x y, xs[i]? = some x → ys[i]? = some y → R x y) : List.Forall₂ R xs ys :=
  List.forall₂_iff_get.mpr ⟨hlen, fun i hx hy =>
    h i _ _ (List.getElem?_eq_getElem hx) (List.getElem?_eq_getElem hy)⟩

theorem exists_getElem?_of_forall₂ (h : List.Forall₂ R xs ys) {i : Nat} {y : β}
    (hy : ys[i]? = some y) : ∃ x, xs[i]? = some x ∧ R x y := by
  obtain ⟨hi, rfl⟩ := List.getElem?_eq_some_iff.mp hy
  have hi' : i < xs.length := by rw [h.length_eq]; exact hi
  exact ⟨xs[i], List.getElem?_eq_getElem hi', (List.forall₂_iff_get.mp h).2 i hi' hi⟩

theorem forall₂_getElem? (h : List.Forall₂ R xs ys) {i : Nat} {x : α} {y : β}
    (hx : xs[i]? = some x) (hy : ys[i]? = some y) : R x y := by
  obtain ⟨x', hx', hR⟩ := exists_getElem?_of_forall₂ h hy
  rw [hx] at hx'
  cases hx'
  exact hR

theorem exists_mem_of_forall₂ (h : List.Forall₂ R xs ys) {y : β} (hy : y ∈ ys) :
    ∃ x ∈ xs, R x y := by
  obtain ⟨i, hi⟩ := List.getElem?_of_mem hy
  obtain ⟨x, hx, hR⟩ := exists_getElem?_of_forall₂ h hi
  exact ⟨x, List.mem_of_getElem? hx, hR⟩

end Forall₂

namespace Expr

mutual

/-- The tree without the identities of its nodes. -/
def erase : Expr → Expr
  | .constant _ value ty => .constant 0 value ty
  | .variable _ target => .variable 0 target
  | .binary _ op left right ty => .binary 0 op left.erase right.erase ty
  | .unary _ op operand ty => .unary 0 op operand.erase ty
  | .assign _ op target value => .assign 0 op target.erase value.erase
  | .conditional _ test ifTrue ifFalse ty => .conditional 0 test.erase ifTrue.erase ifFalse.erase ty
  | .call _ subject method args => .call 0 (eraseOf subject) method (eraseAll args)
  | .invoke _ target args ty => .invoke 0 target.erase (eraseAll args) ty
  | .new _ ty constructor args => .new 0 ty constructor (eraseAll args)
  | .newArray _ element items => .newArray 0 element (eraseAll items)
  | .member _ subject target => .member 0 (eraseOf subject) target
  | .index _ subject indices ty => .index 0 subject.erase (eraseAll indices) ty
  | .lambda _ params body ty => .lambda 0 params body.erase ty
  | .block _ locals statements ty => .block 0 locals (eraseAll statements) ty
  | .loop _ body breakLabel continueLabel => .loop 0 (eraseOf body) breakLabel continueLabel
  | .break _ target => .break 0 target
  | .continue _ target => .continue 0 target
  | .return _ target value => .return 0 target (eraseOf value)
  | .default _ ty => .default 0 ty
  | .extension _ form ty nodes => .extension 0 form ty (eraseAll nodes)

def eraseOf : Option Expr → Option Expr
  | none => none
  | some e => some e.erase

def eraseAll : List Expr → List Expr
  | [] => []
  | e :: es => e.erase :: eraseAll es

end

theorem eraseAll_eq : ∀ es : List Expr, eraseAll es = es.map erase
  | [] => rfl
  | e :: es => by rw [eraseAll, eraseAll_eq es, List.map_cons]

theorem eraseOf_eq : ∀ e : Option Expr, eraseOf e = e.map erase
  | none => rfl
  | some _ => rfl

/-- Whether two trees differ in the identities of their nodes only. -/
def Alike (e f : Expr) : Prop :=
  e.erase = f.erase

theorem Alike.refl (e : Expr) : e.Alike e :=
  rfl

theorem Alike.symm {e f : Expr} (h : e.Alike f) : f.Alike e :=
  Eq.symm h

theorem Alike.trans {e f k : Expr} (h : e.Alike f) (h' : f.Alike k) : e.Alike k :=
  Eq.trans h h'

/-- Whether two nodes are alike, with the nodes below them given by their places. -/
inductive Twin : Expr → Expr → Prop
  | constant {i j value ty} : Twin (.constant i value ty) (.constant j value ty)
  | variable {i j target} : Twin (.variable i target) (.variable j target)
  | binary {i j op l l' r r' ty} (hl : Alike l l') (hr : Alike r r') :
    Twin (.binary i op l r ty) (.binary j op l' r' ty)
  | unary {i j op a a' ty} (ha : Alike a a') : Twin (.unary i op a ty) (.unary j op a' ty)
  | assign {i j op a a' v v'} (ha : Alike a a') (hv : Alike v v') :
    Twin (.assign i op a v) (.assign j op a' v')
  | conditional {i j a a' b b' c c' ty} (ha : Alike a a') (hb : Alike b b') (hc : Alike c c') :
    Twin (.conditional i a b c ty) (.conditional j a' b' c' ty)
  | call {i j a a' method args args'} (ha : Option.Rel Alike a a')
    (hargs : List.Forall₂ Alike args args') : Twin (.call i a method args) (.call j a' method args')
  | invoke {i j a a' args args' ty} (ha : Alike a a') (hargs : List.Forall₂ Alike args args') :
    Twin (.invoke i a args ty) (.invoke j a' args' ty)
  | new {i j ty constructor args args'} (hargs : List.Forall₂ Alike args args') :
    Twin (.new i ty constructor args) (.new j ty constructor args')
  | newArray {i j element items items'} (hitems : List.Forall₂ Alike items items') :
    Twin (.newArray i element items) (.newArray j element items')
  | member {i j a a' target} (ha : Option.Rel Alike a a') :
    Twin (.member i a target) (.member j a' target)
  | index {i j a a' args args' ty} (ha : Alike a a') (hargs : List.Forall₂ Alike args args') :
    Twin (.index i a args ty) (.index j a' args' ty)
  | lambda {i j params a a' ty} (ha : Alike a a') :
    Twin (.lambda i params a ty) (.lambda j params a' ty)
  | block {i j locals xs xs' ty} (hxs : List.Forall₂ Alike xs xs') :
    Twin (.block i locals xs ty) (.block j locals xs' ty)
  | loop {i j a a' bl cl} (ha : Option.Rel Alike a a') : Twin (.loop i a bl cl) (.loop j a' bl cl)
  | break {i j target} : Twin (.break i target) (.break j target)
  | continue {i j target} : Twin (.continue i target) (.continue j target)
  | return {i j target a a'} (ha : Option.Rel Alike a a') :
    Twin (.return i target a) (.return j target a')
  | default {i j ty} : Twin (.default i ty) (.default j ty)
  | extension {i j form ty xs xs'} (hxs : List.Forall₂ Alike xs xs') :
    Twin (.extension i form ty xs) (.extension j form ty xs')

theorem forall₂_alike {xs ys : List Expr} (h : eraseAll xs = eraseAll ys) :
    List.Forall₂ Alike xs ys := by
  induction xs generalizing ys with
  | nil =>
    cases ys with
    | nil => exact .nil
    | cons => cases h
  | cons x xs ih =>
    cases ys with
    | nil => cases h
    | cons y ys =>
      injection h with hx hxs
      exact .cons hx (ih hxs)

theorem optionRel_alike {a b : Option Expr} (h : eraseOf a = eraseOf b) : Option.Rel Alike a b := by
  cases a <;> cases b
  · exact .none
  · cases h
  · cases h
  · injection h with h
    exact .some h

theorem Alike.twin {e f : Expr} (h : e.Alike f) : Twin e f := by
  unfold Alike at h
  cases e <;> cases f <;> simp only [erase, reduceCtorEq] at h <;> injections <;> subst_vars <;>
    constructor <;> first | assumption | exact forall₂_alike ‹_› | exact optionRel_alike ‹_›

/-! ### What alike trees share -/

section Alike
variable {e f : Expr}

theorem Alike.kind (h : e.Alike f) : e.kind = f.kind := by
  cases h.twin <;> rfl

theorem Alike.isEmpty (h : e.Alike f) : e.isEmpty = f.isEmpty := by
  cases h.twin <;> rfl

theorem Alike.captured? (h : e.Alike f) : e.captured? = f.captured? := by
  cases h.twin with
  | @constant _ _ value => cases value <;> rfl
  | _ => rfl

theorem Alike.isCaptured (h : e.Alike f) : e.isCaptured = f.isCaptured := by
  rw [Expr.isCaptured, Expr.isCaptured, h.captured?]

theorem Alike.isCall (h : e.Alike f) : e.isCall = f.isCall := by
  cases h.twin <;> rfl

theorem Alike.isBlock (h : e.Alike f) : e.isBlock = f.isBlock := by
  cases h.twin <;> rfl

theorem Alike.isConditional (h : e.Alike f) : e.isConditional = f.isConditional := by
  cases h.twin <;> rfl

theorem Alike.isLambda (h : e.Alike f) : e.isLambda = f.isLambda := by
  cases h.twin <;> rfl

theorem ty_erase (e : Expr) : e.erase.ty = e.ty := by
  induction e using childInduction with
  | step e ih =>
    cases e with
    | assign _ _ target value => exact ih target (by simp [children])
    | _ => rfl

theorem Alike.ty (h : e.Alike f) : e.ty = f.ty := by
  rw [← ty_erase e, ← ty_erase f, h]

theorem receiver?_erase (e : Expr) : e.erase.receiver? = e.receiver?.map erase := by
  cases e with
  | call _ subject method args =>
    simp only [erase, receiver?, eraseAll_eq, eraseOf_eq, List.head?_map]
    split <;> rfl
  | _ => rfl

theorem children_erase (e : Expr) : e.erase.children = e.children.map erase := by
  cases e <;> simp [erase, children, eraseAll_eq, eraseOf_eq, Option.toList_map]

theorem explicitNames_erase (e : Expr) : e.erase.explicitNames = e.explicitNames := by
  cases e with
  | member _ subject target =>
    cases subject with
    | none => rfl
    | some subject =>
      have : subject.erase.isCaptured = subject.isCaptured := by
        cases subject with
        | constant _ value => cases value <;> rfl
        | _ => rfl
      simp only [erase, eraseOf, explicitNames, this]
  | _ => rfl

theorem nodes_erase (e : Expr) : e.erase.nodes = e.nodes.map erase := by
  induction e using childInduction with
  | step e ih =>
    rw [nodes_eq, nodes_eq e, List.map_cons, children_erase, List.flatMap_map, List.map_flatMap]
    exact congrArg _ (List.flatMap_congr ih)

theorem Alike.reserve (h : e.Alike f) (t : NameTable) : t.reserve e = t.reserve f := by
  have hnames : ∀ k : Expr, k.nodes.flatMap explicitNames = k.erase.nodes.flatMap explicitNames := by
    intro k
    rw [nodes_erase, List.flatMap_map]
    exact List.flatMap_congr fun c _ => (explicitNames_erase c).symm
  rw [NameTable.reserve, NameTable.reserve, hnames e, hnames f, h]

theorem kind_erase (e : Expr) : e.erase.kind = e.kind := by
  cases e <;> rfl

theorem Alike.map_kind_nodes (h : e.Alike f) : e.nodes.map Expr.kind = f.nodes.map Expr.kind := by
  have hkinds : ∀ k : Expr, k.nodes.map Expr.kind = k.erase.nodes.map Expr.kind := by
    intro k
    rw [nodes_erase, List.map_map]
    exact List.map_congr_left fun c _ => (kind_erase c).symm
  rw [hkinds e, hkinds f, h]

end Alike

end Expr

end ExprText
