import ExprText.Proofs.Parallel.Basic

/-! # Actions in parallel

A judgement on two actions, one of each rendering: from sessions that compare they lead to sessions that
compare, and they both fail in the same way or both answer, with answers that stand in a given relation.
One rule for each way to build an action, and one for each way in which the texts of children enter the
text of their parent. -/

namespace ExprText

open Render RenderM

/-- Whether the text of a node under `parent` stands in parentheses of its own. -/
def Expr.Grouped (parent : Option Expr) (e : Expr) : Prop :=
  match e with
  | .binary .. => carriesChecked parent e = false
  | .unary _ op _ _ => op = .typeAs
  | _ => False

/-- Whether a node is laid out in one way, however many lines its parts have. -/
def Expr.Even : Expr → Prop
  | .lambda _ _ body _ =>
    body.kind = .block ∨ body.kind = .loop ∨ body.isEmpty = true ∨ body.ty.isVoid = false
  | e => chainHasChecked e = false

namespace Comparison

/-- What a graph must be like for its renderings to compare. -/
structure Suits (C : Comparison) (root : Expr) : Prop where
  plain : ∀ e ∈ root.nodes, e.kind ≠ .extension
  spelled : ∀ e ∈ root.nodes, ∀ w ∈ e.spellings, Text.Free C.marks w ∧ C.Head w
  even : C.Exact ∨ ∀ e ∈ root.nodes, e.Even

/-- What is known of the texts of a node under `parent`. -/
def Texts (C : Comparison) (parent : Option Expr) (e : Expr) (a b : String) : Prop :=
  C.Beside a b ∧ (e.Grouped parent → ∃ x y, C.Beside x y ∧ a = "(" ++ x ++ ")")

/-- Two sessions under the given nodes in renderings that compare. -/
structure Sessions (C : Comparison) (root : Expr) (path : List Expr) (s t : Session) : Prop where
  left_path : s.path = path
  right_path : t.path = path
  names : s.names = t.names
  legible : s.names.Legible C.marks
  scopes : s.scopes = t.scopes
  memo : ∀ key, Option.Rel C.Beside (s.memo.lookup key) (t.memo.lookup key)
  /-- Every text that is remembered is the text of a node at its place. -/
  origin : ∀ key a, s.memo.lookup key = some a →
    ∃ p e b, root.Reaches p e ∧ e.place p = key ∧ C.Texts p.head? e a b

theorem Sessions.withScopes {C : Comparison} {root : Expr} {path : List Expr} {s t : Session}
    (h : C.Sessions root path s t) {scopes scopes' : List (List Nat)} (hscopes : scopes = scopes') :
    C.Sessions root path { s with scopes } { t with scopes := scopes' } :=
  ⟨h.left_path, h.right_path, h.names, h.legible, hscopes, h.memo, h.origin⟩

/-- Both actions fail in the same way, or they answer as `Q` says. -/
def Ends {α : Type} (Q : α → α → Prop) : Except Fault α → Except Fault α → Prop
  | .ok a, .ok b => Q a b
  | .error fault, .error fault' => fault = fault'
  | _, _ => False

end Comparison

/-- Two actions under the given nodes, one of each rendering, run in parallel. -/
def Parallel (C : Comparison) (root : Expr) (path : List Expr) {α : Type} (Q : α → α → Prop)
    (x y : RenderM α) : Prop :=
  ∀ s t, C.Sessions root path s t →
    C.Sessions root path (x.runOn C.left s).2 (y.runOn C.right t).2 ∧
      Comparison.Ends Q (x.runOn C.left s).1 (y.runOn C.right t).1

namespace Parallel

variable {C : Comparison} {root : Expr} {path : List Expr} {α β : Type} {Q Q' : α → α → Prop}
  {R : β → β → Prop} {x y : RenderM α} {f g : α → RenderM β}

/-! ### Rules -/

theorem pure {a b : α} (h : Q a b) : Parallel C root path Q (pure a) (pure b) :=
  fun _ _ hst => ⟨hst, h⟩

theorem bind (hx : Parallel C root path Q x y)
    (hf : ∀ a b, Q a b → Parallel C root path R (f a) (g b)) :
    Parallel C root path R (x >>= f) (y >>= g) := by
  intro s t hst
  obtain ⟨hsessions, hends⟩ := hx s t hst
  rw [runOn_bind, runOn_bind]
  rcases hleft : x.runOn C.left s with ⟨fault | a, s'⟩ <;>
    rcases hright : y.runOn C.right t with ⟨fault' | b, t'⟩ <;>
    rw [hleft, hright] at hsessions hends
  · exact ⟨hsessions, hends⟩
  · exact hends.elim
  · exact hends.elim
  · exact hf a b hends s' t' hsessions

theorem map {h k : α → β} (hx : Parallel C root path Q x y) (hf : ∀ a b, Q a b → R (h a) (k b)) :
    Parallel C root path R (do return h (← x)) (do return k (← y)) :=
  hx.bind fun a b hab => pure (hf a b hab)

theorem weaken (hx : Parallel C root path Q x y) (h : ∀ a b, Q a b → Q' a b) :
    Parallel C root path Q' x y := by
  have hmap := hx.bind (f := Pure.pure) (g := Pure.pure) fun a b hab => pure (h a b hab)
  rwa [bind_pure, bind_pure] at hmap

theorem mapM {γ : Type} {f g : γ → RenderM α} {cs : List γ}
    (h : ∀ c ∈ cs, Parallel C root path Q (f c) (g c)) :
    Parallel C root path (List.Forall₂ Q) (cs.mapM f) (cs.mapM g) := by
  induction cs with
  | nil => exact pure .nil
  | cons c cs ih =>
    obtain ⟨hc, hcs⟩ := List.forall_mem_cons.mp h
    rw [List.mapM_cons, List.mapM_cons]
    exact hc.bind fun a b hab => (ih hcs).map fun as bs habs => .cons hab habs

theorem get : Parallel C root path (C.Sessions root path) get get :=
  fun _ _ hst => ⟨hst, hst⟩

theorem read : Parallel C root path (fun a b => a = C.left ∧ b = C.right) read read :=
  fun _ _ hst => ⟨hst, rfl, rfl⟩

theorem refuse (cause : Cause) : Parallel C root path Q (refuse cause) (refuse cause) := by
  intro s t hst
  have hkind : s.currentKind = t.currentKind := by
    rw [Session.currentKind, Session.currentKind, Session.current?, Session.current?, hst.left_path,
      hst.right_path]
  exact ⟨hst, by rw [runOn_refuse, runOn_refuse, hkind]; rfl⟩

theorem ask (hs : C.Suits root) {r : NameRequest} (hr : root.Mentions r) :
    Parallel C root path (fun a b => a = b ∧ Text.Free C.marks a) (ask r) (ask r) := by
  intro s t hst
  obtain ⟨e, he, hr⟩ := hr
  have hspelled : ∀ w ∈ r.spellings, Text.Free C.marks w := fun w hw =>
    (hs.spelled e he w (List.mem_append_right _ (List.mem_flatMap.mpr ⟨r, hr, hw⟩))).1
  obtain ⟨hfree, hlegible⟩ := hst.legible.answer C.punctuation hspelled
  have hanswer : s.names.answer r = t.names.answer r := by rw [hst.names]
  have hname : (s.names.answer r).1 = (t.names.answer r).1 := by rw [hanswer]
  have hnames : (s.names.answer r).2 = (t.names.answer r).2 := by rw [hanswer]
  rw [runOn_ask, runOn_ask]
  exact ⟨⟨hst.left_path, hst.right_path, hnames, hlegible, hst.scopes, hst.memo, hst.origin⟩, hname, hfree⟩

theorem asked (hs : C.Suits root) {r : NameRequest} (hr : root.Mentions r) :
    Parallel C root path C.Beside (RenderM.ask r) (RenderM.ask r) := by
  refine (ask hs hr).weaken ?_
  rintro name _ ⟨rfl, hname⟩
  exact C.free hname

theorem declare (v : Variable) : Parallel C root path (fun a b => a = b)
    (modifyGet (Session.declare v)) (modifyGet (Session.declare v)) := by
  intro s t hst
  rw [runOn_modifyGet, runOn_modifyGet]
  unfold Session.declare Session.isDeclared
  rw [hst.scopes]
  split
  · exact ⟨hst, rfl⟩
  · cases hscopes : t.scopes with
    | nil => exact ⟨hst, rfl⟩
    | cons inner outer => exact ⟨hst.withScopes rfl, rfl⟩

theorem inScope (hx : Parallel C root path Q x y) :
    Parallel C root path Q (inScope x) (inScope y) := by
  intro s t hst
  have hopen : C.Sessions root path s.openScope t.openScope :=
    hst.withScopes (congrArg (List.cons []) hst.scopes)
  obtain ⟨hsessions, hends⟩ := hx _ _ hopen
  rw [RenderM.inScope, RenderM.inScope, runOn_between, runOn_between]
  refine ⟨?_, hends⟩
  unfold Session.closeScope
  have hscopes := hsessions.scopes
  cases hright : (y.runOn C.right t.openScope).2.scopes with
  | nil =>
    rw [hright] at hscopes
    rw [hscopes]
    exact hsessions
  | cons inner outer =>
    rw [hright] at hscopes
    rw [hscopes]
    cases outer with
    | nil => exact hsessions
    | cons => exact hsessions.withScopes rfl

/-! ### Texts -/

theorem typeName (hs : C.Suits root) {e : Expr} (he : e ∈ root.nodes) {ty : Ty}
    (hty : ∀ w ∈ ty.spellings, w ∈ e.spellings) :
    Parallel C root path (fun a b => a = b ∧ C.Head a) (typeName ty) (typeName ty) := by
  refine read.map fun a b h => ?_
  obtain ⟨rfl, rfl⟩ := h
  rw [C.left_names, C.right_names]
  exact ⟨rfl, Comparison.display _ ty fun w hw => (hs.spelled e he w (hty w hw)).2⟩

theorem indent : Parallel C root path (fun a b => a = C.left.indent ∧ b = C.right.indent) indent indent :=
  read.map fun a b h => ⟨by rw [h.1], by rw [h.2]⟩

/-- Texts that are two layouts of arguments in parentheses. -/
def Listed (C : Comparison) (a b : String) : Prop :=
  ∃ xs ys, List.Forall₂ C.Beside xs ys ∧ a = C.left.settings.argumentList "(" ")" xs ∧
    b = C.right.settings.argumentList "(" ")" ys

theorem indices {xs ys : List String} (h : List.Forall₂ C.Beside xs ys) :
    Parallel C root path C.Beside (argumentList "[" "]" xs) (argumentList "[" "]" ys) := by
  refine read.map fun a b hab => ?_
  rw [hab.1, hab.2]
  exact C.indices h

theorem stripped (c : Expr) {a b : String} (h : C.Beside a b) :
    Parallel C root path C.Beside (stripped c a) (stripped c b) := by
  refine get.map fun s t hst => ?_
  have hkeeps : s.keepsParens c = t.keepsParens c := by
    cases c <;> simp only [Session.keepsParens, hst.left_path, hst.right_path]
  rw [Session.stripped, Session.stripped, hkeeps]
  split
  · exact h
  · exact C.withoutParens h

/-! ### Children -/

/-- Two bodies of one node. -/
structure Bodies (C : Comparison) (b b' : Body) : Prop where
  text : C.Beside b.text b'.text
  isSingle : b.isSingle = b'.isSingle
  indent : b.indent = C.left.indent ∧ b'.indent = C.right.indent

theorem Bodies.bracketed {b b' : Body} (h : Bodies C b b') : C.Beside b.bracketed b'.bracketed := by
  unfold Body.bracketed Body.isEmpty
  rw [C.isEmpty h.text, h.indent.1, h.indent.2]
  split
  · exact C.fixed _ (by decide)
  · exact C.append (C.fixed "\n" (by decide)) (C.braces (Comparison.terminated h.text))

section Children
variable {visit : Visit} {c : Expr} (hc : Parallel C root path C.Beside (visit c) (visit c))
include hc

theorem strippedText : Parallel C root path C.Beside (strippedText visit c) (strippedText visit c) :=
  hc.bind fun _ _ h => stripped c h

theorem body : Parallel C root path (Bodies C) (body visit c) (body visit c) := by
  refine hc.bind fun a b h => ?_
  have other : Parallel C root path (Bodies C)
      (do return ⟨← RenderM.stripped c a, true, ← RenderM.indent⟩)
      (do return ⟨← RenderM.stripped c b, true, ← RenderM.indent⟩) :=
    (stripped c h).bind fun a b h => indent.map fun i j hij => ⟨h, rfl, hij⟩
  cases c with
  | block => exact indent.map fun i j hij => ⟨h, rfl, hij⟩
  | _ => exact other

theorem operandText : Parallel C root path C.Beside (operandText visit c) (operandText visit c) := by
  refine hc.bind fun a b h => ?_
  cases c with
  | conditional | assign | lambda => exact pure (Comparison.withParens h)
  | _ => exact pure h

theorem receiverText : Parallel C root path C.Beside (receiverText visit c) (receiverText visit c) := by
  refine hc.map fun a b h => ?_
  split
  · exact Comparison.withParens h
  · exact h

end Children

/-! ### Arguments -/

section Arguments
variable {visit : Visit}

theorem argumentTexts {modifier : Modifier} {arg : Expr}
    (h : ∀ c ∈ argumentNodes modifier arg, Parallel C root path C.Beside (visit c) (visit c)) :
    Parallel C root path (List.Forall₂ C.Beside) (argumentTexts visit modifier arg)
      (argumentTexts visit modifier arg) := by
  have single : (∀ c ∈ [arg], Parallel C root path C.Beside (visit c) (visit c)) →
      Parallel C root path (List.Forall₂ C.Beside) (do return [← RenderM.strippedText visit arg])
        (do return [← RenderM.strippedText visit arg]) := fun h =>
    (strippedText (h arg List.mem_cons_self)).map fun a b hab => .cons hab .nil
  cases modifier with
  | value => exact single h
  | ref =>
    refine (h arg List.mem_cons_self).map fun a b hab => ?_
    exact .cons (C.append (C.fixed "ref " (by decide)) hab) .nil
  | out =>
    refine (h arg List.mem_cons_self).map fun a b hab => ?_
    exact .cons (C.append (C.fixed "out " (by decide)) hab) .nil
  | params =>
    cases arg with
    | newArray => exact mapM fun c hc => strippedText (h c hc)
    | _ => exact single h

theorem arguments {args : List Expr} {params : Option (List Parameter)}
    (h : ∀ c ∈ argumentsNodes args params, Parallel C root path C.Beside (visit c) (visit c)) :
    Parallel C root path (List.Forall₂ C.Beside) (arguments visit args params)
      (arguments visit args params) := by
  unfold RenderM.arguments
  cases params with
  | none =>
    have hall : Parallel C root path (List.Forall₂ (List.Forall₂ C.Beside))
        (args.mapM (RenderM.argumentTexts visit .value)) (args.mapM (RenderM.argumentTexts visit .value)) :=
      mapM fun arg harg => argumentTexts fun c hc => by
        obtain rfl := List.mem_singleton.mp hc
        exact h c harg
    exact hall.map fun as bs hab => List.rel_flatten hab
  | some params =>
    dsimp only
    split
    · have hall : Parallel C root path (List.Forall₂ (List.Forall₂ C.Beside))
          ((args.zip params).mapM fun x => RenderM.argumentTexts visit x.2.modifier x.1)
          ((args.zip params).mapM fun x => RenderM.argumentTexts visit x.2.modifier x.1) :=
        mapM fun x hx => argumentTexts fun c hc => h c (List.mem_flatMap.mpr ⟨x, hx, hc⟩)
      exact hall.map fun as bs hab => List.rel_flatten hab
    · exact refuse _

theorem parameters {args : List Expr} {params : Option (List Parameter)}
    (h : ∀ c ∈ argumentsNodes args params, Parallel C root path C.Beside (visit c) (visit c)) :
    Parallel C root path (Listed C) (parameters visit args params) (parameters visit args params) := by
  refine (arguments h).bind fun xs ys hxs => read.map fun a b hab => ?_
  rw [hab.1, hab.2]
  exact ⟨xs, ys, hxs, rfl, rfl⟩

end Arguments

end Parallel

end ExprText
