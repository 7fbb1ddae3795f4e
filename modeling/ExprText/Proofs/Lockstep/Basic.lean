import ExprText.Proofs.Shape

/-! # Renderings in lockstep

Two alike nodes are shown by the same actions in the same order. What is to be shown of two renderings
is a judgement on pairs of actions: that they end alike, that one can be replayed as the other, or,
for a node beside itself, that an action keeps an invariant or succeeds on a condition. A judgement
that obeys the rules of this module extends from the nodes that are shown below a node to the node
itself, whatever its kind.

A judgement carries the moment at which an action starts, that is, what the open scopes declare by
then, the condition on which the action succeeds, and what it answers and when. -/

namespace ExprText

/-! ### Moments -/

namespace Render
variable {M : Type} (declare : Variable → M → M)

/-- The moment after a statement. -/
def afterStatement (locals : List Variable) (statement : Expr) (m : M) : M :=
  (declaredBy locals statement).elim m (declare · m)

/-- Statements with the moments at which they are shown. -/
def statementSteps (locals : List Variable) : List Expr → M → List (Expr × M)
  | [], _ => []
  | s :: rest, m => (s, m) :: statementSteps locals rest (afterStatement declare locals s m)

/-- The moment after the declarations before the statements of a block. -/
def afterDeclarations (locals : List Variable) (statements : List Expr) : List Variable → M → M
  | [], m => m
  | v :: rest, m =>
    afterDeclarations locals statements rest
      (if isAssigned locals statements v then m else declare v m)

end Render

namespace Expr

open Render

/-- The identities of the variables that a block declares. -/
def locals : Expr → List Nat
  | .block _ locals _ _ => locals.map Variable.id
  | _ => []

/-- The nodes that a node shows below it, with the moments at which they are shown. -/
def steps {M : Type} (declare : Variable → M → M) (m : M) : Expr → List (Expr × M)
  | .block _ locals statements _ =>
    let shown := statements.filter (!·.isEmpty)
    statementSteps declare locals shown (afterDeclarations declare locals shown locals m)
  | e => e.shown.map (·, m)

section Steps
variable {M : Type} (declare : Variable → M → M) {e f : Expr}

theorem statementSteps_fst (locals : List Variable) : ∀ (statements : List Expr) (m : M),
    (statementSteps declare locals statements m).map Prod.fst = statements
  | [], _ => rfl
  | s :: rest, m => by
    rw [statementSteps, List.map_cons, statementSteps_fst locals rest]

theorem steps_of_isBlock (h : e.isBlock = false) (m : M) :
    e.steps declare m = e.shown.map (·, m) := by
  cases e with
  | block => cases h
  | _ => rfl

theorem steps_fst (e : Expr) (m : M) : (e.steps declare m).map Prod.fst = e.shown := by
  cases e with
  | block => exact statementSteps_fst declare _ _ _
  | _ => simp [steps, Function.comp_def]

theorem mem_shown_of_mem_steps {m : M} {x : Expr × M} (h : x ∈ e.steps declare m) :
    x.1 ∈ e.shown := by
  rw [← steps_fst declare e m]
  exact List.mem_map_of_mem h

section Change
variable {N : Type} {declare : Variable → M → M} {declare' : Variable → N → N} {f : M → N}

theorem map_statementSteps (hf : ∀ v m, f (declare v m) = declare' v (f m))
    (locals : List Variable) : ∀ (statements : List Expr) (m : M),
    (statementSteps declare locals statements m).map (fun x => (x.1, f x.2)) =
      statementSteps declare' locals statements (f m)
  | [], _ => rfl
  | s :: rest, m => by
    have hafter : f (afterStatement declare locals s m) = afterStatement declare' locals s (f m) := by
      unfold afterStatement
      cases declaredBy locals s with
      | none => rfl
      | some v => exact hf v m
    rw [statementSteps, statementSteps, List.map_cons, map_statementSteps hf locals rest, hafter]

theorem map_afterDeclarations (hf : ∀ v m, f (declare v m) = declare' v (f m))
    (locals : List Variable) (statements : List Expr) : ∀ (vs : List Variable) (m : M),
    f (afterDeclarations declare locals statements vs m) =
      afterDeclarations declare' locals statements vs (f m)
  | [], _ => rfl
  | v :: rest, m => by
    rw [afterDeclarations, afterDeclarations, map_afterDeclarations hf locals statements rest]
    split
    · rfl
    · rw [hf]

theorem map_steps (declare : Variable → M → M) (declare' : Variable → N → N) (f : M → N)
    (hf : ∀ v m, f (declare v m) = declare' v (f m)) (e : Expr) (m : M) :
    (e.steps declare m).map (fun x => (x.1, f x.2)) = e.steps declare' (f m) := by
  cases e with
  | block =>
    simp only [steps]
    rw [map_statementSteps hf, map_afterDeclarations hf]
  | _ => simp [steps, Function.comp_def]

end Change

theorem afterStatement_alike (h : Alike e f) (locals : List Variable) (m : M) :
    afterStatement declare locals e m = afterStatement declare locals f m := by
  rw [afterStatement, afterStatement, h.declaredBy]

theorem statementSteps_alike {locals : List Variable} {xs ys : List Expr}
    (h : List.Forall₂ Alike xs ys) (m : M) :
    List.Forall₂ (fun x y => Alike x.1 y.1 ∧ x.2 = y.2) (statementSteps declare locals xs m)
      (statementSteps declare locals ys m) := by
  induction h generalizing m with
  | nil => exact .nil
  | cons hx _ ih =>
    refine .cons ⟨hx, rfl⟩ ?_
    rw [afterStatement_alike declare hx]
    exact ih _

theorem afterDeclarations_alike {locals : List Variable} {xs ys : List Expr}
    (h : List.Forall₂ Alike xs ys) : ∀ (vs : List Variable) (m : M),
    afterDeclarations declare locals xs vs m = afterDeclarations declare locals ys vs m
  | [], _ => rfl
  | v :: rest, m => by
    rw [afterDeclarations, afterDeclarations, isAssigned_alike h, afterDeclarations_alike h rest]

theorem Alike.steps (h : Alike e f) (m : M) :
    List.Forall₂ (fun x y => Alike x.1 y.1 ∧ x.2 = y.2) (e.steps declare m)
      (f.steps declare m) := by
  have other : List.Forall₂ (fun x y => Alike x.1 y.1 ∧ x.2 = y.2) (e.shown.map (·, m))
      (f.shown.map (·, m)) := by
    rw [List.forall₂_map_left_iff, List.forall₂_map_right_iff]
    exact h.shown.imp fun _ _ hx => ⟨hx, rfl⟩
  cases h.twin with
  | block hxs =>
    have hshown := filter_isEmpty_alike hxs
    simp only [Expr.steps]
    rw [afterDeclarations_alike declare hshown]
    exact statementSteps_alike declare hshown _
  | _ => exact other

end Steps

/-- Whether two nodes under the given nodes see above them alike what their texts depend on. -/
structure SeenAlike (path path' : List Expr) (e e' : Expr) : Prop where
  /-- Both or none carry the wrapper of their arithmetic. -/
  wraps : carriesChecked path.head? e = carriesChecked path'.head? e'
  /-- The calls below both or none keep their parentheses. -/
  keeps : e.isCall = true → e.shown.any isCall = true →
    ((e :: path).find? (!·.isCall)).any (·.kind.takesChecked) =
      ((e' :: path').find? (!·.isCall)).any (·.kind.takesChecked)
  /-- Both or none are links of a chain of calls. -/
  chains : e.isCall = true → e.receiver?.any isCall = true →
    (3 ≤ e.callCount + Session.linksAbove (e :: path) ↔
      3 ≤ e'.callCount + Session.linksAbove (e' :: path'))
  /-- Blocks stand at the same position. -/
  position : e.isBlock = true → Position.under e path.head? = Position.under e' path'.head?
  /-- The target of a break belongs to a loop above both or none. -/
  breaks : ∀ id target, e = .break id target →
    path.any (ownsLabel (fun b _ => b) target) = path'.any (ownsLabel (fun b _ => b) target)
  /-- The target of a continue belongs to a loop above both or none. -/
  continues : ∀ id target, e = .continue id target →
    path.any (ownsLabel (fun _ c => c) target) = path'.any (ownsLabel (fun _ c => c) target)

end Expr

/-! ### Judgements -/

section Lockstep
variable {M : Type} (declare : Variable → M → M)

open ExprText.Expr Render

/-- Two sessions in which the nodes `e` and `e'` are being shown at a moment. -/
structure Beside (path path' : List Expr) (e e' : Expr) (m : M) (s t : Session) : Prop where
  left : s.path = e :: path
  right : t.path = e' :: path'
  declared : ∀ v : Variable, v.id ∈ e.locals → s.isDeclared v = t.isDeclared v
  /-- To declare what is declared is to wait. -/
  known : ∀ v : Variable, v.id ∈ e.locals → s.isDeclared v = true → declare v m = m

/-- The answers of two actions are the same and no moment has passed. -/
def Same {α : Type} (m : M) (a b : α) (n : M) : Prop :=
  a = b ∧ n = m

/-- The texts of a node and its twin are the same, and the text of an assignment is not empty unless
    declarations are ignored. -/
def Told (c : Expr) (m : M) (a b : String) (n : M) : Prop :=
  Same m a b n ∧ ∀ op, c.kind = .assign op → a = "" → ∀ v k, declare v k = k

/-- The rules of a judgement on actions that show the nodes `e` and `e'`. `Step _ m P Q x y` is to say
    that `x` and `y` start at the moment `m`, that they succeed if and only if `P` does, and that then
    `Q` holds of their answers and of the moment at which they end. -/
structure Lockstep (path path' : List Expr) (e e' : Expr)
    (Step : (α : Type) → M → Prop → (α → α → M → Prop) → RenderM α → RenderM α → Prop) : Prop where
  alike : Alike e e'
  seen : SeenAlike path path' e e'
  congr : ∀ {α : Type} {m : M} {P P' : Prop} {Q : α → α → M → Prop} {x y : RenderM α},
    (P ↔ P') → Step α m P Q x y → Step α m P' Q x y
  answer : ∀ {α : Type} {m : M} {Q : α → α → M → Prop} {a b : α},
    Q a b m → Step α m True Q (pure a) (pure b)
  /-- What follows may depend on an answer as long as its condition does not. -/
  sequel : ∀ {α β : Type} {m : M} {P R : Prop} {T : α → Prop} {Q : α → α → M → Prop}
    {Q' : β → β → M → Prop} {x y : RenderM α} {f g : α → RenderM β}, Step α m P Q x y →
    (∀ a b n, Q a b n → Step β n (T a) Q' (f a) (g b)) → (P → ∀ a, T a ↔ R) →
    Step β m (P ∧ R) Q' (x >>= f) (y >>= g)
  refusal : ∀ {α : Type} {m : M} {Q : α → α → M → Prop} (cause : Cause),
    Step α m False Q (RenderM.refuse cause) (RenderM.refuse cause)
  reading : ∀ {m : M}, Step Env m True
    (fun a b n => (a.settings = b.settings ∧ a.typeName = b.typeName) ∧ n = m) read read
  looking : ∀ {m : M}, Step Session m True
    (fun s t n => Beside declare path path' e e' m s t ∧ n = m) get get
  declaring : ∀ {m : M} {v : Variable}, v.id ∈ e.locals → Step Bool m True
    (fun a b n => a = b ∧ n = declare v m) (modifyGet (Session.declare v))
    (modifyGet (Session.declare v))
  asking : ∀ {m : M} {r : NameRequest}, r ∈ e.requests →
    Step String m True (Same m) (RenderM.ask r) (RenderM.ask r)
  scoping : ∀ {α : Type} {m : M} {P : Prop} {Q : α → α → M → Prop} {x y : RenderM α},
    Step α m P (fun a b _ => Q a b m) x y → Step α m P Q (RenderM.inScope x) (RenderM.inScope y)

end Lockstep

namespace Lockstep

open ExprText.Expr Render RenderM

variable {M : Type} {declare : Variable → M → M} {path path' : List Expr} {e e' : Expr}
  {Step : (α : Type) → M → Prop → (α → α → M → Prop) → RenderM α → RenderM α → Prop}

/-! ### Derived rules -/

section Rules
variable (L : Lockstep declare path path' e e' Step) {α β : Type} {m : M} {P T : Prop}
  {Q Q' : α → α → M → Prop} {R : β → β → M → Prop} {x y : RenderM α} {f g : α → RenderM β}
include L

theorem andThen (h : Step α m P Q x y) (hf : ∀ a b n, Q a b n → Step β n T R (f a) (g b)) :
    Step β m (P ∧ T) R (x >>= f) (y >>= g) :=
  L.sequel h hf fun _ _ => Iff.rfl

theorem next (h : Step α m P (Same m) x y) (hf : ∀ a, Step β m T R (f a) (g a)) :
    Step β m (P ∧ T) R (x >>= f) (y >>= g) := by
  refine L.andThen h fun a b n hab => ?_
  obtain ⟨rfl, rfl⟩ := hab
  exact hf a

/-- What follows an action that answers alike and never fails. -/
theorem sure (h : Step α m True (Same m) x y) (hf : ∀ a, Step β m T R (f a) (g a)) :
    Step β m T R (x >>= f) (y >>= g) :=
  L.congr (by rw [true_and]) (L.next h hf)

theorem last {h k : α → β} (hx : Step α m P (Same m) x y) (hf : ∀ a, R (h a) (k a) m) :
    Step β m P R (do return h (← x)) (do return k (← y)) :=
  L.congr (by rw [and_true]) (L.next hx fun a => L.answer (hf a))

theorem weaken (h : Step α m P Q x y) (hQ : ∀ a b n, Q a b n → Q' a b n) : Step α m P Q' x y := by
  have := L.andThen h fun a b n hab => L.answer (hQ a b n hab)
  rw [bind_pure, bind_pure] at this
  exact L.congr (by rw [and_true]) this

theorem same (a : α) : Step α m True (Same m) (pure a) (pure a) :=
  L.answer ⟨rfl, rfl⟩

theorem typeName (ty : Ty) : Step String m True (Same m) (typeName ty) (typeName ty) := by
  refine L.congr (by rw [and_true]) (L.andThen L.reading fun a b n h => L.answer ?_)
  obtain ⟨⟨-, hq⟩, rfl⟩ := h
  exact ⟨by rw [hq], rfl⟩

theorem indent : Step String m True (Same m) indent indent := by
  refine L.congr (by rw [and_true]) (L.andThen L.reading fun a b n h => L.answer ?_)
  obtain ⟨⟨hs, -⟩, rfl⟩ := h
  exact ⟨by rw [Env.indent, Env.indent, hs], rfl⟩

theorem argumentList (opening closing : String) (texts : List String) :
    Step String m True (Same m) (argumentList opening closing texts)
      (argumentList opening closing texts) := by
  refine L.congr (by rw [and_true]) (L.andThen L.reading fun a b n h => L.answer ?_)
  obtain ⟨⟨hs, -⟩, rfl⟩ := h
  exact ⟨by rw [hs], rfl⟩

theorem mapM {γ : Type} {f g : γ → RenderM α} {P : γ → Prop} {xs ys : List γ}
    (h : List.Forall₂ (fun x y => Step α m (P x) (Same m) (f x) (g y)) xs ys) :
    Step (List α) m (∀ x ∈ xs, P x) (Same m) (xs.mapM f) (ys.mapM g) := by
  induction h with
  | nil => exact L.congr (by simp) (L.same [])
  | cons hx _ ih =>
    rw [List.mapM_cons, List.mapM_cons, List.forall_mem_cons]
    exact L.next hx fun a => L.last ih fun as => ⟨rfl, rfl⟩

end Rules

end Lockstep

end ExprText
