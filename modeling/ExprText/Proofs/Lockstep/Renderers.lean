import ExprText.Proofs.Lockstep.Children
import ExprText.Proofs.Registry

/-! # Renderers in lockstep

A judgement that holds of the nodes shown below a node holds of the node: one lemma for each family
of nodes, and `Lockstep.render` for all of them. -/

namespace ExprText.Lockstep

open ExprText.Expr Render RenderM

variable {M : Type} {declare : Variable → M → M} {path path' : List Expr} {e e' : Expr}
  {Step : (α : Type) → M → Prop → (α → α → M → Prop) → RenderM α → RenderM α → Prop}
  {visit visit' : Visit} {P : Expr → Prop} {m : M}

/-! ### Leaves -/

theorem constant {i j : Nat} {value : Constant} {ty : Ty}
    (L : Lockstep declare path path' (.constant i value ty) (.constant j value ty) Step) :
    Step String m True (Same m) (constant (.constant i value ty)) (constant (.constant j value ty)) := by
  cases value with
  | type ty => exact L.last (L.typeName ty) fun name => ⟨rfl, rfl⟩
  | enum ty member => exact L.last (L.typeName ty) fun name => ⟨rfl, rfl⟩
  | captured object => exact L.asking List.mem_cons_self
  | _ => exact L.same _

theorem «default» {i j : Nat} {ty : Ty}
    (L : Lockstep declare path path' (.default i ty) (.default j ty) Step) :
    Step String m True (Same m) (Render.default (.default i ty)) (Render.default (.default j ty)) := by
  unfold Render.default
  dsimp only
  split
  · exact L.same _
  · exact L.last (L.typeName ty) fun name => ⟨rfl, rfl⟩

/-! ### Operators -/

section Rules
variable (L : Lockstep declare path path' e e' Step)
include L

theorem wrapChecked (text : String) :
    Step String m True (Same m) (wrapChecked e text) (wrapChecked e' text) := by
  refine L.congr (by rw [and_true]) (L.andThen L.looking fun s t n h => ?_)
  obtain ⟨hst, rfl⟩ := h
  have hparent : carriesChecked s.parent? e = carriesChecked t.parent? e' := by
    rw [Session.parent?, Session.parent?, hst.left, hst.right]
    exact L.seen.wraps
  rw [hparent]
  split
  · exact L.last L.indent fun indent => ⟨rfl, rfl⟩
  · exact L.same _

theorem inCallChain {s t : Session} (he : e.isCall = true)
    (hst : Beside declare path path' e e' m s t) : s.inCallChain e = t.inCallChain e' := by
  have hpath : ∀ (x : Expr) (xs : List Expr), (x :: xs).dropWhile (!·.same x) = x :: xs := by
    simp [Expr.same]
  unfold Session.inCallChain Session.pathFrom
  rw [hst.left, hst.right, hpath, hpath, ← L.alike.receiver?_any_isCall]
  cases hany : e.receiver?.any isCall with
  | false => rfl
  | true => simpa using L.seen.chains he hany

theorem binaryOperand {c c' : Expr} (op : BinaryOp) (side : BinaryOp.Side)
    (h : Visits declare e Step visit visit' P m c c') :
    Step String m (P c) (Same m) (binaryOperand visit op side c) (binaryOperand visit' op side c') := by
  refine L.congr (by rw [and_true]) (L.next (L.operandText h) fun text => ?_)
  cases h.alike.twin <;> exact L.same _

theorem assignedText {c c' : Expr} (h : Visits declare e Step visit visit' P m c c') :
    Step String m (P c) (Same m) (assignedText visit c) (assignedText visit' c') := by
  refine L.congr (by rw [and_true]) (L.next (L.visited h) fun text => ?_)
  have other := L.stripped (m := m) h.mem h.alike text
  cases h.alike.twin with
  | assign | block => exact L.same _
  | _ => exact other

end Rules

theorem binary {i j : Nat} {op : BinaryOp} {l l' r r' : Expr} {ty : Ty}
    (L : Lockstep declare path path' (.binary i op l r ty) (.binary j op l' r' ty) Step)
    (hl : Visits declare (.binary i op l r ty) Step visit visit' P m l l')
    (hr : Visits declare (.binary i op l r ty) Step visit visit' P m r r') :
    Step String m (P l ∧ P r) (Same m) (binary visit (.binary i op l r ty))
      (binary visit' (.binary j op l' r' ty)) := by
  refine L.next (L.binaryOperand op .left hl) fun left => ?_
  refine L.congr (by rw [and_true]) (L.next (L.binaryOperand op .right hr) fun right => ?_)
  exact L.wrapChecked _

theorem unary {i j : Nat} {op : UnaryOp} {a a' : Expr} {ty : Ty}
    (L : Lockstep declare path path' (.unary i op a ty) (.unary j op a' ty) Step)
    (ha : Visits declare (.unary i op a ty) Step visit visit' P m a a') :
    Step String m (P a) (Same m) (unary visit (.unary i op a ty)) (unary visit' (.unary j op a' ty)) := by
  refine L.congr (by rw [and_true]) (L.next (L.operandText ha) fun text => ?_)
  refine L.congr (by rw [true_and]) (L.andThen (T := True) L.reading fun env env' n h => ?_)
  obtain ⟨⟨-, hq⟩, rfl⟩ := h
  rw [ha.alike.needsGrouping, ha.alike.ty]
  have htext : ∀ value, unaryText env op a'.ty ty value = unaryText env' op a'.ty ty value := by
    intro value
    cases op <;> simp only [unaryText, hq]
  rw [htext]
  exact L.wrapChecked _

theorem assign {i j : Nat} {op : AssignOp} {a a' v v' : Expr}
    (L : Lockstep declare path path' (.assign i op a v) (.assign j op a' v') Step)
    (ha : Visits declare (.assign i op a v) Step visit visit' P m a a')
    (hv : Visits declare (.assign i op a v) Step visit visit' P m v v') :
    Step String m (P a ∧ P v) (Told declare (.assign i op a v) m) (assign visit (.assign i op a v))
      (assign visit' (.assign j op a' v')) := by
  refine L.next (L.visited ha) fun target => L.last (L.assignedText hv) fun value => ?_
  refine ⟨⟨rfl, rfl⟩, fun _ _ hempty => ?_⟩
  have := congrArg String.length hempty
  simp at this

/-! ### Branches, lambdas and loops -/

theorem conditional {i j : Nat} {a a' b b' c c' : Expr} {ty : Ty}
    (L : Lockstep declare path path' (.conditional i a b c ty) (.conditional j a' b' c' ty) Step)
    (hc : Alike c c')
    (hv : List.Forall₂ (Visits declare (.conditional i a b c ty) Step visit visit' P m)
      (Expr.conditional i a b c ty).shown (Expr.conditional j a' b' c' ty).shown) :
    Step String m (∀ x ∈ (Expr.conditional i a b c ty).shown, P x) (Same m)
      (conditional visit (.conditional i a b c ty)) (conditional visit' (.conditional j a' b' c' ty)) := by
  simp only [Expr.shown, ← hc.isEmpty] at hv ⊢
  unfold Render.conditional
  simp only [← hc.isEmpty]
  obtain ⟨ha, hv⟩ := List.forall₂_cons.mp hv
  obtain ⟨hb, hv⟩ := List.forall₂_cons.mp hv
  simp only [List.cons_append, List.nil_append, List.forall_mem_cons]
  refine L.next (L.visited ha) fun test => L.next (L.body hb) fun first => ?_
  by_cases hskip : (c.isEmpty && ty.isVoid) = true
  · simp only [if_pos hskip]
    exact L.congr (P := True) (by simp) (L.same _)
  · simp only [if_neg hskip] at hv ⊢
    obtain ⟨hc, -⟩ := List.forall₂_cons.mp hv
    refine L.congr (P := P c) (by simp) (L.last (L.body hc) fun second => ⟨?_, rfl⟩)
    rw [branches, branches, hb.alike.ty, hc.alike.isConditional]

theorem lambdaBody (L : Lockstep declare path path' e e' Step) {c c' : Expr} (hc : Alike c c')
    (hv : c.isEmpty = false → Visits declare e Step visit visit' P m c c') :
    Step String m (c.isEmpty = false → P c) (Same m) (lambdaBody visit c) (lambdaBody visit' c') := by
  unfold Render.lambdaBody
  rw [← hc.isEmpty]
  cases hempty : c.isEmpty with
  | true => exact L.congr (by simp) (L.same _)
  | false =>
    have hv := hv hempty
    simp only [Bool.false_eq_true, if_false, true_implies]
    -- The body is shown once more where it has several lines.
    have other : Step String m (P c) (Same m)
        (do
          let text ← visit c
          if Text.isMultiLine text && c.ty.isVoid then return (← RenderM.body visit c).bracketed
          else return " " ++ (← RenderM.stripped c text))
        (do
          let text ← visit' c'
          if Text.isMultiLine text && c'.ty.isVoid then return (← RenderM.body visit' c').bracketed
          else return " " ++ (← RenderM.stripped c' text)) := by
      rw [← hc.ty]
      refine L.congr (by rw [and_true]) (L.sequel (L.visited hv)
        (T := fun text => Text.isMultiLine text && c.ty.isVoid → P c) (fun text text' n h => ?_)
        (fun hP text => by simp [hP]))
      obtain ⟨rfl, rfl⟩ := h
      split
      · exact L.congr (by simp_all) (L.last (L.body hv) fun b => ⟨rfl, rfl⟩)
      · exact L.congr (by simp_all) (L.last (L.stripped hv.mem hc text) fun b => ⟨rfl, rfl⟩)
    cases hc.twin with
    | block | loop => exact L.last (L.body hv) fun b => ⟨rfl, rfl⟩
    | _ => exact other

theorem lambda {i j : Nat} {params : List Variable} {a a' : Expr} {ty : Ty}
    (L : Lockstep declare path path' (.lambda i params a ty) (.lambda j params a' ty) Step)
    (ha : Alike a a')
    (hv : List.Forall₂ (Visits declare (.lambda i params a ty) Step visit visit' P m)
      (Expr.lambda i params a ty).shown (Expr.lambda j params a' ty).shown) :
    Step String m (∀ x ∈ (Expr.lambda i params a ty).shown, P x) (Same m)
      (lambda visit (.lambda i params a ty)) (lambda visit' (.lambda j params a' ty)) := by
  have hnames : Step (List String) m (∀ v ∈ params, True) (Same m) (params.mapM nameOf)
      (params.mapM nameOf) :=
    L.mapM (List.forall₂_same.mpr fun v hv => L.asking (List.mem_map_of_mem hv))
  have hbody : a.isEmpty = false →
      Visits declare (.lambda i params a ty) Step visit visit' P m a a' := by
    intro hempty
    rw [Expr.shown, Expr.shown, ← ha.isEmpty, hempty] at hv
    exact (List.forall₂_cons.mp hv).1
  refine L.congr ?_ (L.next hnames fun names => L.last (L.lambdaBody ha hbody) fun b => ⟨rfl, rfl⟩)
  rw [Expr.shown]
  split <;> simp_all

theorem loop {i j : Nat} {a a' : Option Expr} {bl cl : Option Label}
    (L : Lockstep declare path path' (.loop i a bl cl) (.loop j a' bl cl) Step)
    (hv : List.Forall₂ (Visits declare (.loop i a bl cl) Step visit visit' P m) a.toList a'.toList) :
    Step String m (∀ x ∈ a.toList, P x) (Same m) (loop visit (.loop i a bl cl))
      (loop visit' (.loop j a' bl cl)) := by
  cases a <;> cases a'
  · exact L.congr (by simp) (L.same _)
  · cases hv
  · cases hv
  · obtain ⟨hv, -⟩ := List.forall₂_cons.mp hv
    exact L.congr (by simp) (L.last (L.body hv) fun b => ⟨rfl, rfl⟩)

theorem «return» {i j : Nat} {target : Option Label} {a a' : Option Expr}
    (L : Lockstep declare path path' (.return i target a) (.return j target a') Step)
    (hv : List.Forall₂ (Visits declare (.return i target a) Step visit visit' P m) a.toList
      a'.toList) :
    Step String m (∀ x ∈ a.toList, P x) (Same m) (Render.loop visit (.return i target a))
      (Render.loop visit' (.return j target a')) := by
  cases a <;> cases a'
  · exact L.congr (by simp) (L.same _)
  · cases hv
  · cases hv
  · obtain ⟨hv, -⟩ := List.forall₂_cons.mp hv
    exact L.congr (by simp) (L.last (L.visited hv) fun b => ⟨rfl, rfl⟩)

/-- A jump succeeds where a loop above it owns its target; the jump itself owns none. -/
theorem jump (L : Lockstep declare path path' e e' Step) {keyword : String} {target : Label}
    {labelOf : Option Label → Option Label → Option Label}
    (he : ownsLabel labelOf target e = false) (he' : ownsLabel labelOf target e' = false)
    (howns : path.any (ownsLabel labelOf target) = path'.any (ownsLabel labelOf target)) :
    Step String m (path.any (ownsLabel labelOf target) = true) (Same m) (jump keyword labelOf target)
      (jump keyword labelOf target) := by
  refine L.congr (by rw [true_and]) (L.andThen L.looking fun s t n h => ?_)
  obtain ⟨hst, rfl⟩ := h
  rw [hst.left, hst.right, List.any_cons, List.any_cons, he, he', Bool.false_or, Bool.false_or,
    ← howns]
  cases path.any (ownsLabel labelOf target) with
  | true => exact L.congr (by simp) (L.same _)
  | false => exact L.congr (by simp) (L.refusal _)

/-! ### Blocks -/

section Blocks
variable {i j : Nat} {locals : List Variable} {all all' xs ys : List Expr} {ty : Ty}
  (L : Lockstep declare path path' (.block i locals all ty) (.block j locals all' ty) Step)
include L

theorem declarations (hxs : List.Forall₂ Alike xs ys) : ∀ (vs : List Variable) (m : M),
    (∀ v ∈ vs, v ∈ locals) →
    Step (List String) m True (fun a b n => a = b ∧ n = afterDeclarations declare locals xs vs m)
      (declarations locals xs vs) (declarations locals ys vs)
  | [], m, _ => L.answer ⟨rfl, rfl⟩
  | v :: rest, m, hvs => by
    have hrest := fun n => declarations hxs rest n fun w hw => hvs w (List.mem_cons_of_mem _ hw)
    have hv := hvs v List.mem_cons_self
    have hid : v.id ∈ (Expr.block i locals all ty).locals := List.mem_map_of_mem hv
    rw [Render.declarations, Render.declarations, afterDeclarations]
    refine L.congr (by rw [true_and]) (L.andThen L.looking fun s t n h => ?_)
    obtain ⟨hst, rfl⟩ := h
    rw [← isAssigned_alike hxs, hst.declared v hid]
    cases hassigned : isAssigned locals xs v with
    | true => exact hrest n
    | false =>
      cases hdeclared : t.isDeclared v with
      | true =>
        have hknown := hst.known v hid (by rw [hst.declared v hid, hdeclared])
        rw [if_neg Bool.false_ne_true, hknown]
        exact hrest n
      | false =>
        refine L.congr (by rw [true_and]) (L.andThen (L.declaring hid) fun a b k h => ?_)
        obtain ⟨rfl, rfl⟩ := h
        refine L.sure (L.asking (List.mem_map_of_mem hv)) fun name => ?_
        refine L.sure (L.typeName v.ty) fun tyName => ?_
        refine L.congr (by rw [true_and]) (L.andThen (hrest _) fun a b k h => L.answer ?_)
        obtain ⟨rfl, rfl⟩ := h
        exact ⟨rfl, rfl⟩

theorem statementText {s s' : Expr} (hs : s ∈ (Expr.block i locals all ty).shown)
    (hss : Alike s s') (text : String) :
    Step String m True (fun a b n => a = b ∧ n = afterStatement declare locals s m)
      (statementText locals s text) (statementText locals s' text) := by
  unfold Render.statementText afterStatement
  rw [← hss.declaredBy]
  refine L.sure (L.stripped hs hss text) fun text => ?_
  cases hv : declaredBy locals s with
  | none => exact L.answer ⟨rfl, rfl⟩
  | some v =>
    have hid : v.id ∈ (Expr.block i locals all ty).locals := by
      obtain ⟨w, hw, hwv⟩ := exists_local_of_declaredBy hv
      exact hwv ▸ List.mem_map_of_mem hw
    refine L.congr (by rw [true_and]) (L.andThen (L.declaring hid) fun a b n h => ?_)
    obtain ⟨rfl, rfl⟩ := h
    split <;> exact L.answer ⟨rfl, rfl⟩

theorem statements (position : Position) (returnsLast : Bool) (hxs : List.Forall₂ Alike xs ys) :
    ∀ (m : M) (lines : Lines),
    List.Forall₂ (fun x y => Visits declare (.block i locals all ty) Step visit visit' P x.2 x.1 y.1)
      (statementSteps declare locals xs m) (statementSteps declare locals ys m) →
    Step Lines m (∀ x ∈ xs, P x) (fun a b _ => a = b)
      (statements visit position returnsLast locals xs lines)
      (statements visit' position returnsLast locals ys lines) := by
  induction hxs with
  | nil => exact fun m lines _ => L.congr (by simp) (L.answer rfl)
  | @cons s s' rest rest' hs hrest ih =>
    intro m lines hv
    obtain ⟨hvs, hvrest⟩ := List.forall₂_cons.mp hv
    rw [← afterStatement_alike declare hs] at hvrest
    rw [List.forall_mem_cons]
    refine L.andThen hvs.told fun text text' n h => ?_
    obtain ⟨⟨rfl, rfl⟩, hempty⟩ := h
    split
    · -- An empty statement declares nothing.
      have hafter : afterStatement declare locals s n = n := by
        unfold afterStatement
        cases hv : declaredBy locals s with
        | none => rfl
        | some v =>
          obtain ⟨op, hop⟩ := kind_of_declaredBy hv
          exact hempty op hop (String.isEmpty_iff.mp ‹_›) v n
      rw [hafter] at hvrest
      exact ih n lines hvrest
    · have hlast : rest.isEmpty = rest'.isEmpty := by cases hrest <;> rfl
      rw [hlast]
      split
      · have hnil : rest = [] := by simp_all
        refine L.congr (P := True) (by simp [hnil]) ?_
        dsimp only
        split
        · exact L.last (L.same text) fun value => rfl
        · exact L.last (L.stripped hvs.mem hs text) fun value => rfl
      · refine L.congr (by rw [true_and]) (L.andThen (L.statementText hvs.mem hs text) fun a b k h => ?_)
        obtain ⟨rfl, rfl⟩ := h
        exact ih _ _ hvrest

theorem blockBody (hall : List.Forall₂ Alike all all')
    (hv : List.Forall₂
      (fun x y => Visits declare (.block i locals all ty) Step visit visit' P x.2 x.1 y.1)
      ((Expr.block i locals all ty).steps declare m) ((Expr.block j locals all' ty).steps declare m)) :
    Step String m (∀ x ∈ (Expr.block i locals all ty).shown, P x) (fun a b _ => a = b)
      (blockBody visit (.block i locals all ty) locals all ty)
      (blockBody visit' (.block j locals all' ty) locals all' ty) := by
  have hshown := filter_isEmpty_alike hall
  simp only [Expr.steps, ← afterDeclarations_alike declare hshown] at hv
  unfold Render.blockBody
  refine L.congr (by rw [true_and]) (L.andThen L.looking fun s t n h => ?_)
  obtain ⟨hst, rfl⟩ := h
  have hposition : Position.under (.block i locals all ty) s.parent? =
      Position.under (.block j locals all' ty) t.parent? := by
    rw [Session.parent?, Session.parent?, hst.left, hst.right]
    exact L.seen.position rfl
  have hreturns : ∀ position, returnsLast position ty (all.filter (!·.isEmpty)) =
      returnsLast position ty (all'.filter (!·.isEmpty)) := by
    intro position
    unfold returnsLast
    rw [getLast?_any_ty_alike hshown]
  dsimp only
  rw [hposition, hreturns]
  refine L.congr (by rw [true_and]) (L.andThen (L.declarations hshown locals n fun _ h => h)
    fun declared declared' k h => ?_)
  obtain ⟨rfl, rfl⟩ := h
  refine L.congr (by rw [and_true]; rfl) (L.andThen (L.statements _ _ hshown _ _ hv)
    fun lines lines' k h => ?_)
  subst h
  split
  · split
    · exact L.answer rfl
    · exact L.last L.indent fun indent => rfl
  · exact L.answer rfl

theorem block (hall : List.Forall₂ Alike all all')
    (hv : List.Forall₂
      (fun x y => Visits declare (.block i locals all ty) Step visit visit' P x.2 x.1 y.1)
      ((Expr.block i locals all ty).steps declare m) ((Expr.block j locals all' ty).steps declare m)) :
    Step String m (∀ x ∈ (Expr.block i locals all ty).shown, P x) (Same m)
      (block visit (.block i locals all ty)) (block visit' (.block j locals all' ty)) :=
  L.scoping (L.weaken (L.blockBody hall hv) fun _ _ _ h => ⟨h, rfl⟩)

end Blocks

/-! ### Members, indices and objects -/

theorem member {i j : Nat} {a a' : Option Expr} {target : Member}
    (L : Lockstep declare path path' (.member i a target) (.member j a' target) Step)
    (ha : Option.Rel Alike a a')
    (hv : List.Forall₂ (Visits declare (.member i a target) Step visit visit' P m)
      (Expr.member i a target).shown (Expr.member j a' target).shown) :
    Step String m (∀ x ∈ (Expr.member i a target).shown, P x) (Same m)
      (member visit (.member i a target)) (member visit' (.member j a' target)) := by
  unfold Render.member
  have ofType : Step String m True (Same m)
      (do return (← RenderM.typeName target.declaringType) ++ "." ++ target.name)
      (do return (← RenderM.typeName target.declaringType) ++ "." ++ target.name) :=
    L.last (L.typeName _) fun name => ⟨rfl, rfl⟩
  cases ha with
  | none => exact L.congr (by simp [Expr.shown]) ofType
  | @some a a' ha =>
    cases hstatic : target.isStatic with
    | true =>
      simp only [hstatic]
      exact L.congr (by simp [Expr.shown, hstatic]) ofType
    | false =>
      simp only [hstatic, ← ha.captured?]
      cases hcap : a.captured? with
      | some object =>
        have hcaptured : a.isCaptured = true := by rw [isCaptured, hcap]; rfl
        refine L.congr (by simp [Expr.shown, hstatic, hcaptured, Option.filter]) (L.asking ?_)
        simp [requests, hcap]
      | none =>
        have hcaptured : a.isCaptured = false := by rw [isCaptured, hcap]; rfl
        simp only [Expr.shown, hstatic, ← ha.isCaptured, hcaptured, Option.filter] at hv
        obtain ⟨hv, -⟩ := List.forall₂_cons.mp hv
        refine L.congr ?_ (L.last (L.receiverText hv) fun text => ⟨rfl, rfl⟩)
        simp [Expr.shown, hstatic, hcaptured, Option.filter]

theorem index {i j : Nat} {a a' : Expr} {args args' : List Expr} {ty : Ty}
    (L : Lockstep declare path path' (.index i a args ty) (.index j a' args' ty) Step)
    (hargs : List.Forall₂ Alike args args')
    (hv : List.Forall₂ (Visits declare (.index i a args ty) Step visit visit' P m)
      (a :: args) (a' :: args')) :
    Step String m (args ≠ [] ∧ ∀ x ∈ a :: args, P x) (Same m) (index visit (.index i a args ty))
      (index visit' (.index j a' args' ty)) := by
  unfold Render.index
  obtain ⟨ha, hv⟩ := List.forall₂_cons.mp hv
  have hempty : args'.isEmpty = args.isEmpty := by cases hargs <;> rfl
  dsimp only
  rw [hempty]
  cases hnil : args.isEmpty with
  | true => exact L.congr (by simp [List.isEmpty_iff.mp hnil]) (L.refusal _)
  | false =>
    have hne : args ≠ [] := by simpa using hnil
    refine L.congr (by simp [hne, argumentsNodes, Counted]) (L.next (L.receiverText ha) fun subject =>
      L.next (L.arguments hargs none hv) fun texts =>
        L.last (L.argumentList "[" "]" texts) fun list => ⟨rfl, rfl⟩)

theorem new {i j : Nat} {ty : Ty} {constructor : Option Method} {args args' : List Expr}
    (L : Lockstep declare path path' (.new i ty constructor args) (.new j ty constructor args') Step)
    (hargs : List.Forall₂ Alike args args')
    (hv : List.Forall₂ (Visits declare (.new i ty constructor args) Step visit visit' P m)
      (argumentsNodes args (constructor.map Method.params))
      (argumentsNodes args' (constructor.map Method.params))) :
    Step String m (Counted args (constructor.map Method.params) ∧
        ∀ x ∈ argumentsNodes args (constructor.map Method.params), P x) (Same m)
      (new visit (.new i ty constructor args)) (new visit' (.new j ty constructor args')) :=
  L.congr (by rw [and_true]) (L.next (L.parameters hargs _ hv) fun args =>
    L.last (L.typeName ty) fun name => ⟨rfl, rfl⟩)

theorem newArray {i j : Nat} {element : Ty} {items items' : List Expr}
    (L : Lockstep declare path path' (.newArray i element items) (.newArray j element items') Step)
    (hitems : List.Forall₂ Alike items items')
    (hv : List.Forall₂ (Visits declare (.newArray i element items) Step visit visit' P m) items
      items') :
    Step String m (∀ x ∈ items, P x) (Same m) (Render.new visit (.newArray i element items))
      (Render.new visit' (.newArray j element items')) := by
  have hempty : items'.isEmpty = items.isEmpty := by cases hitems <;> rfl
  have htypes : items'.all (·.ty == element) = items.all (·.ty == element) := by
    clear hv L hempty
    induction hitems with
    | nil => rfl
    | cons hx _ ih => rw [List.all_cons, List.all_cons, ih, hx.ty]
  have shown : ∀ array, Step String m (∀ x ∈ items, P x) (Same m)
      (do
        let items ← RenderM.arguments visit items none
        return arrayText (← read).settings array items)
      (do
        let items ← RenderM.arguments visit' items' none
        return arrayText (← read).settings array items) := by
    intro array
    refine L.congr (by simp [argumentsNodes, Counted]) (L.next (T := True)
      (L.arguments hitems none hv) fun texts => ?_)
    refine L.congr (by rw [and_true]) (L.andThen L.reading fun env env' n h => L.answer ?_)
    obtain ⟨⟨hs, -⟩, rfl⟩ := h
    exact ⟨by rw [hs], rfl⟩
  unfold Render.new
  dsimp only
  rw [hempty, htypes]
  cases hnil : items.isEmpty with
  | true =>
    have hnil := List.isEmpty_iff.mp hnil
    exact L.congr (by simp [hnil]) (L.last (L.typeName element) fun name => ⟨rfl, rfl⟩)
  | false =>
    simp only [Bool.false_eq_true, if_false]
    split
    · exact L.sure (L.same _) shown
    · exact L.sure (L.typeName element) fun name => L.sure (L.same _) shown

/-! ### Calls -/

theorem invoke {i j : Nat} {a a' : Expr} {args args' : List Expr} {ty : Ty}
    (L : Lockstep declare path path' (.invoke i a args ty) (.invoke j a' args' ty) Step)
    (hargs : List.Forall₂ Alike args args')
    (hv : List.Forall₂ (Visits declare (.invoke i a args ty) Step visit visit' P m)
      (a :: args) (a' :: args')) :
    Step String m (∀ x ∈ a :: args, P x) (Same m) (invoke visit a args) (invoke visit' a' args') := by
  obtain ⟨ha, hv⟩ := List.forall₂_cons.mp hv
  have shown : ∀ target : String, Step String m (∀ x ∈ args, P x) (Same m)
      (do return target ++ ".Invoke" ++ (← RenderM.parameters visit args none))
      (do return target ++ ".Invoke" ++ (← RenderM.parameters visit' args' none)) := by
    intro target
    exact L.congr (by simp [Counted, argumentsNodes])
      (L.last (L.parameters hargs none hv) fun texts => ⟨rfl, rfl⟩)
  unfold Render.invoke
  rw [← ha.alike.isLambda, List.forall_mem_cons]
  dsimp only
  split
  · rw [map_eq_pure_bind, map_eq_pure_bind]
    exact L.next (L.last (L.visited ha) fun text => ⟨rfl, rfl⟩) shown
  · exact L.next (L.receiverText ha) shown

section Calls
variable {i j : Nat} {a a' : Option Expr} {method : Method} {args args' : List Expr}
  (L : Lockstep declare path path' (.call i a method args) (.call j a' method args') Step)
include L

theorem concatenation
    (hv : List.Forall₂ (Visits declare (.call i a method args) Step visit visit' P m)
      ((concatenated args).map concatenand) ((concatenated args').map concatenand)) :
    Step String m (∀ x ∈ (concatenated args).map concatenand, P x) (Same m)
      (concatenation visit args) (concatenation visit' args') := by
  rw [List.forall₂_map_left_iff, List.forall₂_map_right_iff] at hv
  have hall := L.mapM (m := m) (P := fun x => P (concatenand x))
    (f := fun x => RenderM.operandText visit (concatenand x))
    (g := fun x => RenderM.operandText visit' (concatenand x)) (hv.imp fun x y hx => L.operandText hx)
  exact L.congr (by simp) (L.last hall fun texts => ⟨rfl, rfl⟩)

theorem indexedText {subject subject' : Expr} {indices indices' : List Expr}
    (value value' : Option Expr)
    (hs : Visits declare (.call i a method args) Step visit visit' P m subject subject')
    (hi : List.Forall₂ (Visits declare (.call i a method args) Step visit visit' P m) indices indices')
    (hvalue : List.Forall₂ (Visits declare (.call i a method args) Step visit visit' P m)
      value.toList value'.toList) :
    Step String m (P subject ∧ (∀ x ∈ indices, P x) ∧ ∀ x ∈ value.toList, P x) (Same m)
      (do
        let receiver ← RenderM.receiverText visit subject
        let texts ← RenderM.arguments visit indices none
        let item := receiver ++ (← RenderM.argumentList "[" "]" texts)
        match value with
        | none => return item
        | some value => return item ++ " = " ++ (← RenderM.strippedText visit value))
      (do
        let receiver ← RenderM.receiverText visit' subject'
        let texts ← RenderM.arguments visit' indices' none
        let item := receiver ++ (← RenderM.argumentList "[" "]" texts)
        match value' with
        | none => return item
        | some value => return item ++ " = " ++ (← RenderM.strippedText visit' value)) := by
  refine L.next (L.receiverText hs) fun receiver => ?_
  refine L.congr ?_ (L.next (T := ∀ x ∈ value.toList, P x)
    (L.arguments (hi.imp fun _ _ h => h.alike) none hi) fun texts =>
      L.sure (L.argumentList "[" "]" texts) fun list => ?_)
  · simp [Counted, argumentsNodes]
  cases value <;> cases value'
  · exact L.congr (by simp) (L.same _)
  · cases hvalue
  · cases hvalue
  · obtain ⟨hvalue, -⟩ := List.forall₂_cons.mp hvalue
    exact L.congr (by simp) (L.last (L.strippedText hvalue) fun text => ⟨rfl, rfl⟩)

theorem indexer (ha : Option.Rel Alike a a')
    (hv : List.Forall₂ (Visits declare (.call i a method args) Step visit visit' P m)
      (a.toList ++ args) (a'.toList ++ args')) :
    Step String m ((a ≠ none ∧ (if method.accessor.any (·.isSetter) then 2 else 1) ≤ args.length) ∧
        ∀ x ∈ a.toList ++ args, P x) (Same m)
      (indexer visit a method args) (indexer visit' a' method args') := by
  cases ha with
  | none => exact L.congr (by simp) (L.refusal _)
  | @some subject subject' ha =>
    obtain ⟨hs, hv⟩ := List.forall₂_cons.mp hv
    simp only [Option.toList_some, List.cons_append, List.nil_append, List.forall_mem_cons] at hv ⊢
    unfold Render.indexer indexerParts
    cases hset : method.accessor.any (·.isSetter) with
    | false =>
      cases hv with
      | nil => exact L.congr (by simp) (L.refusal _)
      | cons hx hxs =>
        refine L.congr ?_ (L.indexedText none none hs (.cons hx hxs) .nil)
        simp
    | true =>
      rcases List.eq_nil_or_concat args with hnil | ⟨init, value, rfl⟩
      · subst hnil
        cases hv
        exact L.congr (by simp) (L.refusal _)
      · obtain ⟨init', value', rfl, hinit, hvalue⟩ := forall₂_concat hv
        simp only [List.concat_eq_append, List.getLast?_concat, List.dropLast_concat, if_true]
        cases hinit with
        | nil => exact L.congr (by simp) (L.refusal _)
        | cons hx hxs =>
          refine L.congr ?_ (L.indexedText (some value) (some value') hs
            (.cons hx hxs) (.cons hvalue .nil))
          simp [or_imp, forall_and, and_assoc]

theorem genericArguments : Step String m (GenericsFit method) (Same m) (genericArguments method)
    (genericArguments method) := by
  unfold Render.genericArguments GenericsFit
  cases hg : method.isGeneric with
  | false =>
    have hnil : method.genericParams = [] := by simpa [Method.isGeneric] using hg
    exact L.congr (by simp [hnil]) (L.same _)
  | true =>
    have hne : method.genericParams ≠ [] := by simpa [Method.isGeneric] using hg
    simp only [Bool.not_true, Bool.false_eq_true, if_false]
    by_cases hlen : method.genericArgs.length = method.genericParams.length
    · rw [if_neg (not_not_intro hlen)]
      refine L.congr (by simp [hlen]) (L.andThen (T := True) L.reading fun env env' n h => ?_)
      obtain ⟨⟨hs, hq⟩, rfl⟩ := h
      rw [hs, hq]
      split <;> exact L.same _
    · rw [if_pos hlen]
      exact L.congr (by simp [hne, hlen]) (L.refusal _)

theorem callText {rest rest' : List Expr} {params : List Parameter}
    (hrest : List.Forall₂ Alike rest rest')
    (hv : List.Forall₂ (Visits declare (.call i a method args) Step visit visit' P m)
      (argumentsNodes rest (some params)) (argumentsNodes rest' (some params)))
    (receiver : Option String) :
    Step String m (GenericsFit method ∧ Counted rest (some params) ∧
        ∀ x ∈ argumentsNodes rest (some params), P x) (Same m)
      (do
        let generics ← Render.genericArguments method
        let args' ← RenderM.parameters visit rest (some params)
        let call := method.name ++ generics ++ args'
        match receiver with
        | none => return call
        | some receiver =>
          if (← get).inCallChain (.call i a method args) then
            return receiver ++ "\n" ++ (← RenderM.indent) ++ "." ++ call
          else return receiver ++ "." ++ call)
      (do
        let generics ← Render.genericArguments method
        let args ← RenderM.parameters visit' rest' (some params)
        let call := method.name ++ generics ++ args
        match receiver with
        | none => return call
        | some receiver =>
          if (← get).inCallChain (.call j a' method args') then
            return receiver ++ "\n" ++ (← RenderM.indent) ++ "." ++ call
          else return receiver ++ "." ++ call) := by
  refine L.next L.genericArguments fun generics => ?_
  refine L.congr (by rw [and_true]) (L.next (T := True) (L.parameters hrest _ hv) fun list => ?_)
  cases receiver with
  | none => exact L.same _
  | some receiver =>
    refine L.congr (by rw [and_true]) (L.andThen L.looking fun s t n h => ?_)
    obtain ⟨hst, rfl⟩ := h
    rw [L.inCallChain rfl hst]
    split
    · exact L.last L.indent fun indent => ⟨rfl, rfl⟩
    · exact L.same _

theorem methodCall (ha : Option.Rel Alike a a') (hargs : List.Forall₂ Alike args args')
    (hc : isConcatenation a method = false) (hi : isIndexer method = false)
    (hv : List.Forall₂ (Visits declare (.call i a method args) Step visit visit' P m)
      (callNodes a method args) (callNodes a' method args')) :
    Step String m (CallFits a method args ∧ ∀ x ∈ callNodes a method args, P x) (Same m)
      (methodCall visit (.call i a method args) a method args)
      (methodCall visit' (.call j a' method args') a' method args') := by
  have hc' : isConcatenation a' method = false := by rw [← isConcatenation_alike ha, hc]
  rw [isIndexer] at hi
  simp only [callNodes, CallFits, isIndexer, hc, hc', hi, Bool.false_eq_true, if_false] at hv ⊢
  unfold Render.methodCall callParts
  cases hkind : method.kind with
  | extension =>
    simp only [hkind] at hv ⊢
    cases hargs with
    | nil => exact L.congr (by simp) (L.refusal _)
    | cons hx hxs =>
      obtain ⟨hreceiver, hv⟩ := List.forall₂_cons.mp hv
      simp only [bind_assoc, pure_bind]
      refine L.congr ?_ (L.next (L.receiverText hreceiver) fun receiver =>
        L.callText hxs hv (some receiver))
      simp only [Counted, List.length_cons, List.length_tail, ne_eq, reduceCtorEq,
        not_false_eq_true, true_and, Nat.add_sub_cancel, List.head?_cons, Option.toList_some,
        List.cons_append, List.nil_append, List.tail_cons, List.forall_mem_cons]
      constructor
      · rintro ⟨hp, hg, hn, hall⟩
        exact ⟨⟨hn, hg⟩, hp, hall⟩
      · rintro ⟨⟨hn, hg⟩, hp, hall⟩
        exact ⟨hp, hg, hn, hall⟩
  | static =>
    simp only [hkind, bind_assoc, pure_bind] at hv ⊢
    refine L.congr ?_ (L.sure (L.typeName method.declaringType) fun receiver =>
      L.callText hargs hv (some receiver))
    simp only [Counted]
    constructor
    · rintro ⟨hg, hn, hall⟩
      exact ⟨⟨hn, hg⟩, hall⟩
    · rintro ⟨⟨hn, hg⟩, hall⟩
      exact ⟨hg, hn, hall⟩
  | onInstance =>
    simp only [hkind] at hv ⊢
    obtain ⟨hsubject, hrest⟩ := forall₂_append (filter_isCaptured_alike ha).length_eq hv
    cases ha with
    | none => exact L.congr (by simp) (L.refusal _)
    | @some subject subject' ha =>
      simp only [← ha.isCaptured] at hsubject ⊢
      cases hcap : subject.isCaptured with
      | true =>
        simp only [if_true, pure_bind]
        refine L.congr ?_ (L.callText hargs hrest none)
        simp only [Counted, Option.filter, hcap, Bool.not_true, Bool.false_eq_true, if_false, ne_eq,
          reduceCtorEq, not_false_eq_true, true_and, Option.toList_none, List.nil_append]
        constructor
        · rintro ⟨hg, hn, hall⟩
          exact ⟨⟨hn, hg⟩, hall⟩
        · rintro ⟨⟨hn, hg⟩, hall⟩
          exact ⟨hg, hn, hall⟩
      | false =>
        simp only [Option.filter, hcap, ← ha.isCaptured, Bool.not_false, if_true] at hsubject
        obtain ⟨hsubject, -⟩ := List.forall₂_cons.mp hsubject
        simp only [Bool.false_eq_true, if_false, bind_assoc, pure_bind]
        refine L.congr ?_ (L.next (L.receiverText hsubject) fun receiver =>
          L.callText hargs hrest (some receiver))
        simp only [Counted, Option.filter, hcap, Bool.not_false, if_true, ne_eq, reduceCtorEq,
          not_false_eq_true, true_and, Option.toList_some, List.cons_append, List.nil_append,
          List.forall_mem_cons]
        constructor
        · rintro ⟨hp, hg, hn, hall⟩
          exact ⟨⟨hn, hg⟩, hp, hall⟩
        · rintro ⟨⟨hn, hg⟩, hp, hall⟩
          exact ⟨hp, hg, hn, hall⟩

theorem call (ha : Option.Rel Alike a a') (hargs : List.Forall₂ Alike args args')
    (hv : List.Forall₂ (Visits declare (.call i a method args) Step visit visit' P m)
      (callNodes a method args) (callNodes a' method args')) :
    Step String m (CallFits a method args ∧ ∀ x ∈ callNodes a method args, P x) (Same m)
      (call visit (.call i a method args)) (call visit' (.call j a' method args')) := by
  unfold Render.call
  dsimp only
  rw [← isConcatenation_alike ha]
  cases hc : isConcatenation a method with
  | true =>
    have hc' : isConcatenation a' method = true := by rw [← isConcatenation_alike ha, hc]
    simp only [callNodes, CallFits, hc, hc', if_true, true_and] at hv ⊢
    exact L.concatenation hv
  | false =>
    have hc' : isConcatenation a' method = false := by rw [← isConcatenation_alike ha, hc]
    cases hi : isIndexer method with
    | true =>
      rw [isIndexer] at hi
      simp only [callNodes, CallFits, isIndexer, hc, hc', hi, Bool.false_eq_true, if_false, if_true] at hv ⊢
      exact L.indexer ha hv
    | false => exact L.methodCall ha hargs hc hi hv

end Calls

/-! ### All kinds of nodes -/

/-- A judgement extends from the nodes that a node shows to the node: it succeeds if and only if it
    fits its place and all the nodes that it shows succeed. A comment shows none. -/
theorem render_native (L : Lockstep declare path path' e e' Step) (hnative : e.IsNative)
    (hv : List.Forall₂ (fun x y => Visits declare e Step visit visit' P x.2 x.1 y.1)
      (e.steps declare m) (e'.steps declare m)) :
    Step String m (e.Fits path ∧ ∀ c ∈ e.shown, P c) (Told declare e m)
      (e.kind.renderer.render visit e) (e.kind.renderer.render visit' e') := by
  have told : (∀ op, e.kind ≠ .assign op) →
      Step String m (e.Fits path ∧ ∀ c ∈ e.shown, P c) (Same m) (e.kind.renderer.render visit e)
        (e.kind.renderer.render visit' e') →
      Step String m (e.Fits path ∧ ∀ c ∈ e.shown, P c) (Told declare e m)
        (e.kind.renderer.render visit e) (e.kind.renderer.render visit' e') :=
    fun hkind h => L.weaken h fun _ _ _ h => ⟨h, fun op hop => absurd hop (hkind op)⟩
  have shown : e.isBlock = false →
      List.Forall₂ (Visits declare e Step visit visit' P m) e.shown e'.shown := by
    intro hblock
    have hblock' : e'.isBlock = false := by rw [← L.alike.isBlock, hblock]
    rw [steps_of_isBlock declare hblock, steps_of_isBlock declare hblock',
      List.forall₂_map_left_iff, List.forall₂_map_right_iff] at hv
    exact hv
  cases L.alike.twin with
  | constant =>
    exact told (by simp [kind]) (L.congr (by simp [Fits, Expr.shown, children]) L.constant)
  | «variable» =>
    refine told (by simp [kind]) (L.congr (by simp [Fits, Expr.shown, children]) (L.asking ?_))
    exact List.mem_cons_self
  | default =>
    exact told (by simp [kind]) (L.congr (by simp [Fits, Expr.shown, children]) L.default)
  | @extension _ _ form =>
    cases form with
    | comment text =>
      exact told (by simp [kind]) (L.congr (by simp [Fits, Expr.shown, children]) (L.same _))
    | _ => cases hnative rfl
  | binary =>
    obtain ⟨hl, hv⟩ := List.forall₂_cons.mp (shown rfl)
    obtain ⟨hr, -⟩ := List.forall₂_cons.mp hv
    exact told (by simp [kind]) (L.congr (by simp [Fits, Expr.shown, children]) (L.binary hl hr))
  | unary =>
    obtain ⟨ha, -⟩ := List.forall₂_cons.mp (shown rfl)
    exact told (by simp [kind]) (L.congr (by simp [Fits, Expr.shown, children]) (L.unary ha))
  | assign =>
    obtain ⟨ha, hv⟩ := List.forall₂_cons.mp (shown rfl)
    obtain ⟨hv, -⟩ := List.forall₂_cons.mp hv
    exact L.congr (by simp [Fits, Expr.shown, children]) (L.assign ha hv)
  | conditional _ _ hc =>
    exact told (by simp [kind]) (L.congr (by simp [Fits]) (L.conditional hc (shown rfl)))
  | call ha hargs => exact told (by simp [kind]) (L.call ha hargs (shown rfl))
  | invoke _ hargs =>
    exact told (by simp [kind]) (L.congr (by simp [Fits, Expr.shown, children])
      (L.invoke hargs (shown rfl)))
  | new hargs => exact told (by simp [kind]) (L.new hargs (shown rfl))
  | newArray hitems =>
    exact told (by simp [kind]) (L.congr (by simp [Fits, Expr.shown, children])
      (L.newArray hitems (shown rfl)))
  | member ha => exact told (by simp [kind]) (L.congr (by simp [Fits]) (L.member ha (shown rfl)))
  | index _ hargs => exact told (by simp [kind]) (L.index hargs (shown rfl))
  | lambda ha => exact told (by simp [kind]) (L.congr (by simp [Fits]) (L.lambda ha (shown rfl)))
  | block hxs => exact told (by simp [kind]) (L.congr (by simp [Fits]) (L.block hxs hv))
  | loop =>
    exact told (by simp [kind]) (L.congr (by simp [Fits, Expr.shown, children])
      (L.loop (shown rfl)))
  | «return» =>
    exact told (by simp [kind]) (L.congr (by simp [Fits, Expr.shown, children])
      (L.return (shown rfl)))
  | «break» =>
    refine told (by simp [kind]) (L.congr ?_ (L.jump rfl rfl (L.seen.breaks _ _ rfl)))
    exact any_ownsLabel_break.trans (by simp [Fits, Expr.shown, children])
  | «continue» =>
    refine told (by simp [kind]) (L.congr ?_ (L.jump rfl rfl (L.seen.continues _ _ rfl)))
    exact any_ownsLabel_continue.trans (by simp [Fits, Expr.shown, children])

/-- The same where a tree has no extension nodes at all. -/
theorem render (L : Lockstep declare path path' e e' Step) (hext : e.kind ≠ .extension)
    (hv : List.Forall₂ (fun x y => Visits declare e Step visit visit' P x.2 x.1 y.1)
      (e.steps declare m) (e'.steps declare m)) :
    Step String m (e.Fits path ∧ ∀ c ∈ e.shown, P c) (Told declare e m)
      (e.kind.renderer.render visit e) (e.kind.renderer.render visit' e') :=
  L.render_native (.of_kind hext) hv

end ExprText.Lockstep
