import ExprText.Proofs.Names.Unique

/-! # What a rendering leaves as it was

An action keeps the path, the names that were given and the texts that were remembered, however it
ends. Of the scopes it keeps all, unless it is part of a block: then it may declare variables in the
innermost scope, which the block has opened and closes again. One lemma for each way to build an action
and for each renderer, whatever node the renderer is given. -/

namespace ExprText

/-! ### Scopes -/

/-- The scopes `b` are the scopes `a`, but for the innermost one if `declares` allows that. -/
structure ScopesKept (declares : Bool) (a b : List (List Nat)) : Prop where
  outer : b.tail = a.tail
  opened : a ≠ [] → b ≠ []
  all : declares = false → b = a

namespace ScopesKept
variable {declares : Bool} {a b c : List (List Nat)}

theorem refl (a : List (List Nat)) : ScopesKept declares a a :=
  ⟨rfl, id, fun _ => rfl⟩

theorem trans (h : ScopesKept declares a b) (h' : ScopesKept declares b c) :
    ScopesKept declares a c where
  outer := h'.outer.trans h.outer
  opened := h'.opened ∘ h.opened
  all hd := (h'.all hd).trans (h.all hd)

theorem of_eq (h : b = a) : ScopesKept declares a b := by
  subst h
  exact refl b

end ScopesKept

theorem Session.scopesKept_declare (s : Session) (v : Variable) :
    ScopesKept true s.scopes (s.declare v).2.scopes := by
  unfold Session.declare
  split
  · exact .refl _
  · split
    · next inner outer hscopes =>
      rw [hscopes]
      exact ⟨rfl, fun _ => List.cons_ne_nil _ _, fun h => by cases h⟩
    · exact .refl _

/-- To close a scope undoes what was declared since it was opened. -/
theorem Session.closeScope_scopes {s t : Session} (hs : s.scopes ≠ [])
    (h : ScopesKept true ([] :: s.scopes) t.scopes) : t.closeScope.scopes = s.scopes := by
  have houter : t.scopes.tail = s.scopes := h.outer
  have hopened := h.opened (List.cons_ne_nil _ _)
  unfold Session.closeScope
  cases hinner : t.scopes with
  | nil => exact absurd hinner hopened
  | cons inner outer =>
    rw [hinner, List.tail_cons] at houter
    subst houter
    cases hrest : s.scopes with
    | nil => exact absurd hrest hs
    | cons first rest => rfl

/-! ### Sessions -/

/-- What a later session keeps of an earlier one. -/
structure Session.Kept (declares : Bool) (s t : Session) : Prop where
  path : t.path = s.path
  scopes : ScopesKept declares s.scopes t.scopes
  names : s.names.Extends t.names
  memo : ∀ key text, s.memo.lookup key = some text → t.memo.lookup key = some text

namespace Session.Kept
variable {declares : Bool} {s t u : Session}

theorem refl (s : Session) : s.Kept declares s :=
  ⟨rfl, .refl _, .refl _, fun _ _ h => h⟩

theorem trans (h : s.Kept declares t) (h' : t.Kept declares u) : s.Kept declares u where
  path := h'.path.trans h.path
  scopes := h.scopes.trans h'.scopes
  names := h.names.trans h'.names
  memo key text hkey := h'.memo key text (h.memo key text hkey)

theorem of_scopes (h : ScopesKept declares s.scopes t.scopes) (hpath : t.path = s.path)
    (hnames : t.names = s.names) (hmemo : t.memo = s.memo) : s.Kept declares t :=
  ⟨hpath, h, hnames ▸ .refl _, fun key text hkey => by rw [hmemo]; exact hkey⟩

theorem ask (s : Session) (r : NameRequest) : s.Kept declares (s.ask r).2 :=
  ⟨rfl, .refl _, s.names.extends_answer r, fun _ _ h => h⟩

theorem declare (s : Session) (v : Variable) : s.Kept true (s.declare v).2 := by
  have hscopes := s.scopesKept_declare v
  obtain ⟨scopes, heq⟩ := s.declare_eq v
  rw [heq] at hscopes ⊢
  exact of_scopes hscopes rfl rfl rfl

/-- A text is remembered at a place where none was. -/
theorem remember {key : MemoKey} (h : s.Kept declares t) (hnew : s.memo.lookup key = none)
    (text : String) : s.Kept declares (t.remember key text) where
  path := h.path
  scopes := h.scopes
  names := h.names
  memo k shown hk := by
    rw [Session.remember, lookup_cons_eq, if_neg]
    · exact h.memo k shown hk
    · rintro rfl
      rw [hnew] at hk
      cases hk

theorem closeScope (hs : s.scopes ≠ []) (h : s.openScope.Kept true t) :
    s.Kept declares t.closeScope := by
  have hscopes := Session.closeScope_scopes hs h.scopes
  obtain ⟨scopes, heq⟩ := t.closeScope_eq
  rw [heq] at hscopes ⊢
  exact ⟨h.path, .of_eq hscopes, h.names, h.memo⟩

theorem pop {e : Expr} (h : (s.push e).Kept declares t) : s.Kept declares t.pop where
  path := by rw [Session.pop, h.path]; rfl
  scopes := h.scopes
  names := h.names
  memo := h.memo

end Session.Kept

/-! ### Actions -/

/-- Every session with an open scope keeps through the action what it is to keep. -/
def Keeps {α : Type} (declares : Bool) (x : RenderM α) : Prop :=
  ∀ (env : Env) (s : Session), s.scopes ≠ [] → s.Kept declares (x.runOn env s).2

namespace Keeps

open RenderM Render

variable {α β : Type} {declares : Bool} {x : RenderM α} {f : α → RenderM β}

theorem pure (a : α) : Keeps declares (pure a : RenderM α) :=
  fun _ s _ => .refl s

theorem get : Keeps declares (get : RenderM Session) :=
  fun _ s _ => .refl s

theorem read : Keeps declares (read : RenderM Env) :=
  fun _ s _ => .refl s

theorem throw (fault : Fault) : Keeps declares (throw fault : RenderM α) :=
  fun _ s _ => .refl s

theorem refuse (cause : Cause) : Keeps declares (refuse cause : RenderM α) :=
  fun _ s _ => .refl s

theorem bind (hx : Keeps declares x) (hf : ∀ a, Keeps declares (f a)) : Keeps declares (x >>= f) := by
  intro env s hs
  have h := hx env s hs
  rw [runOn_bind]
  rcases hrun : x.runOn env s with ⟨_ | a, t⟩ <;> rw [hrun] at h
  · exact h
  · exact h.trans (hf a env t (h.scopes.opened hs))

theorem map (hx : Keeps declares x) (g : α → β) : Keeps declares (do return g (← x)) :=
  hx.bind fun _ => pure _

theorem mapM {γ : Type} {f : γ → RenderM α} (hf : ∀ c, Keeps declares (f c)) :
    ∀ cs : List γ, Keeps declares (cs.mapM f)
  | [] => pure _
  | c :: cs => by
    rw [List.mapM_cons]
    exact (hf c).bind fun _ => (mapM hf cs).map _

theorem ask (r : NameRequest) : Keeps declares (ask r) :=
  fun _ s _ => .ask s r

theorem declare (v : Variable) : Keeps true (modifyGet (Session.declare v) : RenderM Bool) :=
  fun _ s _ => .declare s v

/-- A block may declare what it likes in the scope of its own. -/
theorem inScope (hx : Keeps true x) : Keeps declares (inScope x) := by
  intro env s hs
  rw [RenderM.inScope, runOn_between]
  exact .closeScope hs (hx env s.openScope (List.cons_ne_nil _ _))

/-! ### Children -/

theorem typeName (ty : Ty) : Keeps declares (typeName ty) :=
  read.map _

theorem indent : Keeps declares indent :=
  read.map _

theorem argumentList (opening closing : String) (texts : List String) :
    Keeps declares (argumentList opening closing texts) :=
  read.map _

theorem stripped (child : Expr) (text : String) : Keeps declares (stripped child text) :=
  get.map _

section Visits
variable {visit : Visit} (hv : ∀ declares c, Keeps declares (visit c))
include hv

theorem strippedText (c : Expr) : Keeps declares (strippedText visit c) :=
  (hv _ c).bind fun text => stripped c text

theorem body (c : Expr) : Keeps declares (body visit c) := by
  refine (hv _ c).bind fun text => ?_
  split
  · exact indent.map _
  · exact (stripped c text).bind fun _ => indent.map _

theorem operandText (c : Expr) : Keeps declares (operandText visit c) := by
  refine (hv _ c).bind fun text => ?_
  split <;> exact pure _

theorem receiverText (c : Expr) : Keeps declares (receiverText visit c) :=
  (hv _ c).map _

theorem argumentTexts (modifier : Modifier) (c : Expr) :
    Keeps declares (argumentTexts visit modifier c) := by
  unfold RenderM.argumentTexts
  split
  · exact mapM (strippedText hv) _
  · exact (hv _ c).map _
  · exact (hv _ c).map _
  · exact (strippedText hv c).map _

theorem arguments (args : List Expr) (params : Option (List Parameter)) :
    Keeps declares (arguments visit args params) := by
  unfold RenderM.arguments
  split
  · exact (mapM (argumentTexts hv .value) args).map _
  · split
    · exact (mapM (fun (x : Expr × Parameter) => argumentTexts hv x.2.modifier x.1) _).map _
    · exact refuse _

theorem parameters (args : List Expr) (params : Option (List Parameter)) :
    Keeps declares (parameters visit args params) :=
  (arguments hv args params).bind fun texts => argumentList "(" ")" texts

end Visits

/-! ### Leaves -/

theorem constant (e : Expr) : Keeps declares (constant e) := by
  unfold Render.constant
  split
  · next value _ =>
    cases value with
    | type ty | enum ty => exact (typeName ty).map _
    | captured object => exact ask _
    | _ => exact pure _
  · exact refuse _

theorem variableName (e : Expr) : Keeps declares (variableName e) := by
  unfold Render.variableName
  split
  · exact ask _
  · exact refuse _

theorem shouting (e : Expr) : Keeps declares (shouting e) := by
  unfold Render.shouting
  split
  · exact pure _
  · exact refuse _

theorem «default» (e : Expr) : Keeps declares (Render.default e) := by
  unfold Render.default
  split
  · split
    · exact pure _
    · exact (typeName _).map _
  · exact refuse _

section Renderers
variable {visit : Visit} (hv : ∀ declares c, Keeps declares (visit c))

/-! ### Operators -/

theorem wrapChecked (e : Expr) (text : String) : Keeps declares (wrapChecked e text) := by
  refine get.bind fun s => ?_
  split
  · exact indent.map _
  · exact pure _

include hv

theorem binaryOperand (op : BinaryOp) (side : BinaryOp.Side) (c : Expr) :
    Keeps declares (binaryOperand visit op side c) := by
  refine (operandText hv c).bind fun text => ?_
  split <;> exact pure _

theorem binary (e : Expr) : Keeps declares (binary visit e) := by
  unfold Render.binary
  split
  · refine (binaryOperand hv _ _ _).bind fun left => (binaryOperand hv _ _ _).bind fun right => ?_
    exact wrapChecked _ _
  · exact refuse _

theorem assignedText (c : Expr) : Keeps declares (assignedText visit c) := by
  refine (hv _ c).bind fun text => ?_
  split
  · exact pure _
  · exact pure _
  · exact stripped c text

theorem assign (e : Expr) : Keeps declares (assign visit e) := by
  unfold Render.assign
  split
  · exact (hv _ _).bind fun target => (assignedText hv _).map _
  · exact refuse _

theorem unary (e : Expr) : Keeps declares (unary visit e) := by
  unfold Render.unary
  split
  · exact (operandText hv _).bind fun text => read.bind fun env => wrapChecked _ _
  · exact refuse _

/-! ### Branches, lambdas and loops -/

theorem conditional (e : Expr) : Keeps declares (conditional visit e) := by
  unfold Render.conditional
  split
  · refine (hv _ _).bind fun test => (body hv _).bind fun first => ?_
    split
    · exact pure _
    · exact (body hv _).map _
  · exact refuse _

theorem lambdaBody (e : Expr) : Keeps declares (lambdaBody visit e) := by
  unfold Render.lambdaBody
  split
  · exact pure _
  · split
    · exact (body hv _).map _
    · exact (body hv _).map _
    · refine (hv _ _).bind fun text => ?_
      split
      · exact (body hv _).map _
      · exact (stripped _ text).map _

theorem lambda (e : Expr) : Keeps declares (lambda visit e) := by
  unfold Render.lambda
  split
  · exact (mapM (fun v => ask (.variable v)) _).bind fun names => (lambdaBody hv _).map _
  · exact refuse _

omit hv in
theorem jump (keyword : String) (labelOf : Option Label → Option Label → Option Label)
    (target : Label) : Keeps declares (jump keyword labelOf target) := by
  refine get.bind fun s => ?_
  split
  · exact pure _
  · exact refuse _

theorem loop (e : Expr) : Keeps declares (loop visit e) := by
  unfold Render.loop
  split
  · exact pure _
  · exact (body hv _).map _
  · exact jump _ _ _
  · exact jump _ _ _
  · exact pure _
  · exact (hv _ _).map _
  · exact refuse _

/-! ### Blocks -/

omit hv in
theorem declarations (locals : List Variable) (shown : List Expr) :
    ∀ vs : List Variable, Keeps true (declarations locals shown vs)
  | [] => pure _
  | v :: vs => by
    rw [Render.declarations]
    refine get.bind fun s => ?_
    split
    · exact declarations locals shown vs
    · refine (declare v).bind fun _ => (ask _).bind fun name => (typeName v.ty).bind fun ty => ?_
      exact (declarations locals shown vs).map _

omit hv in
theorem statementText (locals : List Variable) (e : Expr) (text : String) :
    Keeps true (statementText locals e text) := by
  refine (stripped e text).bind fun text => ?_
  split
  · refine (declare _).bind fun isNew => ?_
    split <;> exact pure _
  · exact pure _

theorem statements (position : Position) (returnsLast : Bool) (locals : List Variable) :
    ∀ (shown : List Expr) (lines : Lines),
      Keeps true (statements visit position returnsLast locals shown lines)
  | [], lines => pure _
  | e :: rest, lines => by
    rw [Render.statements]
    refine (hv _ e).bind fun text => ?_
    split
    · exact statements position returnsLast locals rest lines
    · split
      · split
        · exact (pure text).bind fun value => pure _
        · exact (stripped e text).bind fun value => pure _
      · exact (statementText locals e text).bind fun text =>
          statements position returnsLast locals rest _

theorem block (e : Expr) : Keeps declares (block visit e) := by
  unfold Render.block
  split
  · refine inScope (get.bind fun s => (declarations _ _ _).bind fun declared => ?_)
    refine (statements hv _ _ _ _ _).bind fun lines => ?_
    split
    · split
      · exact pure _
      · exact indent.map _
    · exact pure _
  · exact refuse _

/-! ### Members and objects -/

theorem member (e : Expr) : Keeps declares (member visit e) := by
  unfold Render.member
  split
  · split
    · split
      · exact ask _
      · exact (receiverText hv _).map _
    · exact (typeName _).map _
  · exact refuse _

theorem index (e : Expr) : Keeps declares (index visit e) := by
  unfold Render.index
  split
  · split
    · exact refuse _
    · exact (receiverText hv _).bind fun subject => (arguments hv _ _).bind fun indices =>
        (argumentList _ _ _).map _
  · exact refuse _

theorem new (e : Expr) : Keeps declares (new visit e) := by
  unfold Render.new
  split
  · exact (parameters hv _ _).bind fun args => (typeName _).map _
  · split
    · exact (typeName _).map _
    · split
      · exact (pure _).bind fun array => (arguments hv _ _).bind fun items => read.map _
      · exact (typeName _).bind fun ty => (pure _).bind fun array =>
          (arguments hv _ _).bind fun items => read.map _
  · exact refuse _

/-! ### Calls -/

theorem invoke (target : Expr) (args : List Expr) : Keeps declares (invoke visit target args) := by
  unfold Render.invoke
  split
  · exact ((hv _ target).map _).bind fun text => (parameters hv args none).map _
  · exact (receiverText hv target).bind fun text => (parameters hv args none).map _

theorem concatenation (args : List Expr) : Keeps declares (concatenation visit args) :=
  (mapM (fun e => operandText hv (concatenand e)) _).map _

theorem indexer (subject : Option Expr) (method : Method) (args : List Expr) :
    Keeps declares (indexer visit subject method args) := by
  unfold Render.indexer
  split
  · exact refuse _
  · split
    · exact refuse _
    · exact refuse _
    · refine (receiverText hv _).bind fun receiver => (arguments hv _ _).bind fun texts =>
        (argumentList _ _ _).bind fun list => ?_
      split
      · exact pure _
      · exact (strippedText hv _).map _

omit hv in
theorem genericArguments (method : Method) : Keeps declares (genericArguments method) := by
  unfold Render.genericArguments
  split
  · exact pure _
  · split
    · exact refuse _
    · refine read.bind fun env => ?_
      split <;> exact pure _

theorem callParts (subject : Option Expr) (method : Method) (args : List Expr) :
    Keeps declares (callParts visit subject method args) := by
  unfold Render.callParts
  split
  · split
    · exact refuse _
    · exact (receiverText hv _).map _
  · exact (typeName _).map _
  · split
    · exact refuse _
    · split
      · exact pure _
      · exact (receiverText hv _).map _

theorem methodCall (e : Expr) (subject : Option Expr) (method : Method) (args : List Expr) :
    Keeps declares (methodCall visit e subject method args) := by
  refine (callParts hv subject method args).bind fun parts => ?_
  refine (genericArguments method).bind fun generics => (parameters hv _ _).bind fun list => ?_
  split
  · exact pure _
  · refine get.bind fun s => ?_
    split
    · exact indent.map _
    · exact pure _

theorem call (e : Expr) : Keeps declares (call visit e) := by
  unfold Render.call
  split
  · exact invoke hv _ _
  · split
    · exact concatenation hv _
    · split
      · exact indexer hv _ _ _
      · exact methodCall hv _ _ _ _
  · exact refuse _

end Renderers

end Keeps

end ExprText
