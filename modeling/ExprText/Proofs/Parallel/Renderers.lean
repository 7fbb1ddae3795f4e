import ExprText.Proofs.Parallel.Actions
import ExprText.Proofs.Registry

/-! # Renderers in parallel

If the texts of the nodes below a node compare, so do the texts of the node: one lemma for each family of
nodes, and `Parallel.render` for all of them. -/

namespace ExprText.Parallel

open Render RenderM Comparison

variable {C : Comparison} {root : Expr} {path : List Expr} {visit : Visit}

theorem symbol_mem_vocabulary (op : BinaryOp) : " " ++ op.symbol ++ " " ∈ vocabulary := by
  have hop : op ∈ BinaryOp.all := by cases op <;> decide
  exact List.mem_append_left _ (List.mem_append_right _ (List.mem_map_of_mem hop))

theorem assignSymbol_mem_vocabulary (op : AssignOp) : " " ++ op.symbol ++ " " ∈ vocabulary := by
  have hop : op ∈ AssignOp.all := by cases op <;> decide
  exact List.mem_append_right _ (List.mem_map_of_mem hop)

/-! ### Leaves -/

section Leaves
variable (hs : C.Suits root) {i : Nat} {ty : Ty}
include hs

theorem constant {value : Constant} (he : .constant i value ty ∈ root.nodes) :
    Parallel C root path C.Beside (constant (.constant i value ty)) (constant (.constant i value ty)) := by
  have hplain : ∀ w : String, w.toList.all Text.isPlain = true → C.Beside w w :=
    fun w hw => C.free (C.punctuation.free hw)
  cases value with
  | null => exact pure (hplain _ rfl)
  | bool value => cases value <;> exact pure (hplain _ rfl)
  | int value => exact pure (C.free (C.punctuation.free_int _))
  | long value => exact pure (C.free ((C.punctuation.free_int _).append (C.punctuation.free rfl)))
  | float bits => exact pure (C.free (C.punctuation.free_floatText _ _ rfl rfl))
  | double bits => exact pure (C.free (C.punctuation.free_floatText _ _ rfl rfl))
  | decimal digits =>
    have hdigits := (hs.spelled _ he digits List.mem_cons_self).1
    exact pure (C.free (hdigits.append (C.punctuation.free rfl)))
  | char value => exact pure (C.literal (.inr rfl) _)
  | string value => exact pure (C.literal (.inl rfl) _)
  | type ty =>
    refine (typeName hs he fun w hw => List.mem_append_left _ hw).map ?_
    rintro name _ ⟨rfl, hname⟩
    exact wordParens (C.fixed "typeof" (by decide)) (C.head hname)
  | enum ty member =>
    have hmember := hs.spelled _ he member List.mem_cons_self
    refine (typeName hs he fun w hw => List.mem_append_left _ (List.mem_cons_of_mem _ hw)).map ?_
    rintro name _ ⟨rfl, hname⟩
    exact around (C.head hname) (C.fixed "." (by decide)) (C.free hmember.1)
  | captured object => exact asked hs ⟨_, he, List.mem_cons_self⟩

theorem variableName {target : Variable} (he : .variable i target ∈ root.nodes) :
    Parallel C root path C.Beside (variableName (.variable i target))
      (variableName (.variable i target)) :=
  asked hs ⟨_, he, List.mem_cons_self⟩

theorem «default» (he : .default i ty ∈ root.nodes) :
    Parallel C root path C.Beside (Render.default (.default i ty)) (Render.default (.default i ty)) := by
  unfold Render.default
  dsimp only
  split
  · exact pure (C.fixed "" (by decide))
  · refine (typeName hs he fun w hw => List.mem_append_left _ hw).map ?_
    rintro name _ ⟨rfl, hname⟩
    exact wordParens (C.fixed "default" (by decide)) (C.head hname)

end Leaves

/-! ### Operators -/

/-- A node that carries no wrapper keeps its text. -/
theorem wrapChecked {e : Expr} (heven : C.Exact ∨ chainHasChecked e = false) {a b : String}
    (h : C.Beside a b) :
    Parallel C root (e :: path)
      (fun x y => C.Beside x y ∧ (carriesChecked path.head? e = false → x = a))
      (wrapChecked e a) (wrapChecked e b) := by
  refine get.bind fun s t hst => ?_
  have hparent : s.parent? = path.head? ∧ t.parent? = path.head? := by
    rw [Session.parent?, Session.parent?, hst.left_path, hst.right_path]
    exact ⟨rfl, rfl⟩
  rw [hparent.1, hparent.2]
  cases hcarries : carriesChecked path.head? e with
  | false => exact pure ⟨h, fun _ => rfl⟩
  | true =>
    have hexact : C.Exact := by
      rcases heven with hexact | heven
      · exact hexact
      · rw [carriesChecked, heven, Bool.and_false] at hcarries
        cases hcarries
    refine indent.map fun i j hij => ⟨?_, fun hno => by cases hno⟩
    rw [hij.1, hij.2]
    exact C.checked hexact h

section Operators

theorem binaryOperand {c : Expr} (hc : Parallel C root path C.Beside (visit c) (visit c)) (op : BinaryOp)
    (side : BinaryOp.Side) :
    Parallel C root path C.Beside (binaryOperand visit op side c) (binaryOperand visit op side c) := by
  refine (operandText hc).bind fun a b h => ?_
  cases c with
  | binary =>
    dsimp only
    split
    · exact pure h
    · exact pure (C.withoutParens h)
  | _ => exact pure h

theorem binary {i : Nat} {op : BinaryOp} {left right : Expr} {ty : Ty}
    (heven : C.Exact ∨ chainHasChecked (.binary i op left right ty) = false)
    (hl : Parallel C root (.binary i op left right ty :: path) C.Beside (visit left) (visit left))
    (hr : Parallel C root (.binary i op left right ty :: path) C.Beside (visit right) (visit right)) :
    Parallel C root (.binary i op left right ty :: path)
      (C.Texts path.head? (.binary i op left right ty)) (binary visit (.binary i op left right ty))
      (binary visit (.binary i op left right ty)) := by
  refine (binaryOperand hl op .left).bind fun l l' hl => ?_
  refine (binaryOperand hr op .right).bind fun r r' hr => ?_
  have hinner := around hl (C.fixed _ (symbol_mem_vocabulary op)) hr
  have htext : ∀ a b : String, "(" ++ a ++ " " ++ op.symbol ++ " " ++ b ++ ")" =
      "(" ++ (a ++ (" " ++ op.symbol ++ " ") ++ b) ++ ")" := by
    simp [String.append_assoc]
  rw [htext, htext]
  refine (wrapChecked heven (C.parens hinner)).weaken fun a b hab => ?_
  exact ⟨hab.1, fun hgroup => ⟨_, _, hinner, hab.2 hgroup⟩⟩

theorem unaryText (hs : C.Suits root) {i : Nat} {op : UnaryOp} {operand : Expr} {ty : Ty}
    (he : .unary i op operand ty ∈ root.nodes) {a b : String} (h : C.Beside a b) :
    C.Texts none (.unary i op operand ty) (unaryText C.left op operand.ty ty a)
      (unaryText C.right op operand.ty ty b) := by
  have hty : C.Head (C.left.typeName ty) ∧ C.left.typeName ty = C.right.typeName ty := by
    rw [C.left_names, C.right_names]
    exact ⟨Comparison.display _ ty fun w hw => (hs.spelled _ he w (List.mem_append_left _ hw)).2, rfl⟩
  have prefixed : ∀ w, C.Beside w w → C.Beside (w ++ a) (w ++ b) := fun w hw => C.append hw h
  have suffixed : ∀ w, C.Beside w w → C.Beside (a ++ w) (b ++ w) := fun w hw => C.append h hw
  cases op with
  | negate | negateChecked => exact ⟨prefixed "-" (C.fixed _ (by decide)), fun hop => by cases hop⟩
  | unaryPlus => exact ⟨prefixed "+" (C.fixed _ (by decide)), fun hop => by cases hop⟩
  | not =>
    refine ⟨?_, fun hop => by cases hop⟩
    simp only [Render.unaryText]
    split
    · exact prefixed "~" (C.fixed _ (by decide))
    · exact prefixed "!" (C.fixed _ (by decide))
  | onesComplement => exact ⟨prefixed "~" (C.fixed _ (by decide)), fun hop => by cases hop⟩
  | increment | preIncrementAssign =>
    exact ⟨prefixed "++" (C.fixed _ (by decide)), fun hop => by cases hop⟩
  | decrement | preDecrementAssign =>
    exact ⟨prefixed "--" (C.fixed _ (by decide)), fun hop => by cases hop⟩
  | postIncrementAssign => exact ⟨suffixed "++" (C.fixed _ (by decide)), fun hop => by cases hop⟩
  | postDecrementAssign => exact ⟨suffixed "--" (C.fixed _ (by decide)), fun hop => by cases hop⟩
  | arrayLength => exact ⟨suffixed ".Length" (C.fixed _ (by decide)), fun hop => by cases hop⟩
  | convert | convertChecked =>
    refine ⟨?_, fun hop => by cases hop⟩
    simp only [Render.unaryText]
    rw [← hty.2]
    exact C.append (C.parens (C.head hty.1)) h
  | typeAs =>
    have hinner := around h (C.fixed " as " (by decide)) (C.head hty.1)
    have htext : ∀ x, "(" ++ x ++ " as " ++ C.left.typeName ty ++ ")" =
        "(" ++ (x ++ " as " ++ C.left.typeName ty) ++ ")" := by
      simp [String.append_assoc]
    simp only [Render.unaryText]
    rw [← hty.2, htext, htext]
    exact ⟨C.parens hinner, fun _ => ⟨_, _, hinner, rfl⟩⟩

theorem unary (hs : C.Suits root) {i : Nat} {op : UnaryOp} {operand : Expr} {ty : Ty}
    (he : .unary i op operand ty ∈ root.nodes)
    (heven : C.Exact ∨ chainHasChecked (.unary i op operand ty) = false)
    (hv : Parallel C root (.unary i op operand ty :: path) C.Beside (visit operand) (visit operand)) :
    Parallel C root (.unary i op operand ty :: path) (C.Texts path.head? (.unary i op operand ty))
      (unary visit (.unary i op operand ty)) (unary visit (.unary i op operand ty)) := by
  refine (operandText hv).bind fun a b h => ?_
  have hvalue : C.Beside (if needsGrouping operand then Text.withParens a else a)
      (if needsGrouping operand then Text.withParens b else b) := by
    split
    · exact Comparison.withParens h
    · exact h
  refine read.bind fun env env' henv => ?_
  obtain ⟨rfl, rfl⟩ := henv
  have htexts := unaryText hs he hvalue
  refine (wrapChecked heven htexts.1).weaken fun x y hxy => ⟨hxy.1, fun hgroup => ?_⟩
  -- A conversion by `as` is no arithmetic, so nothing wraps it.
  have hop : op = .typeAs := hgroup
  have hcarries : carriesChecked path.head? (.unary i op operand ty) = false := by
    rw [hop]
    rfl
  rw [hxy.2 hcarries]
  exact htexts.2 hop

theorem assignedText {c : Expr} (hc : Parallel C root path C.Beside (visit c) (visit c)) :
    Parallel C root path C.Beside (assignedText visit c) (assignedText visit c) := by
  refine hc.bind fun a b h => ?_
  cases c with
  | assign | block => exact pure (Comparison.withParens (C.unterminated h))
  | _ => exact stripped _ h

theorem assign (i : Nat) {op : AssignOp} {target value : Expr}
    (ht : Parallel C root path C.Beside (visit target) (visit target))
    (hv : Parallel C root path C.Beside (visit value) (visit value)) :
    Parallel C root path C.Beside (assign visit (.assign i op target value))
      (assign visit (.assign i op target value)) := by
  refine ht.bind fun t t' ht => (assignedText hv).map fun v v' hv => ?_
  have htext : ∀ a b : String, a ++ " " ++ op.symbol ++ " " ++ b = a ++ (" " ++ op.symbol ++ " ") ++ b := by
    simp [String.append_assoc]
  rw [htext, htext]
  exact around ht (C.fixed _ (assignSymbol_mem_vocabulary op)) hv

end Operators

/-! ### Branches, lambdas and loops -/

theorem ifText {test test' : String} {b b' : Body} (ht : C.Beside test test') (hb : Bodies C b b') :
    C.Beside (ifText test b) (ifText test' b') :=
  C.append (C.append (C.fixed "if " (by decide)) (Comparison.withParens ht)) hb.bracketed

theorem branches {test test' : String} {first first' second second' : Body} {ty : Ty}
    {ifTrue ifFalse : Expr} (ht : C.Beside test test') (hf : Bodies C first first')
    (hs : Bodies C second second') :
    C.Beside (branches test ty ifTrue ifFalse first second)
      (branches test' ty ifTrue ifFalse first' second') := by
  unfold Render.branches
  rw [hf.isSingle, hs.isSingle]
  split
  · have hfirst := around ht (C.fixed " ? " (by decide)) (C.unterminated hf.text)
    exact around hfirst (C.fixed " : " (by decide)) (C.unterminated hs.text)
  · split
    · exact around (ifText ht hf) (C.fixed "\n\n" (by decide)) (Comparison.terminated hs.text)
    · split
      · exact around (ifText ht hf) (C.fixed "\nelse " (by decide)) (C.unterminated hs.text)
      · exact around (ifText ht hf) (C.fixed "\nelse" (by decide)) hs.bracketed

theorem conditional {i : Nat} {test ifTrue ifFalse : Expr} {ty : Ty}
    (h : ∀ c ∈ (Expr.conditional i test ifTrue ifFalse ty).shown,
      Parallel C root path C.Beside (visit c) (visit c)) :
    Parallel C root path C.Beside (conditional visit (.conditional i test ifTrue ifFalse ty))
      (conditional visit (.conditional i test ifTrue ifFalse ty)) := by
  rw [Expr.shown, List.cons_append, List.cons_append, List.nil_append, List.forall_mem_cons,
    List.forall_mem_cons] at h
  obtain ⟨htest, htrue, hfalse⟩ := h
  unfold Render.conditional
  refine htest.bind fun t t' ht => (body htrue).bind fun b b' hb => ?_
  split
  · exact pure (ifText ht hb)
  · rw [if_neg ‹_›] at hfalse
    exact (body (hfalse _ List.mem_cons_self)).map fun k k' hk => branches ht hb hk

theorem parameterNames {xs ys : List String} (h : List.Forall₂ C.Beside xs ys) :
    C.Beside (parameterNames xs) (parameterNames ys) := by
  have hlist := C.parens (join (C.fixed ", " (by decide)) h)
  cases h with
  | nil => exact hlist
  | cons hx hrest =>
    cases hrest with
    | nil => exact hx
    | cons => exact hlist

theorem lambdaBody {i : Nat} {params : List Variable} {c : Expr} {ty : Ty}
    (heven : C.Exact ∨ (Expr.lambda i params c ty).Even)
    (hv : c.isEmpty = false → Parallel C root path C.Beside (visit c) (visit c)) :
    Parallel C root path C.Beside (lambdaBody visit c) (lambdaBody visit c) := by
  unfold Render.lambdaBody
  cases hempty : c.isEmpty with
  | true => exact pure (C.fixed _ (by decide))
  | false =>
    have hc := hv hempty
    rw [if_neg Bool.false_ne_true]
    have hbracketed : Parallel C root path C.Beside (do return (← RenderM.body visit c).bracketed)
        (do return (← RenderM.body visit c).bracketed) :=
      (body hc).map fun b b' hb => hb.bracketed
    -- How many lines the text has decides nothing unless the texts are the same.
    have other : C.Exact ∨ c.ty.isVoid = false → Parallel C root path C.Beside
        (do
          let text ← visit c
          if Text.isMultiLine text && c.ty.isVoid then return (← RenderM.body visit c).bracketed
          else return " " ++ (← RenderM.stripped c text))
        (do
          let text ← visit c
          if Text.isMultiLine text && c.ty.isVoid then return (← RenderM.body visit c).bracketed
          else return " " ++ (← RenderM.stripped c text)) := by
      intro hsame
      refine hc.bind fun a b h => ?_
      have hlines : (Text.isMultiLine a && c.ty.isVoid) = (Text.isMultiLine b && c.ty.isVoid) := by
        rcases hsame with hexact | hvoid
        · rw [hexact a b h]
        · rw [hvoid, Bool.and_false, Bool.and_false]
      rw [hlines]
      split
      · exact hbracketed
      · exact (stripped c h).map fun a b h => C.append (C.fixed " " (by decide)) h
    have hsame : c.kind ≠ .block → c.kind ≠ .loop → C.Exact ∨ c.ty.isVoid = false := by
      intro hblock hloop
      rcases heven with hexact | hblock' | hloop' | hempty' | hvoid
      · exact .inl hexact
      · exact absurd hblock' hblock
      · exact absurd hloop' hloop
      · rw [hempty] at hempty'
        cases hempty'
      · exact .inr hvoid
    cases c with
    | block | loop => exact hbracketed
    | _ => exact other (hsame (fun h => by cases h) (fun h => by cases h))

theorem lambda (hs : C.Suits root) {i : Nat} {params : List Variable} {c : Expr} {ty : Ty}
    (he : .lambda i params c ty ∈ root.nodes)
    (hv : ∀ x ∈ (Expr.lambda i params c ty).shown, Parallel C root path C.Beside (visit x) (visit x)) :
    Parallel C root path C.Beside (lambda visit (.lambda i params c ty))
      (lambda visit (.lambda i params c ty)) := by
  have heven : C.Exact ∨ (Expr.lambda i params c ty).Even := hs.even.imp id fun h => h _ he
  have hbody : c.isEmpty = false → Parallel C root path C.Beside (visit c) (visit c) := by
    intro hempty
    rw [Expr.shown, hempty] at hv
    exact hv c List.mem_cons_self
  have hnames : Parallel C root path (List.Forall₂ C.Beside) (params.mapM nameOf) (params.mapM nameOf) :=
    mapM fun v hv => asked hs ⟨_, he, List.mem_map_of_mem hv⟩
  refine hnames.bind fun xs ys hxs => (lambdaBody heven hbody).map fun a b h => ?_
  exact around (parameterNames hxs) (C.fixed " =>" (by decide)) h

theorem jump {keyword : String} (hkeyword : keyword ∈ vocabulary)
    (labelOf : Option Label → Option Label → Option Label) (target : Label) :
    Parallel C root path C.Beside (jump keyword labelOf target) (jump keyword labelOf target) := by
  refine get.bind fun s t hst => ?_
  rw [hst.left_path, hst.right_path]
  split
  · exact pure (C.fixed _ hkeyword)
  · exact refuse _

theorem loop {e : Expr} (h : ∀ c ∈ e.shown, Parallel C root path C.Beside (visit c) (visit c)) :
    Parallel C root path C.Beside (loop visit e) (loop visit e) := by
  have hwhile := C.fixed "while (true)" (by decide)
  cases e with
  | loop _ c _ _ =>
    cases c with
    | none => exact pure (C.append hwhile (C.fixed "\n\x7b\n\x7d" (by decide)))
    | some c =>
      exact (body (h c List.mem_cons_self)).map fun b b' hb => C.append hwhile hb.bracketed
  | «break» _ target => exact jump (by decide) _ target
  | «continue» _ target => exact jump (by decide) _ target
  | «return» _ _ value =>
    cases value with
    | none => exact pure (C.fixed _ (by decide))
    | some c =>
      exact (h c List.mem_cons_self).map fun a b hab => C.append (C.fixed "return " (by decide)) hab
  | _ => exact refuse _

/-! ### Blocks -/

/-- Lines of one block. -/
structure SameLines (C : Comparison) (l l' : Lines) : Prop where
  text : C.Beside l.text l'.text
  exact : C.Exact → l = l'

theorem gap (x y : Bool) (h : C.Exact → x = y) :
    C.Beside (if x then "\n\n" else "\n") (if y then "\n\n" else "\n") := by
  have hone := C.fixed "\n" (by decide)
  have htwo := C.fixed "\n\n" (by decide)
  rcases C.gap with hexact | ⟨hmore, hless⟩
  · rw [h hexact]
    cases y
    · exact hone
    · exact htwo
  · cases x <;> cases y
    · exact hone
    · exact hmore
    · exact hless
    · exact htwo

theorem SameLines.push {l l' : Lines} (hl : SameLines C l l') {a b : String} (h : C.Beside a b)
    (apart : Bool) : SameLines C (l.push a apart) (l'.push b apart) where
  text := by
    unfold Lines.push
    dsimp only
    rw [C.isEmpty hl.text]
    split
    · exact C.append (C.append hl.text (C.fixed "" (by decide))) h
    · refine C.append (C.append hl.text (gap _ _ fun hexact => ?_)) h
      rw [hl.exact hexact, hexact a b h]
  exact hexact := by rw [hl.exact hexact, hexact a b h]

theorem SameLines.pushReturn {l l' : Lines} (hl : SameLines C l l') {a b : String} (h : C.Beside a b) :
    SameLines C (l.pushReturn a) (l'.pushReturn b) where
  text := by
    unfold Lines.pushReturn
    dsimp only
    rw [C.isEmpty hl.text]
    have hgap : C.Beside (if l'.text.isEmpty then "" else "\n\n") (if l'.text.isEmpty then "" else "\n\n") := by
      split <;> exact C.fixed _ (by decide)
    exact C.append (C.append (C.append (C.append hl.text hgap) (C.fixed "return " (by decide))) h)
      (C.fixed ";" (by decide))
  exact hexact := by rw [hl.exact hexact, hexact a b h]

section Blocks
variable (hs : C.Suits root) {i : Nat} {locals : List Variable} {all : List Expr} {ty : Ty}

theorem declarations (he : .block i locals all ty ∈ root.nodes) (hs : C.Suits root)
    (statements : List Expr) : ∀ vs : List Variable, (∀ v ∈ vs, v ∈ locals) →
    Parallel C root path (fun a b => a = b ∧ ∀ w ∈ a, C.Beside w w)
      (declarations locals statements vs) (declarations locals statements vs)
  | [], _ => pure ⟨rfl, fun w hw => by cases hw⟩
  | v :: rest, hvs => by
    obtain ⟨hv, hrest⟩ := List.forall_mem_cons.mp hvs
    have hmore := declarations he hs statements rest hrest
    have hrequest : NameRequest.variable v ∈ (Expr.block i locals all ty).requests :=
      List.mem_map_of_mem hv
    rw [Render.declarations]
    refine get.bind fun s t hst => ?_
    have hdeclared : s.isDeclared v = t.isDeclared v := by
      rw [Session.isDeclared, Session.isDeclared, hst.scopes]
    rw [hdeclared]
    split
    · exact hmore
    · refine (declare v).bind fun _ _ _ => ?_
      refine (ask hs ⟨_, he, hrequest⟩).bind ?_
      rintro name _ ⟨rfl, hname⟩
      have hty : ∀ w ∈ v.ty.spellings, w ∈ (Expr.block i locals all ty).spellings := fun w hw =>
        List.mem_append_right _ (List.mem_flatMap.mpr ⟨_, hrequest, List.mem_append_right _ hw⟩)
      refine (typeName hs he hty).bind ?_
      rintro tyName _ ⟨rfl, htyName⟩
      refine hmore.map ?_
      rintro lines _ ⟨rfl, hlines⟩
      have hline := around (C.head htyName) (C.fixed " " (by decide)) (C.free hname)
      exact ⟨rfl, List.forall_mem_cons.mpr ⟨C.append hline (C.fixed ";" (by decide)), hlines⟩⟩

theorem statementText (locals : List Variable) (c : Expr) {a b : String} (h : C.Beside a b) :
    Parallel C root path C.Beside (statementText locals c a) (statementText locals c b) := by
  refine (stripped c h).bind fun a b h => ?_
  cases declaredBy locals c with
  | none => exact pure h
  | some v =>
    refine (declare v).bind ?_
    rintro isNew _ rfl
    split
    · exact pure (C.append (C.fixed "var " (by decide)) h)
    · exact pure h

theorem statements (position : Position) (returnsLast : Bool) (locals : List Variable) :
    ∀ (xs : List Expr) (l l' : Lines), SameLines C l l' →
    (∀ c ∈ xs, Parallel C root path C.Beside (visit c) (visit c)) →
    Parallel C root path (SameLines C) (statements visit position returnsLast locals xs l)
      (statements visit position returnsLast locals xs l')
  | [], _, _, hl, _ => pure hl
  | c :: rest, l, l', hl, hv => by
    obtain ⟨hc, hrest⟩ := List.forall_mem_cons.mp hv
    rw [Render.statements, Render.statements]
    refine hc.bind fun a b h => ?_
    rw [C.isEmpty h]
    split
    · exact statements position returnsLast locals rest l l' hl hrest
    · split
      · dsimp only
        split
        · exact pure (hl.pushReturn h)
        · exact (stripped c h).map fun a b h => hl.pushReturn h
      · refine (statementText locals c h).bind fun a b h => ?_
        exact statements position returnsLast locals rest _ _ (hl.push (Comparison.terminated h) false) hrest

include hs

theorem blockBody (he : .block i locals all ty ∈ root.nodes)
    (hv : ∀ c ∈ (Expr.block i locals all ty).shown, Parallel C root path C.Beside (visit c) (visit c)) :
    Parallel C root path C.Beside (blockBody visit (.block i locals all ty) locals all ty)
      (blockBody visit (.block i locals all ty) locals all ty) := by
  refine get.bind fun s t hst => ?_
  have hposition : s.parent? = t.parent? := by
    rw [Session.parent?, Session.parent?, hst.left_path, hst.right_path]
  rw [hposition]
  refine (declarations he hs _ locals fun v hv => hv).bind ?_
  rintro lines _ ⟨rfl, hlines⟩
  have hempty : SameLines C {} {} := ⟨C.fixed "" (by decide), fun _ => rfl⟩
  have hstart : SameLines C
      (if lines.isEmpty then {} else ({} : Lines).push (Text.join "\n" lines) true)
      (if lines.isEmpty then {} else ({} : Lines).push (Text.join "\n" lines) true) := by
    split
    · exact hempty
    · exact hempty.push (join (C.fixed "\n" (by decide)) (List.forall₂_same.mpr hlines)) true
  refine (statements _ _ locals _ _ _ hstart hv).bind fun l l' hl => ?_
  split
  · rw [C.isEmpty hl.text]
    split
    · exact pure (C.fixed _ (by decide))
    · refine indent.map fun i j hij => ?_
      rw [hij.1, hij.2]
      exact C.braces hl.text
  · exact pure hl.text

theorem block (he : .block i locals all ty ∈ root.nodes)
    (hv : ∀ c ∈ (Expr.block i locals all ty).shown, Parallel C root path C.Beside (visit c) (visit c)) :
    Parallel C root path C.Beside (block visit (.block i locals all ty))
      (block visit (.block i locals all ty)) :=
  inScope (blockBody hs he hv)

end Blocks

/-! ### Calls -/

theorem Listed.after {a b w : String} (h : Listed C a b) (hw : C.Head w) : C.Beside (w ++ a) (w ++ b) := by
  obtain ⟨xs, ys, hxs, rfl, rfl⟩ := h
  exact C.arguments hw hxs

theorem invoke {target : Expr} {args : List Expr}
    (ht : Parallel C root path C.Beside (visit target) (visit target))
    (ha : ∀ c ∈ args, Parallel C root path C.Beside (visit c) (visit c)) :
    Parallel C root path C.Beside (invoke visit target args) (invoke visit target args) := by
  have hargs : Parallel C root path (Listed C) (RenderM.parameters visit args none)
      (RenderM.parameters visit args none) := parameters ha
  have hcall : ∀ a b, C.Beside a b → Parallel C root path C.Beside
      (do return a ++ ".Invoke" ++ (← RenderM.parameters visit args none))
      (do return b ++ ".Invoke" ++ (← RenderM.parameters visit args none)) := by
    intro a b h
    refine hargs.map fun list list' hlist => ?_
    rw [String.append_assoc, String.append_assoc]
    exact C.append h (hlist.after (C.headed ".Invoke" (by decide)))
  unfold Render.invoke
  dsimp only
  split
  · rw [map_eq_pure_bind]
    exact (ht.map fun a b h => Comparison.withParens h).bind hcall
  · exact (receiverText ht).bind hcall

theorem concatenation {args : List Expr}
    (h : ∀ c ∈ (concatenated args).map concatenand, Parallel C root path C.Beside (visit c) (visit c)) :
    Parallel C root path C.Beside (concatenation visit args) (concatenation visit args) := by
  have htexts : Parallel C root path (List.Forall₂ C.Beside)
      ((concatenated args).mapM fun e => RenderM.operandText visit (concatenand e))
      ((concatenated args).mapM fun e => RenderM.operandText visit (concatenand e)) :=
    mapM fun c hc => operandText (h _ (List.mem_map_of_mem hc))
  exact htexts.map fun xs ys hxs => C.parens (join (C.fixed " + " (by decide)) hxs)

theorem mem_of_indexerParts {method : Method} {args indices : List Expr} {value : Option Expr}
    (h : indexerParts method args = .ok (indices, value)) :
    (∀ c ∈ indices, c ∈ args) ∧ ∀ c, value = some c → c ∈ args := by
  unfold indexerParts at h
  split at h
  · split at h
    · next value hlast =>
      cases h
      refine ⟨fun c hc => (List.dropLast_sublist args).subset hc, ?_⟩
      rintro c ⟨⟩
      exact List.mem_of_getLast? hlast
    · cases h
  · cases h
    exact ⟨fun c hc => hc, fun c hc => by cases hc⟩

theorem indexer {subject : Option Expr} {method : Method} {args : List Expr}
    (h : ∀ c ∈ subject.toList ++ args, Parallel C root path C.Beside (visit c) (visit c)) :
    Parallel C root path C.Beside (indexer visit subject method args)
      (indexer visit subject method args) := by
  unfold Render.indexer
  cases subject with
  | none => exact refuse _
  | some subject =>
    obtain ⟨hsubject, hargs⟩ := List.forall_mem_append.mp h
    dsimp only
    split
    · exact refuse _
    · exact refuse _
    · next indices value _ hparts =>
      obtain ⟨hindices, hvalue⟩ := mem_of_indexerParts hparts
      refine (receiverText (hsubject subject List.mem_cons_self)).bind fun r r' hr => ?_
      have htexts : Parallel C root path (List.Forall₂ C.Beside) (RenderM.arguments visit indices none)
          (RenderM.arguments visit indices none) := arguments fun c hc => hargs c (hindices c hc)
      refine htexts.bind fun xs ys hxs => (Parallel.indices hxs).bind fun a b hab => ?_
      cases value with
      | none => exact pure (C.append hr hab)
      | some value =>
        refine (strippedText (hargs value (hvalue value rfl))).map fun v v' hv => ?_
        exact around (C.append hr hab) (C.fixed " = " (by decide)) hv

section Methods
variable (hs : C.Suits root) {i : Nat} {subject : Option Expr} {method : Method} {args : List Expr}
  (he : .call i subject method args ∈ root.nodes)
include hs he

theorem genericArguments : Parallel C root path (fun a b => a = b ∧ ∀ w, C.Head w → C.Head (w ++ a))
    (genericArguments method) (genericArguments method) := by
  have hnone : Parallel C root path (fun a b => a = b ∧ ∀ w, C.Head w → C.Head (w ++ a))
      (Pure.pure "") (Pure.pure "") :=
    pure ⟨rfl, fun w hw => by rwa [String.append_empty]⟩
  unfold Render.genericArguments
  split
  · exact hnone
  · split
    · exact refuse _
    · refine read.bind fun a b hab => ?_
      obtain ⟨rfl, rfl⟩ := hab
      rw [C.generics]
      split
      · exact hnone
      · have hnames : method.genericArgs.map C.left.typeName = method.genericArgs.map C.right.typeName := by
          rw [C.left_names, C.right_names]
        rw [hnames]
        have hheads : ∀ w ∈ method.genericArgs.map C.right.typeName, C.Beside w w := by
          intro w hw
          rw [C.right_names] at hw
          obtain ⟨arg, harg, rfl⟩ := List.mem_map.mp hw
          refine C.head (Comparison.display _ arg fun w hw => (hs.spelled _ he w ?_).2)
          have hown : w ∈ method.spellings :=
            List.mem_append_right _ (List.mem_flatMap.mpr ⟨arg, harg, hw⟩)
          exact List.mem_append_left _ hown
        have hlist := join (C.fixed ", " (by decide)) (List.forall₂_same.mpr hheads)
        refine pure ⟨rfl, fun w hw => ?_⟩
        rw [← String.append_assoc, ← String.append_assoc]
        exact C.append_head (around (C.head hw) (C.fixed "<" (by decide)) hlist)
          (C.headed ">" (by decide))

/-- The parts of a call in both renderings. -/
structure CallParts (C : Comparison) (shown : List Expr)
    (x y : Option String × List Expr × List Parameter) : Prop where
  receiver : Option.Rel C.Beside x.1 y.1
  rest : x.2 = y.2
  mem : ∀ c ∈ argumentsNodes x.2.1 (some x.2.2), c ∈ shown

theorem callParts (hconcat : isConcatenation subject method = false) (hindexer : isIndexer method = false)
    (hv : ∀ c ∈ callNodes subject method args, Parallel C root path C.Beside (visit c) (visit c)) :
    Parallel C root path (CallParts C (callNodes subject method args))
      (callParts visit subject method args) (callParts visit subject method args) := by
  unfold Render.callParts
  cases hkind : method.kind with
  | extension =>
    have hnodes : callNodes subject method args =
        args.head?.toList ++ argumentsNodes args.tail (some method.params.tail) := by
      rw [callNodes, hconcat, hindexer, hkind]
      rfl
    dsimp only
    cases args with
    | nil => exact refuse _
    | cons first rest =>
      have hfirst : first ∈ callNodes subject method (first :: rest) := by
        rw [hnodes]
        exact List.mem_cons_self
      refine (receiverText (hv first hfirst)).map fun a b h => ⟨.some h, rfl, fun c hc => ?_⟩
      rw [hnodes]
      exact List.mem_append_right _ hc
  | static =>
    have hnodes : callNodes subject method args = argumentsNodes args (some method.params) := by
      rw [callNodes, hconcat, hindexer, hkind]
      rfl
    dsimp only
    have hty : ∀ w ∈ method.declaringType.spellings, w ∈ (Expr.call i subject method args).spellings := by
      intro w hw
      have hown : w ∈ method.spellings := List.mem_append_left _ (List.mem_cons_of_mem _ hw)
      exact List.mem_append_left _ hown
    refine (typeName hs he hty).map ?_
    rintro name _ ⟨rfl, hname⟩
    exact ⟨.some (C.head hname), rfl, fun c hc => by rw [hnodes]; exact hc⟩
  | onInstance =>
    have hnodes : callNodes subject method args =
        (subject.filter (!·.isCaptured)).toList ++ argumentsNodes args (some method.params) := by
      rw [callNodes, hconcat, hindexer, hkind]
      rfl
    dsimp only
    cases subject with
    | none => exact refuse _
    | some subject =>
      have hrest : ∀ c ∈ argumentsNodes args (some method.params), c ∈ callNodes (some subject) method args := by
        intro c hc
        rw [hnodes]
        exact List.mem_append_right _ hc
      dsimp only
      split
      · exact pure ⟨.none, rfl, hrest⟩
      · next hcaptured =>
        have hsubject : subject ∈ callNodes (some subject) method args := by
          rw [hnodes]
          exact List.mem_append_left _ (by simp [Option.filter, hcaptured])
        exact (receiverText (hv subject hsubject)).map fun a b h => ⟨.some h, rfl, hrest⟩

theorem methodCall (hconcat : isConcatenation subject method = false) (hindexer : isIndexer method = false)
    (hv : ∀ c ∈ callNodes subject method args, Parallel C root path C.Beside (visit c) (visit c)) :
    Parallel C root path C.Beside (methodCall visit (.call i subject method args) subject method args)
      (methodCall visit (.call i subject method args) subject method args) := by
  have hname : C.Head method.name :=
    (hs.spelled _ he method.name (List.mem_append_left _ List.mem_cons_self)).2
  refine (callParts hs he hconcat hindexer hv).bind ?_
  rintro ⟨receiver, args', params⟩ ⟨receiver', args'', params'⟩ ⟨hreceiver, hrest, hmem⟩
  obtain ⟨rfl, rfl⟩ := Prod.mk.inj hrest
  refine (genericArguments hs he).bind ?_
  rintro generics _ ⟨rfl, hgenerics⟩
  have hargs : Parallel C root path (Listed C) (RenderM.parameters visit args' (some params))
      (RenderM.parameters visit args' (some params)) := parameters fun c hc => hv c (hmem c hc)
  refine hargs.bind fun list list' hlist => ?_
  have hcall := hlist.after (hgenerics _ hname)
  cases hreceiver with
  | none => exact pure hcall
  | some hreceiver =>
    refine get.bind fun s t hst => ?_
    have hchain : s.inCallChain (.call i subject method args) = t.inCallChain (.call i subject method args) := by
      simp only [Session.inCallChain, Session.pathFrom, hst.left_path, hst.right_path]
    rw [hchain]
    split
    · refine indent.map fun a b hab => ?_
      rw [hab.1, hab.2]
      have hline := C.append hreceiver C.newline
      rw [← String.append_assoc, ← String.append_assoc] at hline
      exact around hline (C.fixed "." (by decide)) hcall
    · exact pure (around hreceiver (C.fixed "." (by decide)) hcall)

end Methods

theorem call (hs : C.Suits root) {e : Expr} (he : e ∈ root.nodes)
    (hv : ∀ c ∈ e.shown, Parallel C root path C.Beside (visit c) (visit c)) :
    Parallel C root path C.Beside (call visit e) (call visit e) := by
  cases e with
  | invoke _ target args _ =>
    obtain ⟨htarget, hargs⟩ := List.forall_mem_cons.mp hv
    exact invoke htarget hargs
  | call i subject method args =>
    unfold Render.call
    dsimp only [Expr.shown] at hv ⊢
    split
    · rw [callNodes, if_pos ‹_›] at hv
      exact concatenation hv
    · split
      · rw [callNodes, if_neg ‹_›, if_pos ‹_›] at hv
        exact indexer hv
      · exact methodCall hs he (by simpa using ‹¬isConcatenation subject method = true›)
          (by simpa using ‹¬isIndexer method = true›) hv
  | _ => exact refuse _

/-! ### Members and objects -/

theorem member (hs : C.Suits root) {i : Nat} {subject : Option Expr} {target : Member}
    (he : .member i subject target ∈ root.nodes)
    (hv : ∀ c ∈ (Expr.member i subject target).shown, Parallel C root path C.Beside (visit c) (visit c)) :
    Parallel C root path C.Beside (member visit (.member i subject target))
      (member visit (.member i subject target)) := by
  have hname := C.free (hs.spelled _ he target.name (List.mem_append_left _ List.mem_cons_self)).1
  have hdot := C.fixed "." (by decide)
  have hstatic : Parallel C root path C.Beside
      (do return (← RenderM.typeName target.declaringType) ++ "." ++ target.name)
      (do return (← RenderM.typeName target.declaringType) ++ "." ++ target.name) := by
    refine (typeName hs he fun w hw => List.mem_append_left _ (List.mem_cons_of_mem _ hw)).map ?_
    rintro name _ ⟨rfl, hty⟩
    exact around (C.head hty) hdot hname
  unfold Render.member
  dsimp only
  split
  · next subject hisStatic =>
    split
    · next object hobject =>
      refine asked hs ⟨_, he, ?_⟩
      simp [Expr.requests, hobject]
    · next hobject =>
      have hshown : subject ∈ (Expr.member i (some subject) target).shown := by
        simp [Expr.shown, hisStatic, Option.filter, Expr.isCaptured, hobject]
      exact (receiverText (hv subject hshown)).map fun a b h => around h hdot hname
  · exact hstatic

theorem index (i : Nat) {subject : Expr} {indices : List Expr} (ty : Ty)
    (hv : ∀ c ∈ subject :: indices, Parallel C root path C.Beside (visit c) (visit c)) :
    Parallel C root path C.Beside (index visit (.index i subject indices ty))
      (index visit (.index i subject indices ty)) := by
  obtain ⟨hsubject, hindices⟩ := List.forall_mem_cons.mp hv
  unfold Render.index
  dsimp only
  split
  · exact refuse _
  · refine (receiverText hsubject).bind fun a b h => ?_
    have htexts : Parallel C root path (List.Forall₂ C.Beside) (RenderM.arguments visit indices none)
        (RenderM.arguments visit indices none) := arguments hindices
    exact htexts.bind fun xs ys hxs => (Parallel.indices hxs).map fun l l' hl => C.append h hl

theorem new (hs : C.Suits root) {e : Expr} (he : e ∈ root.nodes)
    (hv : ∀ c ∈ e.shown, Parallel C root path C.Beside (visit c) (visit c)) :
    Parallel C root path C.Beside (new visit e) (new visit e) := by
  have hnew := C.fixed "new " (by decide)
  cases e with
  | new _ ty constructor args =>
    refine (parameters hv).bind fun list list' hlist => ?_
    refine (typeName hs he fun w hw => List.mem_append_left _ hw).map ?_
    rintro name _ ⟨rfl, hname⟩
    rw [String.append_assoc, String.append_assoc]
    exact C.append hnew (hlist.after hname)
  | newArray i element items =>
    have helement : ∀ w ∈ element.spellings, w ∈ Expr.spellings (.newArray i element items) :=
      fun w hw => List.mem_append_left _ hw
    unfold Render.new
    dsimp only
    split
    · refine (typeName hs he helement).map ?_
      rintro name _ ⟨rfl, hname⟩
      exact C.append (C.append hnew (C.head hname)) (C.fixed "[0]" (by decide))
    · have hitems : Parallel C root path (List.Forall₂ C.Beside) (RenderM.arguments visit items none)
          (RenderM.arguments visit items none) := arguments hv
      have harray : ∀ array, C.Beside array array → Parallel C root path C.Beside
          (do
            let items ← RenderM.arguments visit items none
            return arrayText (← MonadReader.read).settings array items)
          (do
            let items ← RenderM.arguments visit items none
            return arrayText (← MonadReader.read).settings array items) := by
        intro array harray
        refine hitems.bind fun xs ys hxs => read.map fun a b hab => ?_
        rw [hab.1, hab.2]
        exact C.array harray hxs
      split
      · exact harray _ (C.fixed _ (by decide))
      · refine (typeName hs he helement).bind ?_
        rintro name _ ⟨rfl, hname⟩
        exact harray _ (C.append (C.append hnew (C.head hname)) (C.fixed "[]" (by decide)))
  | _ => exact refuse _

/-! ### All nodes -/

theorem ungrouped {parent : Option Expr} {e : Expr} {x y : RenderM String}
    (h : Parallel C root path C.Beside x y) (he : ¬e.Grouped parent) :
    Parallel C root path (C.Texts parent e) x y :=
  h.weaken fun _ _ hab => ⟨hab, fun hgroup => absurd hgroup he⟩

/-- The texts of a node compare if those of the nodes below it do. -/
theorem render (hs : C.Suits root) {e : Expr} (he : e ∈ root.nodes)
    (hv : ∀ c ∈ e.shown, Parallel C root (e :: path) C.Beside (visit c) (visit c)) :
    Parallel C root (e :: path) (C.Texts path.head? e) (e.kind.renderer.render visit e)
      (e.kind.renderer.render visit e) := by
  have hplain := hs.plain e he
  have heven : C.Exact ∨ e.Even := hs.even.imp id fun h => h e he
  cases e with
  | constant => exact ungrouped (constant hs he) id
  | «variable» => exact ungrouped (variableName hs he) id
  | binary =>
    obtain ⟨hleft, hright⟩ := List.forall_mem_cons.mp hv
    exact binary heven hleft (hright _ List.mem_cons_self)
  | unary => exact unary hs he heven (hv _ List.mem_cons_self)
  | assign i =>
    obtain ⟨htarget, hvalue⟩ := List.forall_mem_cons.mp hv
    exact ungrouped (assign i htarget (hvalue _ List.mem_cons_self)) id
  | conditional => exact ungrouped (conditional hv) id
  | call => exact ungrouped (call hs he hv) id
  | invoke => exact ungrouped (call hs he hv) id
  | new => exact ungrouped (new hs he hv) id
  | newArray => exact ungrouped (new hs he hv) id
  | member => exact ungrouped (member hs he hv) id
  | index i _ _ ty => exact ungrouped (index i ty hv) id
  | lambda => exact ungrouped (lambda hs he hv) id
  | block => exact ungrouped (block hs he hv) id
  | loop => exact ungrouped (loop hv) id
  | «break» => exact ungrouped (loop hv) id
  | «continue» => exact ungrouped (loop hv) id
  | «return» => exact ungrouped (loop hv) id
  | default => exact ungrouped (default hs he) id
  | extension => exact absurd rfl hplain

end ExprText.Parallel
