import ExprText.Proofs.Composed.Openings

/-! # Signs before operands

Whether an operand or a receiver is put in parentheses is decided by its kind. So one that starts with the sign of
a literal stands without them, however deep at its left end the literal is, and its sign merges with the one before
it. No other operand does. -/

namespace ExprText

open Text Render RenderM Session

/-! ### Signed nodes -/

/-- The sign before the operand of an operator, where the sign twice is another operator. -/
def UnaryOp.sign? : UnaryOp → Option Char
  | .negate | .negateChecked => some '-'
  | .unaryPlus => some '+'
  | _ => none

theorem floatSign?_eq {format : Decimal.Format} {bits : Nat} {c : Char} (h : floatSign? format bits = some c) :
    c = '-' := by
  unfold floatSign? at h
  split at h
  · exact (Option.some.inj h).symm
  · cases h

theorem Constant.mem_signs_of_sign? {value : Constant} {c : Char} (h : value.sign? = some c) : c ∈ signs := by
  have hminus : '-' ∈ signs := by decide
  cases value with
  | int | long =>
    rw [Constant.sign?, Option.ite_none_right_eq_some] at h
    obtain ⟨-, ⟨⟩⟩ := h
    exact hminus
  | float | double =>
    rw [floatSign?_eq h]
    exact hminus
  | decimal digits =>
    obtain ⟨-, hmem⟩ := Option.filter_eq_some_iff.mp h
    simpa using hmem
  | _ => cases h

namespace Expr

/-- Whether a node has the sign of a literal at its left end, or one that follows an operand that shows nothing. -/
inductive Signed (c : Char) : Expr → Prop
  | literal {e : Expr} (sign : e.sign? = some c) : Signed c e
  | front {e d : Expr} (front : e.front? = some d) (signed : Signed c d) : Signed c e
  | bare {e d : Expr} (front : e.front? = some d) (empty : d.isEmpty = true) (trailing : e.trailingSign? = some c) :
    Signed c e

section Signed
variable {c : Char} {e d : Expr}

theorem Signed.needsGrouping (h : e.Signed c) : needsGrouping e = false := by
  cases h with
  | literal hsign =>
    cases e with
    | constant => rfl
    | _ => cases hsign
  | front hfront | bare hfront => exact needsGrouping_of_front? hfront

theorem Signed.mem_signs (h : e.Signed c) : c ∈ signs := by
  induction h with
  | @literal e hsign =>
    cases e with
    | constant i value ty => exact Constant.mem_signs_of_sign? hsign
    | _ => cases hsign
  | front _ _ ih => exact ih
  | @bare e _ _ _ htrailing =>
    cases e with
    | unary i op operand ty => cases op <;> cases htrailing <;> decide
    | _ => cases htrailing

theorem signed_iff_of_front?_eq_none (h : e.front? = none) : e.Signed c ↔ e.sign? = some c := by
  refine ⟨fun hsigned => ?_, .literal⟩
  cases hsigned with
  | literal hsign => exact hsign
  | front hfront | bare hfront =>
    rw [h] at hfront
    cases hfront

theorem signed_iff_of_front? (h : e.front? = some d) :
    e.Signed c ↔ d.Signed c ∨ d.isEmpty = true ∧ e.trailingSign? = some c := by
  constructor
  · intro hsigned
    cases hsigned with
    | literal hsign =>
      rw [sign?_of_front? h] at hsign
      cases hsign
    | front hfront hd =>
      obtain rfl := Option.some.inj (hfront.symm.trans h)
      exact .inl hd
    | bare hfront hempty htrailing =>
      obtain rfl := Option.some.inj (hfront.symm.trans h)
      exact .inr ⟨hempty, htrailing⟩
  · rintro (hd | ⟨hempty, htrailing⟩)
    · exact .front h hd
    · exact .bare h hempty htrailing

theorem not_signed_of_isEmpty (h : e.isEmpty = true) : ¬e.Signed c := by
  cases e with
  | default =>
    rw [signed_iff_of_front?_eq_none rfl]
    rintro ⟨⟩
  | _ => cases h

theorem needsGrouping_of_isEmpty (h : e.isEmpty = true) : needsGrouping e = false := by
  cases e with
  | default => rfl
  | _ => cases h

end Signed

/-- What the start of the text of a node tells of the node. -/
structure Starts (e : Expr) (text : String) : Prop where
  empty : text = "" ↔ e.isEmpty = true
  sign : ∀ c ∈ signs, text.toList.head? = some c ↔ e.Signed c
  grouped : text.toList.head? = some '(' → StartsGrouped text

end Expr

/-! ### Left ends -/

theorem doubled_prefix_iff {c : Char} {text : String} :
    [c, c] <+: (String.singleton c ++ text).toList ↔ text.toList.head? = some c := by
  cases htext : text.toList with
  | nil => simp [htext]
  | cons d ds => simp [htext, eq_comm]

section Ends
variable {root e d : Expr} {settings : Settings} {qualified : Bool} {s : Session} {path : List Expr}
  {text : String}

theorem ne_paren_of_mem_signs {c : Char} (h : c ∈ signs) : c ≠ '(' := by
  rintro rfl
  exact absurd h (by decide)

/-- A node that starts by itself. -/
theorem Session.Opens.starts (h : s.Opens path e text) (hfront : e.front? = none) (hempty : e.isEmpty = false) :
    e.Starts text := by
  have hsigned : ∀ c, e.Signed c ↔ e.sign? = some c := fun c => Expr.signed_iff_of_front?_eq_none hfront
  have hshown : text ≠ "" → (text = "" ↔ e.isEmpty = true) := fun hne => iff_of_false hne (by simp [hempty])
  cases h with
  | plain _ hunsigned hstart =>
    refine ⟨hshown hstart.ne_empty, fun c hc => ?_, fun hparen => ?_⟩
    · rw [hsigned, hunsigned]
      exact iff_of_false (hstart.head?_ne (List.mem_cons_of_mem _ hc)) (by simp)
    · exact absurd hparen (hstart.head?_ne List.mem_cons_self)
  | signed _ hsign hmem hhead =>
    refine ⟨hshown ?_, fun c _ => by rw [hsigned, hhead, hsign], fun hparen => ?_⟩
    · rintro rfl
      cases hhead
    · rw [hhead] at hparen
      cases hparen
      exact absurd hmem (by decide)
  | @grouped inner _ hunsigned hbalanced =>
    have hhead : ("(" ++ inner ++ ")").toList.head? = some '(' := by simp
    refine ⟨hshown (fun hnil => by simp [hnil] at hhead), fun c hc => ?_, fun _ => ?_⟩
    · rw [hsigned, hunsigned, hhead]
      exact iff_of_false (fun heq => ne_paren_of_mem_signs hc (Option.some.inj heq).symm) (by simp)
    · exact ⟨inner, "", hbalanced, .inl rfl, String.append_empty.symm⟩
  | after hsome =>
    rw [hfront] at hsome
    cases hsome

/-- A node in parentheses starts with nothing else. -/
theorem starts_receiverAt (hbalanced : Balanced (s.textAt path e))
    (hstarts : needsGrouping e = false → e.Starts (s.textAt path e)) : e.Starts (s.receiverAt path e) := by
  unfold Session.receiverAt
  cases hgroup : needsGrouping e with
  | false => exact hstarts hgroup
  | true =>
    obtain ⟨inner, hinner, hparens⟩ := hbalanced.exists_withParens
    have hhead : ("(" ++ inner ++ ")").toList.head? = some '(' := by simp
    have hshown : e.isEmpty ≠ true := fun hempty => by
      rw [Expr.needsGrouping_of_isEmpty hempty] at hgroup
      cases hgroup
    rw [if_pos rfl, hparens]
    refine ⟨iff_of_false (fun hnil => by simp [hnil] at hhead) hshown, fun c hc => ?_, fun _ => ?_⟩
    · rw [hhead]
      refine iff_of_false (fun heq => ne_paren_of_mem_signs hc (Option.some.inj heq).symm) fun hsigned => ?_
      rw [hsigned.needsGrouping] at hgroup
      cases hgroup
    · exact ⟨inner, "", hinner, .inl rfl, String.append_empty.symm⟩

/-- A node that starts with another one starts as that one does. -/
theorem Session.Opens.starts_after (h : s.Opens path e text) (hfront : e.front? = some d)
    (hempty : e.isEmpty = false) (hstarts : d.Starts (s.receiverAt (e :: path) d)) : e.Starts text := by
  obtain ⟨rest, hcontinues, hne, htrailing, rfl⟩ := h.exists_after hfront
  obtain ⟨hblank, hsign, hgrouped⟩ := hstarts
  have hparen : e.trailingSign? ≠ some '(' := by
    cases e with
    | unary i op operand ty => cases op <;> rintro ⟨⟩
    | _ => rintro ⟨⟩
  by_cases hd : d.isEmpty = true
  · rw [hblank.mpr hd, String.empty_append]
    refine ⟨iff_of_false hne (by simp [hempty]), fun c hc => ?_, fun hhead => ?_⟩
    · rw [htrailing c (List.mem_cons_of_mem _ hc), Expr.signed_iff_of_front? hfront]
      simp [hd, Expr.not_signed_of_isEmpty hd]
    · exact absurd ((htrailing '(' List.mem_cons_self).mp hhead) hparen
  · have hhead := head?_append (fun hnil => hd (hblank.mp hnil)) rest
    refine ⟨iff_of_false (append_ne_empty (.inr hne)) (by simp [hempty]), fun c hc => ?_, fun hopen => ?_⟩
    · rw [hhead, hsign c hc, Expr.signed_iff_of_front? hfront]
      simp [hd]
    · exact (hgrouped (hhead ▸ hopen)).append hcontinues

/-- A value starts with a sign exactly if it is signed, and with parentheses only if they are no conversion. The
    induction follows the nodes at the left end. -/
theorem Session.WellWorded.starts (h : s.WellWorded root settings qualified) (he : root.Reaches path e)
    (hvalue : Position.under e path.head? = .value) : e.Starts (s.receiverAt path e) := by
  induction hheight : e.height using Nat.strong_induction_on generalizing path e with
  | _ height ih =>
    subst hheight
    refine starts_receiverAt (h.balanced_textAt he) fun hgroup => ?_
    cases hempty : e.isEmpty with
    | true =>
      rw [h.textAt_of_isEmpty he hempty]
      refine ⟨by simp [hempty], fun c _ => ?_, fun hparen => by cases hparen⟩
      exact iff_of_false (by simp) (Expr.not_signed_of_isEmpty hempty)
    | false =>
      have hopens := h.opens he hvalue hgroup hempty
      cases hfront : e.front? with
      | none => exact hopens.starts hfront hempty
      | some d =>
        have hmem := Expr.mem_shown_of_front? hfront
        refine hopens.starts_after hfront hempty ?_
        exact ih _ (Expr.height_lt_of_mem_shown hmem) (.step he hmem) (Expr.under_of_front? hfront) rfl

end Ends

/-! ### Operands and receivers -/

section Operands
variable {root e d : Expr} {settings : Settings} {qualified : Bool} {s : Session} {path : List Expr}

theorem unaryText_of_sign? (env : Env) {op : UnaryOp} {c : Char} (h : op.sign? = some c) (operandTy ty : Ty)
    (value : String) : unaryText env op operandTy ty value = String.singleton c ++ value := by
  cases op <;> cases h <;> rfl

/-- A sign and its operand. -/
theorem Session.Composes.signed_eq {env : Env} {known : List Nat} {text : String} {i : Nat} {op : UnaryOp}
    {operand : Expr} {ty : Ty} {c : Char} (h : s.Composes env path known (.unary i op operand ty) text)
    (hsign : op.sign? = some c) (hbalanced : Balanced (s.textAt (.unary i op operand ty :: path) operand)) :
    text = String.singleton c ++ s.receiverAt (.unary i op operand ty :: path) operand := by
  have hplain : carriesChecked path.head? (.unary i op operand ty) = false := by
    cases op <;> first | rfl | cases hsign
  rw [h.unary_eq_wrapped, hplain, if_neg Bool.false_ne_true, id, unaryText_of_sign? env hsign,
    groupedText_eq _ hbalanced, Session.receiverAt]

/-- What starts with a prefix operator is put in parentheses, unless it is signed. -/
theorem Session.WellWorded.receiverAt_eq (h : s.WellWorded root settings qualified) (he : root.Reaches path e)
    (hvalue : Position.under e path.head? = .value) (hprefixed : StartsPrefixed (s.textAt path e))
    (hunsigned : ∀ c, ¬e.Signed c) : s.receiverAt path e = "(" ++ s.textAt path e ++ ")" := by
  have hstarts := h.starts he hvalue
  unfold Session.receiverAt at hstarts ⊢
  cases hgroup : needsGrouping e with
  | true => rw [if_pos rfl, hprefixed.withParens_eq]
  | false =>
    rw [hgroup, if_neg Bool.false_ne_true] at hstarts
    rcases hprefixed with ⟨c, hc, hhead⟩ | hcast
    · exact absurd ((hstarts.sign c hc).mp hhead) (hunsigned c)
    · exact absurd hcast (hstarts.grouped hcast.head?_eq).not_startsCast

end Operands

/-- A sign merges with its operand exactly if the operand has the same sign at its left end. A receiver that starts
    with a prefix operator is put in parentheses, unless it has a sign at its left end: then it stands before the
    dot, the index or the call as it is. -/
theorem sign_merges_iff_signed (root : Expr) (htree : root.IsTree) (hext : ∀ e ∈ root.nodes, e.kind ≠ .extension)
    (hworded : ∀ e ∈ root.nodes, e.Worded) (settings : Settings) (qualified : Bool) (text : String) (s : Session)
    (hrun : (RenderM.textOf root).runOn { settings, qualified } (.start root) = (.ok text, s)) :
    (∀ path i op operand ty c, root.Reaches path (.unary i op operand ty) → op.sign? = some c →
      ∃ given, s.memo.lookup ((Expr.unary i op operand ty).place path) = some given ∧
        ([c, c] <+: given.toList ↔ operand.Signed c)) ∧
    ∀ path e d, root.Reaches path e → e.readFrom? = some d →
      ∃ given rest, s.memo.lookup (d.place (e :: path)) = some given ∧ Continues rest ∧
        (StartsPrefixed given → (∀ c, ¬d.Signed c) →
          s.memo.lookup (e.place path) = some ("(" ++ given ++ ")" ++ rest)) ∧
        ∀ c, d.Signed c → given.toList.head? = some c ∧ s.memo.lookup (e.place path) = some (given ++ rest) := by
  have h := wellWorded_textOf htree hext hworded hrun
  constructor
  · intro path i op operand ty c he hsign
    obtain ⟨known, hcomposes⟩ := h.composes he
    have hoperand : root.Reaches (.unary i op operand ty :: path) operand := .step he List.mem_cons_self
    have hc : c ∈ signs := by
      cases op <;> cases hsign <;> decide
    refine ⟨_, h.given path _ he, ?_⟩
    rw [hcomposes.signed_eq hsign (h.balanced_textAt hoperand), doubled_prefix_iff]
    exact (h.starts hoperand rfl).sign c hc
  · intro path e d he hfront
    have hd := Expr.Reaches.step he (Expr.mem_shown_of_front? (Expr.front?_of_readFrom? hfront))
    have hvalue := Expr.under_of_front? (Expr.front?_of_readFrom? hfront)
    obtain ⟨rest, hcontinues, -, -, htext⟩ :=
      (h.opens_of_readFrom? he hfront).exists_after (Expr.front?_of_readFrom? hfront)
    rw [h.given path e he, htext]
    refine ⟨_, rest, h.given _ d hd, hcontinues, fun hprefixed hunsigned => ?_, fun c hsigned => ?_⟩
    · rw [h.receiverAt_eq hd hvalue hprefixed hunsigned]
    · have hplain : s.receiverAt (e :: path) d = s.textAt (e :: path) d := by
        rw [Session.receiverAt, hsigned.needsGrouping, if_neg Bool.false_ne_true]
      have hhead := ((h.starts hd hvalue).sign c hsigned.mem_signs).mpr hsigned
      exact ⟨hplain ▸ hhead, by rw [hplain]⟩

section Examples

private def negatedName : Expr :=
  .unary 2 .negate (.variable 3 ⟨0, some "x", .int⟩) .int

/-- A member that is read from a negation. -/
private def sizeOfNegated : Expr :=
  .member 1 (some negatedName) { name := "Size", declaringType := .int, ty := .int }

private def negatedSize : Expr :=
  .unary 0 .negate sizeOfNegated .int

/-- What is remembered after the negation of the member was shown. -/
private def shownSize : Session :=
  ((RenderM.textOf negatedSize).runOn {} (.start negatedSize)).2

private theorem not_signed_negatedName (c : Char) : ¬negatedName.Signed c := by
  rw [Expr.signed_iff_of_front?_eq_none rfl]
  rintro ⟨⟩

private theorem not_signed_sizeOfNegated (c : Char) : ¬sizeOfNegated.Signed c := by
  rw [Expr.signed_iff_of_front? (d := negatedName) rfl]
  rintro (hsigned | ⟨⟨⟩, -⟩)
  exact not_signed_negatedName c hsigned

theorem sign_merges_iff_signed_size :
    negatedSize.IsTree ∧ (∀ e ∈ negatedSize.nodes, e.kind ≠ .extension) ∧
    (∀ e ∈ negatedSize.nodes, e.Worded) ∧
    ∃ text s, (RenderM.textOf negatedSize).runOn {} (.start negatedSize) = (.ok text, s) ∧
      (∃ given, s.memo.lookup (negatedSize.place []) = some given ∧ ¬['-', '-'] <+: given.toList) ∧
      ∃ rest, s.memo.lookup (sizeOfNegated.place [negatedSize]) = some ("(-x)" ++ rest) := by
  have htree : negatedSize.IsTree := by decide +kernel
  have hext : ∀ e ∈ negatedSize.nodes, e.kind ≠ .extension := by decide +kernel
  have hworded : ∀ e ∈ negatedSize.nodes, e.Worded := by decide +kernel
  have hsize : negatedSize.Reaches [negatedSize] sizeOfNegated := .step .root List.mem_cons_self
  have hok : ((RenderM.textOf negatedSize).runOn {} (.start negatedSize)).1.toOption.isSome = true := by
    decide +kernel
  have hname : shownSize.memo.lookup (negatedName.place [sizeOfNegated, negatedSize]) = some "-x" := by
    decide +kernel
  rcases hrun : (RenderM.textOf negatedSize).runOn {} (.start negatedSize) with ⟨fault | text, s⟩
  · rw [hrun] at hok
    cases hok
  · rw [show shownSize = s by rw [shownSize, hrun]] at hname
    obtain ⟨hsigns, hreceivers⟩ := sign_merges_iff_signed negatedSize htree hext hworded {} false text s hrun
    obtain ⟨given, hgiven, hmerges⟩ := hsigns [] 0 .negate sizeOfNegated .int '-' .root rfl
    obtain ⟨inner, rest, hinner, -, hparens, -⟩ := hreceivers [negatedSize] sizeOfNegated negatedName hsize rfl
    obtain rfl : inner = "-x" := Option.some.inj (hinner.symm.trans hname)
    have hprefixed : StartsPrefixed "-x" := .inl ⟨'-', by decide, rfl⟩
    refine ⟨htree, hext, hworded, text, s, rfl, ⟨given, hgiven, ?_⟩, rest, ?_⟩
    · rw [hmerges]
      exact not_signed_sizeOfNegated '-'
    · exact hparens hprefixed not_signed_negatedName

/-- A negation and a call of a literal with a sign. -/
private def negatedLiteral : Expr :=
  .unary 0 .negate (.constant 1 (.int (-1)) .int) .int

private def callOnLiteral : Expr :=
  .call 0 (some (.constant 1 (.int (-1)) .int)) (Method.new .onInstance .int "F") []

/-- The sign of a literal merges with the one before it, and a literal with a sign stands before a dot as it is. -/
theorem literal_sign_merges :
    (∀ root ∈ [negatedLiteral, callOnLiteral], root.IsTree ∧
      ∀ e ∈ root.nodes, e.kind ≠ .extension ∧ e.Worded) ∧
    negatedLiteral.render {} = .ok "--1" ∧ callOnLiteral.render {} = .ok "-1.F()" := by
  refine ⟨?_, ?_, ?_⟩ <;> decide +kernel

end Examples

end ExprText
