import ExprText.Proofs.Formula.Basic

/-! # Precedence climbing

A reader that climbs precedences reads an operand and then the operators behind it, each with its right
operand, as long as they bind tightly enough. What it makes of them and what else it takes for an operand
is up to the reader. An operand of an operator that stands without the parentheses that `operandNeedsParens`
asks for is taken apart from the operators around it: none of its own is left to them, and none of them
is taken for its own. -/

namespace ExprText.Formula

/-! ### Operators -/

theorem ofSymbol?_symbol {op : BinaryOp} (h : op.isChecked = false) :
    BinaryOp.ofSymbol? op.symbol = some op := by
  cases op with
  | addChecked | subtractChecked | multiplyChecked => simp [BinaryOp.isChecked] at h
  | _ => decide

theorem unchecked_eq {op : BinaryOp} (h : op.isChecked = false) : op.unchecked = op := by
  cases op with
  | addChecked | subtractChecked | multiplyChecked => simp [BinaryOp.isChecked] at h
  | _ => rfl

theorem precedence_le_bindingRight (op : BinaryOp) : op.precedence ≤ bindingRight op := by
  unfold bindingRight
  split <;> omega

theorem bindingRight_le (op : BinaryOp) : bindingRight op ≤ op.precedence + 1 := by
  unfold bindingRight
  split <;> omega

/-! ### What follows a text -/

/-- No operator that binds at least as tightly as `least` stands first. -/
def Stops (least : Nat) (rest : List Token) : Prop :=
  ∀ s tail op, rest = .symbol s :: tail → BinaryOp.ofSymbol? s = some op → op.precedence < least

/-- What follows does not belong to the last operand of the outer operator, if there is one. -/
def Ends (outer : Option BinaryOp) (rest : List Token) : Prop :=
  ∀ op ∈ outer, Stops (bindingRight op) rest

/-- Whether the outer operator, if there is one, binds at least as tightly as `least`. -/
def Fits (least : Nat) (outer : Option BinaryOp) : Prop :=
  ∀ op ∈ outer, least ≤ op.precedence

section Following
variable {op : BinaryOp} {outer : Option BinaryOp} {least : Nat} {rest : List Token}

theorem stops_closing (least : Nat) (rest : List Token) : Stops least (.closing :: rest) := by
  intro s tail op h
  cases h

theorem stops_nil (least : Nat) : Stops least [] := by
  intro s tail op h
  cases h

theorem stops_symbol (hop : op.isChecked = false) (h : op.precedence < least) :
    Stops least (.symbol op.symbol :: rest) := by
  intro s tail op' hs hop'
  cases hs
  rw [ofSymbol?_symbol hop] at hop'
  cases hop'
  exact h

theorem stops_of_ofSymbol? {s : String} (h : BinaryOp.ofSymbol? s = none) (least : Nat) (rest : List Token) :
    Stops least (.symbol s :: rest) := by
  intro s' tail op hs hop
  cases hs
  rw [h] at hop
  cases hop

theorem Ends.of_stops (h : ∀ least, Stops least rest) (outer : Option BinaryOp) : Ends outer rest :=
  fun _ _ => h _

theorem fits_zero (outer : Option BinaryOp) : Fits 0 outer :=
  fun _ _ => Nat.zero_le _

end Following

/-! ### Operands without parentheses -/

/-- Whether the outer operator of an operand, if it has one, needs no parentheses beside `op`. -/
def Bare (op : BinaryOp) (side : BinaryOp.Side) (outer : Option BinaryOp) : Prop :=
  ∀ child ∈ outer, child.isChecked = false ∧ op.operandNeedsParens child side = false

section Bare
variable {op : BinaryOp} {side : BinaryOp.Side} {outer : Option BinaryOp} {least : Nat} {rest : List Token}

/-- An operand without parentheses binds more tightly than its operator, or it has the same operator
    and stands on the side to which that one associates. -/
theorem Bare.tighter_or_same (h : Bare op side outer) (hop : op.isChecked = false) :
    ∀ child ∈ outer, op.precedence < child.precedence ∨ child = op ∧ side = op.openSide := by
  intro child hmem
  obtain ⟨hchild, hparens⟩ := h child hmem
  unfold BinaryOp.operandNeedsParens at hparens
  split at hparens
  · rw [unchecked_eq hop, unchecked_eq hchild] at hparens
    simp only [Bool.not_eq_false', Bool.and_eq_true, beq_iff_eq] at hparens
    exact .inr ⟨hparens.1.symm, hparens.2⟩
  · simp only [decide_eq_false_iff_not] at hparens
    exact .inl (by omega)

theorem Bare.fits_right (h : Bare op .right outer) (hop : op.isChecked = false) : Fits (bindingRight op) outer := by
  intro child hchild
  rcases h.tighter_or_same hop child hchild with hlt | ⟨rfl, hside⟩
  · exact Nat.le_trans (bindingRight_le op) hlt
  · unfold BinaryOp.openSide at hside
    split at hside
    · simp [bindingRight, *]
    · cases hside

theorem Bare.ends_right (h : Bare op .right outer) (hop : op.isChecked = false)
    (hrest : Stops (bindingRight op) rest) : Ends outer rest := by
  intro child hchild s tail op' hs hop'
  have hlt := hrest s tail op' hs hop'
  rcases h.tighter_or_same hop child hchild with hlt' | ⟨rfl, -⟩
  · have h₁ := bindingRight_le op
    have h₂ := precedence_le_bindingRight child
    omega
  · exact hlt

theorem Bare.fits_left (h : Bare op .left outer) (hop : op.isChecked = false) (hle : least ≤ op.precedence) :
    Fits least outer := by
  intro child hchild
  rcases h.tighter_or_same hop child hchild with hlt | ⟨rfl, -⟩
  · omega
  · exact hle

theorem Bare.ends_left (h : Bare op .left outer) (hop : op.isChecked = false) :
    Ends outer (.symbol op.symbol :: rest) := by
  intro child hchild
  refine stops_symbol hop ?_
  rcases h.tighter_or_same hop child hchild with hlt | ⟨rfl, hside⟩
  · exact Nat.lt_of_lt_of_le hlt (precedence_le_bindingRight child)
  · unfold BinaryOp.openSide at hside
    split at hside
    · cases hside
    · simp [bindingRight, *]

end Bare

/-! ### Readers -/

/-- A reader that climbs precedences. It takes a word for an operand; reads an operand and goes on with the
    operators behind it; and takes an operator with its right operand if it binds at least as tightly as
    is asked for. -/
structure Climber (α : Type) where
  name : String → α
  binary : BinaryOp → α → α → α
  readOperand : Nat → List Token → Option (α × List Token)
  readBinary : Nat → Nat → List Token → Option (α × List Token)
  readOperators : Nat → Nat → α → List Token → Option (α × List Token)
  /-- How many calls read a token at most. -/
  cost : Nat
  two_le_cost : 2 ≤ cost
  readOperand_word : ∀ fuel w rest, readOperand (fuel + 1) (.word w :: rest) = some (name w, rest)
  readBinary_succ : ∀ fuel least tokens, readBinary (fuel + 1) least tokens =
    (readOperand fuel tokens).bind fun (left, rest) => readOperators fuel least left rest
  readOperators_symbol : ∀ fuel least left s rest, readOperators (fuel + 1) least left (.symbol s :: rest) =
    match BinaryOp.ofSymbol? s with
    | none => some (left, .symbol s :: rest)
    | some op =>
      if least ≤ op.precedence then
        (readBinary fuel (bindingRight op) rest).bind fun (right, rest) =>
          readOperators fuel least (binary op left right) rest
      else some (left, .symbol s :: rest)
  readOperators_other : ∀ fuel least left rest, (∀ s tail, rest ≠ .symbol s :: tail) →
    readOperators (fuel + 1) least left rest = some (left, rest)

namespace Climber
variable {α : Type} (R : Climber α)

/-- The tokens are read as one operand. -/
def OperandOf (a : α) (ts : List Token) : Prop :=
  ∀ fuel rest, R.cost * ts.length ≤ fuel → R.readOperand fuel (ts ++ rest) = some (a, rest)

/-- The tokens of a text with an outer operator, or none, are read as `a`, and the operators behind it go on
    from there. -/
def BinaryOf (outer : Option BinaryOp) (a : α) (ts : List Token) : Prop :=
  ∀ m least rest result, 1 ≤ m → Fits least outer → Ends outer rest →
    (∀ fuel, m ≤ fuel → R.readOperators fuel least a rest = some result) →
    ∀ fuel, m + R.cost * ts.length ≤ fuel → R.readBinary fuel least (ts ++ rest) = some result

/-- The tokens of an operand of `op` are read as `a`: as one operand, or by its own operators where it needs no
    parentheses. -/
inductive Beside (op : BinaryOp) (side : BinaryOp.Side) (a : α) (ts : List Token) : Prop
  | operand (pos : 0 < ts.length) (h : R.OperandOf a ts) : Beside op side a ts
  | bare {outer : Option BinaryOp} (bare : Bare op side outer) (h : R.BinaryOf outer a ts) : Beside op side a ts

variable {R} {op : BinaryOp} {outer : Option BinaryOp} {a left right : α} {ts rest : List Token} {m least fuel : Nat}
  {result : α × List Token}

theorem readOperators_stops (h : Stops least rest) (a : α) :
    ∀ fuel, 1 ≤ fuel → R.readOperators fuel least a rest = some (a, rest) := by
  intro fuel hfuel
  obtain ⟨fuel, rfl⟩ := Nat.exists_eq_add_of_le' hfuel
  match rest with
  | [] | .word _ :: _ | .opening :: _ | .closing :: _ =>
    exact R.readOperators_other _ _ _ _ fun s tail heq => by cases heq
  | .symbol s :: tail =>
    rw [readOperators_symbol]
    cases hop : BinaryOp.ofSymbol? s with
    | none => rfl
    | some op => exact if_neg (Nat.not_le.mpr (h s tail op rfl hop))

theorem operandOf_word (w : String) : R.OperandOf (R.name w) [.word w] := by
  intro fuel rest hfuel
  have := R.two_le_cost
  obtain ⟨fuel, rfl⟩ := Nat.exists_eq_add_of_le' (show 1 ≤ fuel by simp at hfuel; omega)
  exact R.readOperand_word fuel w rest

theorem OperandOf.readBinary (h : R.OperandOf a ts) (hm : 1 ≤ m) (hts : 0 < ts.length)
    (hrest : ∀ fuel, m ≤ fuel → R.readOperators fuel least a rest = some result)
    (hfuel : m + R.cost * ts.length ≤ fuel) : R.readBinary fuel least (ts ++ rest) = some result := by
  obtain ⟨fuel, rfl⟩ := Nat.exists_eq_add_of_le' (show 1 ≤ fuel by omega)
  have hcost : R.cost ≤ R.cost * ts.length := Nat.le_mul_of_pos_right _ hts
  have := R.two_le_cost
  rw [R.readBinary_succ, h fuel rest (by omega)]
  exact hrest fuel (by omega)

theorem OperandOf.binaryOf (h : R.OperandOf a ts) (hts : 0 < ts.length) (outer : Option BinaryOp) :
    R.BinaryOf outer a ts := by
  intro m least rest result hm _ _ hrest fuel hfuel
  exact h.readBinary hm hts hrest hfuel

/-- The right operand of an operator is read up to where the operator's own text ends. -/
theorem Beside.readBinary_right (h : R.Beside op .right a ts) (hop : op.isChecked = false)
    (hrest : Stops (bindingRight op) rest) (hfuel : 1 + R.cost * ts.length ≤ fuel) :
    R.readBinary fuel (bindingRight op) (ts ++ rest) = some (a, rest) := by
  have hstop := readOperators_stops (R := R) hrest a
  cases h with
  | operand hts hoperand => exact hoperand.readBinary (Nat.le_refl 1) hts hstop hfuel
  | bare hbare hbinary =>
    exact hbinary 1 _ rest _ (Nat.le_refl 1) (hbare.fits_right hop) (hbare.ends_right hop hrest) hstop fuel hfuel

/-- Behind its left operand the reader meets the operator. -/
theorem Beside.readBinary_left (h : R.Beside op .left a ts) (hop : op.isChecked = false) (hle : least ≤ op.precedence)
    (hm : 1 ≤ m)
    (hrest : ∀ fuel, m ≤ fuel → R.readOperators fuel least a (.symbol op.symbol :: rest) = some result)
    (hfuel : m + R.cost * ts.length ≤ fuel) :
    R.readBinary fuel least (ts ++ .symbol op.symbol :: rest) = some result := by
  cases h with
  | operand hts hoperand => exact hoperand.readBinary hm hts hrest hfuel
  | bare hbare hbinary =>
    exact hbinary m least _ result hm (hbare.fits_left hop hle) (hbare.ends_left hop) hrest fuel hfuel

theorem binaryOf_binary {ls rs : List Token} (hop : op.isChecked = false) (hleft : R.Beside op .left left ls)
    (hright : R.Beside op .right right rs) :
    R.BinaryOf (some op) (R.binary op left right) (ls ++ .symbol op.symbol :: rs) := by
  intro m least rest result hm hfits hends hcont fuel hfuel
  have hle : least ≤ op.precedence := hfits op rfl
  have hstops : Stops (bindingRight op) rest := hends op rfl
  have hcost := R.two_le_cost
  simp only [List.length_append, List.length_cons, Nat.mul_add, Nat.mul_one] at hfuel
  -- Behind the operator the reader takes the right operand and goes on.
  have hoperator : ∀ fuel, m + R.cost * rs.length + 2 ≤ fuel →
      R.readOperators fuel least left (.symbol op.symbol :: (rs ++ rest)) = some result := by
    intro fuel hfuel
    obtain ⟨fuel, rfl⟩ := Nat.exists_eq_add_of_le' (show 1 ≤ fuel by omega)
    simp only [R.readOperators_symbol, ofSymbol?_symbol hop]
    rw [if_pos hle, hright.readBinary_right hop hstops (by omega)]
    exact hcont fuel (by omega)
  rw [List.append_assoc, List.cons_append]
  exact hleft.readBinary_left hop hle (by omega) hoperator (by omega)

end Climber

end ExprText.Formula
