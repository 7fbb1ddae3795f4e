import ExprText.Proofs.Formula.Climbing

/-! # Reading written formulas

A formula is written with just the parentheses that its operators ask for: around an operand of a sign
that is no name, and around an operand of an operator that `operandNeedsParens` says. The reader takes
such a text apart into the same formula. The reading of a formula is stated with what follows it: the
operators behind a formula go on from it as its own operators left off, as long as none of them binds
tightly enough to belong to its last operand. -/

namespace ExprText.Formula

/-! ### Written formulas -/

def isName : Formula → Bool
  | name _ => true
  | _ => false

def isBinary : Formula → Bool
  | binary .. => true
  | _ => false

/-- The operator of a formula that is a binary one. -/
def operator? : Formula → Option BinaryOp
  | binary op _ _ => some op
  | _ => none

/-- Whether an operand of `parent` stands in parentheses. -/
def needsParens (parent : BinaryOp) (side : BinaryOp.Side) : Formula → Bool
  | binary child _ _ => parent.operandNeedsParens child side
  | _ => false

def enclosedIf (b : Bool) (text : String) : String :=
  if b then "(" ++ text ++ ")" else text

/-- A formula as it is written where nothing asks for parentheses around it. -/
def text : Formula → String
  | name n => n
  | signed sign f => sign.symbol ++ enclosedIf (!f.isName) f.text
  | binary op left right =>
    enclosedIf (needsParens op .left left) left.text ++ " " ++ op.symbol ++ " " ++
      enclosedIf (needsParens op .right right) right.text

def groupedIf (b : Bool) (tokens : List Token) : List Token :=
  if b then .opening :: (tokens ++ [.closing]) else tokens

def tokens : Formula → List Token
  | name n => [.word n]
  | signed sign f => .symbol sign.symbol :: groupedIf (!f.isName) f.tokens
  | binary op left right =>
    groupedIf (needsParens op .left left) left.tokens ++
      .symbol op.symbol :: groupedIf (needsParens op .right right) right.tokens

/-- Every name is a word, and no operator checks for overflow. -/
def Plain : Formula → Prop
  | name n => isWord n
  | signed _ f => f.Plain
  | binary op left right => op.isChecked = false ∧ left.Plain ∧ right.Plain

theorem tokens_length_pos (f : Formula) : 0 < f.tokens.length := by
  cases f <;> simp only [tokens, List.length_cons, List.length_append, List.length_nil] <;> omega

theorem length_groupedIf_pos (b : Bool) {ts : List Token} (h : 0 < ts.length) : 0 < (groupedIf b ts).length := by
  cases b <;> simp [groupedIf, h]

theorem ofSymbol?_symbol_sign (sign : Sign) : Sign.ofSymbol? sign.symbol = some sign := by
  cases sign <;> decide

/-! ### The reader -/

/-- Formulas are read by climbing precedences. -/
def climber : Climber Formula where
  name := name
  binary := binary
  readOperand := readOperand
  readBinary := readFormula
  readOperators := readOperators
  cost := 2
  two_le_cost := Nat.le_refl 2
  readOperand_word fuel w rest := by rw [readOperand]
  readBinary_succ fuel least tokens := by rw [readFormula]; rfl
  readOperators_symbol fuel least left s rest := by rw [readOperators]; rfl
  readOperators_other fuel least left rest hrest := by
    cases rest with
    | nil => simp [readOperators]
    | cons token tail =>
      cases token with
      | symbol s => exact absurd rfl (hrest s tail)
      | _ => simp [readOperators]

/-- In parentheses a formula is an operand, and nothing behind it goes on inside it. -/
theorem operandOf_grouped {f : Formula} {ts : List Token} (h : climber.BinaryOf f.operator? f ts) :
    climber.OperandOf f (groupedIf true ts) := by
  intro fuel rest hfuel
  have hfuel : 2 * (groupedIf true ts).length ≤ fuel := hfuel
  simp only [groupedIf, if_true, List.length_cons, List.length_append, List.length_nil] at hfuel ⊢
  obtain ⟨fuel, rfl⟩ := Nat.exists_eq_add_of_le' (show 1 ≤ fuel by omega)
  have hread : readFormula fuel 0 (ts ++ .closing :: rest) = some (f, .closing :: rest) :=
    h 1 0 (.closing :: rest) _ (Nat.le_refl 1) (fits_zero _) (.of_stops (fun _ => stops_closing _ _) _)
      (Climber.readOperators_stops (stops_closing 0 rest) f) fuel (show 1 + 2 * ts.length ≤ fuel by omega)
  show readOperand (fuel + 1) (.opening :: (ts ++ [.closing]) ++ rest) = _
  rw [List.cons_append, List.append_assoc, List.singleton_append, readOperand, hread]

theorem operandOf_sign {f : Formula} (h : climber.BinaryOf f.operator? f f.tokens) :
    climber.OperandOf f (groupedIf (!f.isName) f.tokens) := by
  cases f with
  | name n => exact Climber.operandOf_word n
  | signed | binary => exact operandOf_grouped h

theorem operandOf_signed {f : Formula} {ts : List Token} (sign : Sign) (h : climber.OperandOf f ts) :
    climber.OperandOf (signed sign f) (.symbol sign.symbol :: ts) := by
  intro fuel rest hfuel
  have hfuel : 2 * (Token.symbol sign.symbol :: ts).length ≤ fuel := hfuel
  simp only [List.length_cons] at hfuel
  obtain ⟨fuel, rfl⟩ := Nat.exists_eq_add_of_le' (show 1 ≤ fuel by omega)
  have hread : readOperand fuel (ts ++ rest) = some (f, rest) := h fuel rest (show 2 * ts.length ≤ fuel by omega)
  show readOperand (fuel + 1) (.symbol sign.symbol :: (ts ++ rest)) = _
  rw [readOperand, ofSymbol?_symbol_sign, hread]
  rfl

/-! ### Every written formula is read -/

/-- An operand has the parentheses that its operator asks for. -/
theorem beside_groupedIf {op : BinaryOp} {f : Formula} (side : BinaryOp.Side) (hp : f.Plain)
    (h : climber.BinaryOf f.operator? f f.tokens) :
    climber.Beside op side f (groupedIf (needsParens op side f) f.tokens) := by
  cases hparens : needsParens op side f with
  | true => exact .operand (length_groupedIf_pos true f.tokens_length_pos) (operandOf_grouped h)
  | false =>
    refine .bare (fun child hchild => ?_) h
    cases f with
    | name | signed => cases hchild
    | binary =>
      cases hchild
      exact ⟨hp.1, hparens⟩

theorem binaryOf_tokens : ∀ f : Formula, f.Plain → climber.BinaryOf f.operator? f f.tokens
  | name n, _ => (Climber.operandOf_word n).binaryOf (name n).tokens_length_pos _
  | signed sign f, hp =>
    (operandOf_signed sign (operandOf_sign (binaryOf_tokens f hp))).binaryOf (signed sign f).tokens_length_pos _
  | binary _ left right, ⟨hop, hl, hr⟩ =>
    Climber.binaryOf_binary hop (beside_groupedIf .left hl (binaryOf_tokens left hl))
      (beside_groupedIf .right hr (binaryOf_tokens right hr))

/-! ### Texts and tokens -/

section Tokens
variable {c : Char} {cs : List Char}

/-- A word or symbol of the class `p` ends before `cs`. -/
def EndsBefore (p : Char → Bool) (cs : List Char) : Prop :=
  ∀ c ∈ cs.head?, p c = false

theorem takeWhile_run {p : Char → Bool} {run : List Char} (hrun : ∀ c ∈ run, p c = true)
    (hcs : EndsBefore p cs) : (run ++ cs).takeWhile p = run := by
  rw [List.takeWhile_append_of_pos hrun]
  cases cs with
  | nil => simp
  | cons c cs => simp [hcs c rfl]

theorem dropWhile_run {p : Char → Bool} {run : List Char} (hrun : ∀ c ∈ run, p c = true)
    (hcs : EndsBefore p cs) : (run ++ cs).dropWhile p = cs := by
  rw [List.dropWhile_append_of_pos hrun]
  cases cs with
  | nil => simp
  | cons c cs => simp [hcs c rfl]

theorem tokenize_blank : tokenize (' ' :: cs) = tokenize cs := by
  simp [tokenize]

theorem tokenize_opening : tokenize ('(' :: cs) = (tokenize cs).map (.opening :: ·) := by
  simp [tokenize]

theorem tokenize_closing : tokenize (')' :: cs) = (tokenize cs).map (.closing :: ·) := by
  simp [tokenize]

theorem isWordChar_ne {d : Char} (h : isWordChar c = true) (hd : isWordChar d = false) : c ≠ d := by
  rintro rfl
  rw [hd] at h
  cases h

theorem isSymbolChar_ne {d : Char} (h : isSymbolChar c = true) (hd : isSymbolChar d = false) : c ≠ d := by
  rintro rfl
  rw [hd] at h
  cases h

theorem isWordChar_of_isSymbolChar (h : isSymbolChar c = true) : isWordChar c = false := by
  simp only [isSymbolChar, List.contains_iff_mem, List.mem_cons, List.not_mem_nil, or_false] at h
  rcases h with rfl | rfl | rfl | rfl | rfl | rfl | rfl | rfl | rfl | rfl | rfl | rfl | rfl | rfl <;> decide

theorem tokenize_word {n : String} (hn : isWord n = true) (hcs : EndsBefore isWordChar cs) :
    tokenize (n.toList ++ cs) = (tokenize cs).map (.word n :: ·) := by
  simp only [isWord, Bool.and_eq_true, Bool.not_eq_true', List.all_eq_true] at hn
  obtain ⟨hne, hall⟩ := hn
  cases hl : n.toList with
  | nil => simp [String.toList_eq_nil_iff.mp hl] at hne
  | cons d ds =>
    rw [hl] at hall
    have hd : isWordChar d = true := hall d List.mem_cons_self
    have hds : ∀ c ∈ ds, isWordChar c = true := fun c hc => hall c (List.mem_cons_of_mem _ hc)
    have hn : n = String.ofList (d :: ds) := by rw [← hl, String.ofList_toList]
    rw [List.cons_append, tokenize, if_neg (isWordChar_ne hd (by decide)),
      if_neg (isWordChar_ne hd (by decide)), if_neg (isWordChar_ne hd (by decide)), if_pos hd,
      takeWhile_run hds hcs, dropWhile_run hds hcs, hn]

theorem tokenize_symbol {s : String} (hs : s.toList ≠ []) (hall : ∀ c ∈ s.toList, isSymbolChar c = true)
    (hcs : EndsBefore isSymbolChar cs) :
    tokenize (s.toList ++ cs) = (tokenize cs).map (.symbol s :: ·) := by
  cases hl : s.toList with
  | nil => exact absurd hl hs
  | cons d ds =>
    rw [hl] at hall
    have hd : isSymbolChar d = true := hall d List.mem_cons_self
    have hds : ∀ c ∈ ds, isSymbolChar c = true := fun c hc => hall c (List.mem_cons_of_mem _ hc)
    have hn : s = String.ofList (d :: ds) := by rw [← hl, String.ofList_toList]
    rw [List.cons_append, tokenize, if_neg (isSymbolChar_ne hd (by decide)),
      if_neg (isSymbolChar_ne hd (by decide)), if_neg (isSymbolChar_ne hd (by decide)),
      if_neg (by rw [isWordChar_of_isSymbolChar hd]; decide), if_pos hd,
      takeWhile_run hds hcs, dropWhile_run hds hcs, hn]

end Tokens

/-- A text is cut into the given tokens wherever no word goes on behind it. -/
def CutsInto (text : String) (ts : List Token) : Prop :=
  ∀ cs, EndsBefore isWordChar cs → tokenize (text.toList ++ cs) = (tokenize cs).map (ts ++ ·)

theorem endsBefore_cons {p : Char → Bool} {c : Char} {cs : List Char} (h : p c = false) :
    EndsBefore p (c :: cs) := by
  intro d hd
  cases hd
  exact h

theorem CutsInto.enclosedIf {text : String} {ts : List Token} (h : CutsInto text ts) (b : Bool) :
    CutsInto (enclosedIf b text) (groupedIf b ts) := by
  cases b with
  | false => exact h
  | true =>
    intro cs _
    have hinner := h (')' :: cs) (endsBefore_cons (by decide))
    simp only [Formula.enclosedIf, groupedIf, if_true, String.toList_append, List.append_assoc]
    rw [show "(".toList = ['('] from rfl, show ")".toList = [')'] from rfl, List.singleton_append,
      List.singleton_append, tokenize_opening, hinner, tokenize_closing]
    simp [Option.map_map, Function.comp_def]

theorem symbol_chars (op : BinaryOp) :
    op.symbol.toList ≠ [] ∧ ∀ c ∈ op.symbol.toList, isSymbolChar c = true := by
  rw [← List.all_eq_true]
  cases op <;> exact ⟨List.cons_ne_nil _ _, rfl⟩

theorem sign_chars (sign : Sign) :
    sign.symbol.toList ≠ [] ∧ ∀ c ∈ sign.symbol.toList, isSymbolChar c = true := by
  rw [← List.all_eq_true]
  cases sign <;> exact ⟨List.cons_ne_nil _ _, rfl⟩

/-- The operand behind a sign starts with a letter or a parenthesis. -/
theorem endsBefore_operand {f : Formula} (hp : f.Plain) (cs : List Char) :
    EndsBefore isSymbolChar ((enclosedIf (!f.isName) f.text).toList ++ cs) := by
  cases f with
  | signed | binary =>
    have hparen : isSymbolChar '(' = false := by decide
    simp only [isName, enclosedIf, Bool.not_false, if_true, String.toList_append, List.append_assoc]
    exact endsBefore_cons hparen
  | name n =>
    have hn : isWord n = true := hp
    simp only [isWord, Bool.and_eq_true, Bool.not_eq_true', List.all_eq_true] at hn
    obtain ⟨hne, hall⟩ := hn
    show EndsBefore isSymbolChar (n.toList ++ cs)
    cases hl : n.toList with
    | nil => simp [String.toList_eq_nil_iff.mp hl] at hne
    | cons d ds =>
      refine endsBefore_cons ?_
      cases hd : isSymbolChar d with
      | false => rfl
      | true =>
        have := hall d (hl ▸ List.mem_cons_self)
        rw [isWordChar_of_isSymbolChar hd] at this
        cases this

theorem cutsInto_text : ∀ f : Formula, f.Plain → CutsInto f.text f.tokens
  | name n, hp => fun cs hcs => tokenize_word hp hcs
  | signed sign f, hp => by
    intro cs hcs
    have hoperand := (cutsInto_text f hp).enclosedIf (!f.isName) cs hcs
    simp only [text, tokens, String.toList_append, List.append_assoc]
    rw [tokenize_symbol (sign_chars sign).1 (sign_chars sign).2
      (endsBefore_operand (f := f) hp cs), hoperand]
    simp [Option.map_map, Function.comp_def]
  | binary op left right, ⟨_, hl, hr⟩ => by
    intro cs hcs
    have hright := (cutsInto_text right hr).enclosedIf (needsParens op .right right) cs hcs
    have hleft := (cutsInto_text left hl).enclosedIf (needsParens op .left left)
    simp only [text, tokens, String.toList_append, List.append_assoc]
    rw [show " ".toList = [' '] from rfl, List.singleton_append, List.singleton_append,
      hleft _ (endsBefore_cons (by decide)), tokenize_blank,
      tokenize_symbol (symbol_chars op).1 (symbol_chars op).2 (endsBefore_cons (by decide)),
      tokenize_blank, hright]
    simp [Option.map_map, Function.comp_def]

/-- The text of a formula in which parentheses may enclose the whole is read as the formula. -/
theorem read_enclosedIf {f : Formula} (hp : f.Plain) (b : Bool) : read (enclosedIf b f.text) = some f := by
  have hcut := (cutsInto_text f hp).enclosedIf b [] (by intro c hc; cases hc)
  simp only [List.append_nil, tokenize, Option.map_some] at hcut
  have hformula := binaryOf_tokens f hp
  have hbinary : climber.BinaryOf f.operator? f (groupedIf b f.tokens) := by
    cases b with
    | true => exact (operandOf_grouped hformula).binaryOf (length_groupedIf_pos true f.tokens_length_pos) _
    | false => exact hformula
  have hread : readFormula (2 * (groupedIf b f.tokens).length + 1) 0 (groupedIf b f.tokens ++ []) = some (f, []) :=
    hbinary 1 0 [] _ (Nat.le_refl 1) (fits_zero _) (.of_stops stops_nil _)
      (Climber.readOperators_stops (stops_nil 0) f) _ (Nat.le_of_eq (Nat.add_comm _ _))
  rw [List.append_nil] at hread
  simp only [read, hcut, Option.bind_eq_bind, Option.bind_some, hread]

end ExprText.Formula
