import ExprText.Proofs.Choice.Basic
import ExprText.Proofs.Formula.Reading

/-! # Reading written choices

A choice is written with the parentheses that its operators ask for, and with parentheses around a
test that is a binary operator; nothing encloses a test that is itself a conditional operator. The
reader takes what such a test ends in, its second branch, for the test of the operator behind it, so
the choice that is read is the written one regrouped: `regroup` moves every operator behind a test
down into that branch. -/

namespace ExprText.Choice

open Formula (Token Climber enclosedIf groupedIf Stops EndsBefore)

/-! ### Written choices -/

/-- The operator of a choice that is a binary one. -/
def operator? : Choice → Option BinaryOp
  | binary op _ _ => some op
  | _ => none

def isChoose : Choice → Bool
  | choose .. => true
  | _ => false

/-- Whether an operand of `parent` stands in parentheses. -/
def needsParens (parent : BinaryOp) (side : BinaryOp.Side) (c : Choice) : Bool :=
  c.isChoose || c.operator?.any (parent.operandNeedsParens · side)

/-- A choice as it is written where nothing asks for parentheses around it. -/
def text : Choice → String
  | name n => n
  | binary op left right =>
    enclosedIf (needsParens op .left left) left.text ++ " " ++ op.symbol ++ " " ++
      enclosedIf (needsParens op .right right) right.text
  | choose test first second =>
    enclosedIf test.operator?.isSome test.text ++ " ? " ++ first.text ++ " : " ++ second.text

def tokens : Choice → List Token
  | name n => [.word n]
  | binary op left right =>
    groupedIf (needsParens op .left left) left.tokens ++
      .symbol op.symbol :: groupedIf (needsParens op .right right) right.tokens
  | choose test first second =>
    groupedIf test.operator?.isSome test.tokens ++
      .symbol "?" :: (first.tokens ++ .symbol ":" :: second.tokens)

/-- Every name is a word, and no operator checks for overflow. -/
def Plain : Choice → Prop
  | name n => Formula.isWord n
  | binary op left right => op.isChecked = false ∧ left.Plain ∧ right.Plain
  | choose test first second => test.Plain ∧ first.Plain ∧ second.Plain

theorem tokens_length_pos (c : Choice) : 0 < c.tokens.length := by
  cases c <;> simp only [tokens, List.length_cons, List.length_append, List.length_nil] <;> omega

/-! ### Regrouping -/

/-- Goes on from the last branch of a chain of conditional operators. -/
def extend : Choice → (Choice → Choice) → Choice
  | choose test first second, k => choose test first (second.extend k)
  | c, k => k c

/-- The choice that a written choice says: the operator behind a test that is a conditional operator
chooses by the last branch of the test. -/
def regroup : Choice → Choice
  | name n => name n
  | binary op left right => binary op left.regroup right.regroup
  | choose test first second =>
    test.regroup.extend fun last => choose last first.regroup second.regroup

/-- No conditional operator is the test of another. -/
def TestsPlain : Choice → Prop
  | name _ => True
  | binary _ left right => left.TestsPlain ∧ right.TestsPlain
  | choose test first second =>
    test.isChoose = false ∧ test.TestsPlain ∧ first.TestsPlain ∧ second.TestsPlain

instance : DecidablePred TestsPlain
  | name _ => inferInstanceAs (Decidable True)
  | binary _ left right =>
    have := instDecidablePredTestsPlain left
    have := instDecidablePredTestsPlain right
    inferInstanceAs (Decidable (_ ∧ _))
  | choose test first second =>
    have := instDecidablePredTestsPlain test
    have := instDecidablePredTestsPlain first
    have := instDecidablePredTestsPlain second
    inferInstanceAs (Decidable (_ ∧ _ ∧ _ ∧ _))

section Regroup
variable {c : Choice}

theorem extend_of_not_isChoose (h : c.isChoose = false) (k : Choice → Choice) : c.extend k = k c := by
  cases c with
  | name | binary => rfl
  | choose => cases h

theorem extend_id (c : Choice) : c.extend id = c := by
  induction c with
  | name | binary => rfl
  | choose test first second _ _ ih => rw [extend, ih]

/-- Going on twice is going on once with both continuations. -/
theorem extend_extend (c first second : Choice) (k : Choice → Choice) :
    (c.extend fun last => choose last first second).extend k =
      c.extend fun last => choose last first (second.extend k) := by
  induction c with
  | name | binary => rfl
  | choose test first second _ _ ih => simp only [extend, ih]

theorem testsPlain_extend {first second : Choice} (hc : c.TestsPlain) (hf : first.TestsPlain)
    (hs : second.TestsPlain) : (c.extend fun last => choose last first second).TestsPlain := by
  induction c with
  | name | binary => exact ⟨rfl, hc, hf, hs⟩
  | choose test a b _ _ ih => exact ⟨hc.1, hc.2.1, hc.2.2.1, ih hc.2.2.2⟩

/-- What is read has no conditional operator as a test. -/
theorem testsPlain_regroup (c : Choice) : c.regroup.TestsPlain := by
  induction c with
  | name => trivial
  | binary op left right ihl ihr => exact ⟨ihl, ihr⟩
  | choose test first second iht ihf ihs => exact testsPlain_extend iht ihf ihs

theorem TestsPlain.regroup_eq (h : c.TestsPlain) : c.regroup = c := by
  induction c with
  | name => rfl
  | binary op left right ihl ihr => rw [regroup, ihl h.1, ihr h.2]
  | choose test first second iht ihf ihs =>
    rw [regroup, iht h.2.1, ihf h.2.2.1, ihs h.2.2.2, extend_of_not_isChoose h.1]

theorem regroup_eq_iff : c.regroup = c ↔ c.TestsPlain :=
  ⟨fun h => h ▸ c.testsPlain_regroup, TestsPlain.regroup_eq⟩

end Regroup

/-! ### The reader -/

/-- At the binary level, choices are read by climbing precedences. -/
def climber : Climber Choice where
  name := name
  binary := binary
  readOperand := readOperand
  readBinary := readBinary
  readOperators := readOperators
  cost := 3
  two_le_cost := by decide
  readOperand_word fuel w rest := by rw [readOperand]
  readBinary_succ fuel least tokens := by rw [readBinary]; rfl
  readOperators_symbol fuel least left s rest := by rw [readOperators]; rfl
  readOperators_other fuel least left rest hrest := by
    cases rest with
    | nil => simp [readOperators]
    | cons token tail =>
      cases token with
      | symbol s => exact absurd rfl (hrest s tail)
      | _ => simp [readOperators]

/-- The tokens are read as the choice, and what stands behind it goes on from its last branch. -/
def ChoiceOf (c : Choice) (ts : List Token) : Prop :=
  ∀ m k rest rest', 2 ≤ m → (∀ least, Stops least rest) →
    (∀ last fuel, m ≤ fuel → readBranches fuel last rest = some (k last, rest')) →
    ∀ fuel, m + 3 * ts.length ≤ fuel → readChoice fuel (ts ++ rest) = some (c.extend k, rest')

section Levels
variable {c : Choice} {ts : List Token}

/-- What is read at the binary level is the test of the branches behind it. -/
theorem choiceOf_of_binaryOf {outer : Option BinaryOp} (h : climber.BinaryOf outer c ts) (hc : c.isChoose = false)
    (hts : 0 < ts.length) : ChoiceOf c ts := by
  intro m k rest rest' hm hstops hrest fuel hfuel
  obtain ⟨fuel, rfl⟩ := Nat.exists_eq_add_of_le' (show 1 ≤ fuel by omega)
  have hread : readBinary fuel 0 (ts ++ rest) = some (c, rest) :=
    h 1 0 rest _ (Nat.le_refl 1) (Formula.fits_zero _) (.of_stops hstops _)
      (Climber.readOperators_stops (hstops 0) c) fuel (show 1 + 3 * ts.length ≤ fuel by omega)
  rw [readChoice, hread, extend_of_not_isChoose hc]
  exact hrest c fuel (by omega)

theorem readBranches_closing (last : Choice) (rest : List Token) {fuel : Nat} (h : 2 ≤ fuel) :
    readBranches fuel last (.closing :: rest) = some (last, .closing :: rest) := by
  obtain ⟨fuel, rfl⟩ := Nat.exists_eq_add_of_le' h
  rw [readBranches]
  simp

/-- In parentheses a choice is an operand, and nothing behind it goes on inside it. -/
theorem ChoiceOf.grouped (h : ChoiceOf c ts) : climber.OperandOf c (groupedIf true ts) := by
  intro fuel rest hfuel
  have hfuel : 3 * (groupedIf true ts).length ≤ fuel := hfuel
  simp only [groupedIf, if_true, List.length_cons, List.length_append, List.length_nil] at hfuel ⊢
  obtain ⟨fuel, rfl⟩ := Nat.exists_eq_add_of_le' (show 1 ≤ fuel by omega)
  have hread := h 2 id (.closing :: rest) (.closing :: rest) (Nat.le_refl 2)
    (fun least => Formula.stops_closing least rest) (fun last _ => readBranches_closing last rest) fuel
    (by omega)
  rw [extend_id] at hread
  show readOperand (fuel + 1) (.opening :: (ts ++ [.closing]) ++ rest) = _
  rw [List.cons_append, List.append_assoc, List.singleton_append, readOperand, hread]

end Levels

/-! ### Every written choice is read -/

section Reading
variable {op : BinaryOp} {c left right : Choice} {rest : List Token}

theorem isChecked_of_plain (hp : c.Plain) {child : BinaryOp} (h : child ∈ c.operator?) :
    child.isChecked = false := by
  cases c with
  | name | choose => cases h
  | binary => cases h; exact hp.1

/-- An operand has the parentheses that its operator asks for. -/
theorem beside_groupedIf (side : BinaryOp.Side) (hp : c.Plain) (hchoice : ChoiceOf c.regroup c.tokens)
    (hbinary : c.isChoose = false → climber.BinaryOf c.operator? c.regroup c.tokens) :
    climber.Beside op side c.regroup (groupedIf (needsParens op side c) c.tokens) := by
  cases hparens : needsParens op side c with
  | true => exact .operand (Formula.length_groupedIf_pos true c.tokens_length_pos) hchoice.grouped
  | false =>
    simp only [needsParens, Bool.or_eq_false_iff] at hparens
    refine .bare (fun child hchild => ⟨isChecked_of_plain hp hchild, ?_⟩) (hbinary hparens.1)
    have hchildren := hparens.2
    rwa [Option.mem_def.mp hchild, Option.any_some] at hchildren

/-- A test is enclosed where it is a binary operator. -/
theorem ChoiceOf.test (h : ChoiceOf c.regroup c.tokens) :
    ChoiceOf c.regroup (groupedIf c.operator?.isSome c.tokens) := by
  cases c with
  | name | choose => exact h
  | binary op left right =>
    have hpos := Formula.length_groupedIf_pos true (binary op left right).tokens_length_pos
    exact choiceOf_of_binaryOf (h.grouped.binaryOf hpos none) rfl hpos

theorem readBranches_colon (last : Choice) (rest : List Token) {fuel : Nat} (h : 2 ≤ fuel) :
    readBranches fuel last (.symbol ":" :: rest) = some (last, .symbol ":" :: rest) := by
  obtain ⟨fuel, rfl⟩ := Nat.exists_eq_add_of_le' h
  rw [readBranches]
  simp

theorem choiceOf_choose {test first second : Choice}
    (ht : ChoiceOf test.regroup test.tokens) (hf : ChoiceOf first.regroup first.tokens)
    (hs : ChoiceOf second.regroup second.tokens) :
    ChoiceOf (choose test first second).regroup (choose test first second).tokens := by
  intro m k rest rest' hm hstops hrest fuel hfuel
  simp only [tokens, List.length_append, List.length_cons] at hfuel
  simp only [tokens, List.append_assoc, List.cons_append]
  -- Whatever the test ends in, the reader takes the two branches behind it and goes on in the second.
  have hbranches : ∀ last fuel, m + 3 * first.tokens.length + 3 * second.tokens.length + 3 ≤ fuel →
      readBranches fuel last
          (.symbol "?" :: (first.tokens ++ .symbol ":" :: (second.tokens ++ rest))) =
        some (choose last first.regroup (second.regroup.extend k), rest') := by
    intro last fuel hfuel
    obtain ⟨fuel, rfl⟩ := Nat.exists_eq_add_of_le' (show 1 ≤ fuel by omega)
    have hfirst := hf 2 id (.symbol ":" :: (second.tokens ++ rest)) _ (Nat.le_refl 2)
      (fun least => Formula.stops_of_ofSymbol? (by decide) least _)
      (fun last _ => readBranches_colon last _) fuel (by omega)
    have hsecond := hs m k rest rest' hm hstops hrest fuel (by omega)
    rw [extend_id] at hfirst
    simp only [readBranches, hfirst, Option.bind_eq_bind, Option.bind_some, hsecond, Option.pure_def]
  rw [regroup, extend_extend]
  exact ht.test _ _ _ rest' (by omega) (fun least => Formula.stops_of_ofSymbol? (by decide) least _) hbranches
    fuel (by omega)

/-- The tokens of a choice are read as the regrouped choice; below a conditional operator that holds
    at the binary level too. -/
theorem choiceOf_tokens : ∀ c : Choice, c.Plain →
    ChoiceOf c.regroup c.tokens ∧ (c.isChoose = false → climber.BinaryOf c.operator? c.regroup c.tokens)
  | name n, _ =>
    have h := (Climber.operandOf_word (R := climber) n).binaryOf (name n).tokens_length_pos none
    ⟨choiceOf_of_binaryOf h rfl (name n).tokens_length_pos, fun _ => h⟩
  | binary op left right, ⟨hop, hl, hr⟩ => by
    obtain ⟨hleft, hleft'⟩ := choiceOf_tokens left hl
    obtain ⟨hright, hright'⟩ := choiceOf_tokens right hr
    have h := Climber.binaryOf_binary hop (beside_groupedIf .left hl hleft hleft')
      (beside_groupedIf .right hr hright hright')
    exact ⟨choiceOf_of_binaryOf h rfl (binary op left right).tokens_length_pos, fun _ => h⟩
  | choose test first second, ⟨ht, hf, hs⟩ =>
    ⟨choiceOf_choose (choiceOf_tokens test ht).1 (choiceOf_tokens first hf).1
      (choiceOf_tokens second hs).1, fun h => by cases h⟩

end Reading

/-! ### Texts and tokens -/

section Tokens
variable {cs : List Char}

theorem tokenize_eq (cs : List Char) :
    tokenize cs = (Formula.tokenize (stretch cs)).bind fun first =>
      match cs.dropWhile (· != ':') with
      | [] => some first
      | _ :: rest => (tokenize rest).map (first ++ .symbol ":" :: ·) := by
  rw [tokenize]
  refine Option.bind_congr fun first _ => ?_
  split
  · next h => rw [h]; rfl
  · next h => simp only [h]; cases tokenize _ <;> rfl

/-- A text without a colon is cut into its tokens before what follows. -/
theorem tokenize_append (xs cs : List Char) (ts : List Token) (hx : ':' ∉ xs)
    (hcut : Formula.tokenize (xs ++ stretch cs) = (Formula.tokenize (stretch cs)).map (ts ++ ·)) :
    tokenize (xs ++ cs) = (tokenize cs).map (ts ++ ·) := by
  have hpos : ∀ c ∈ xs, (c != ':') = true := by
    intro c hc
    simp only [bne_iff_ne]
    rintro rfl
    exact hx hc
  have hstretch : stretch (xs ++ cs) = xs ++ stretch cs := List.takeWhile_append_of_pos hpos
  have hdrop : (xs ++ cs).dropWhile (· != ':') = cs.dropWhile (· != ':') :=
    List.dropWhile_append_of_pos hpos
  rw [tokenize_eq, tokenize_eq cs, hstretch, hdrop, hcut]
  cases Formula.tokenize (stretch cs) with
  | none => rfl
  | some first =>
    cases cs.dropWhile (· != ':') with
    | nil => rfl
    | cons _ rest => simp [Option.map_map, Function.comp_def]

theorem tokenize_blank : tokenize (' ' :: cs) = tokenize cs := by
  have h := tokenize_append [' '] cs [] (by decide) (by simp [Formula.tokenize_blank])
  simpa using h

theorem tokenize_colon :
    tokenize (' ' :: ':' :: ' ' :: cs) = (tokenize cs).map (.symbol ":" :: ·) := by
  have hstretch : stretch (':' :: ' ' :: cs) = [] := rfl
  have hdrop : (':' :: ' ' :: cs).dropWhile (· != ':') = ':' :: ' ' :: cs := rfl
  rw [tokenize_blank, tokenize_eq, hstretch, hdrop, Formula.tokenize]
  simp [tokenize_blank]

/-- A symbol between blanks. -/
theorem tokenize_spaced {s : String} (hs : s.toList ≠ [])
    (hall : ∀ c ∈ s.toList, Formula.isSymbolChar c = true) :
    tokenize (' ' :: (s.toList ++ ' ' :: cs)) = (tokenize cs).map (.symbol s :: ·) := by
  have hcolon : ':' ∉ s.toList := fun h => Formula.isSymbolChar_ne (hall _ h) (by decide) rfl
  have h := tokenize_append (s.toList ++ [' ']) cs [.symbol s] (by simp [hcolon]) (by
      rw [List.append_assoc, List.singleton_append, Formula.tokenize_symbol hs hall
        (Formula.endsBefore_cons (by decide)), Formula.tokenize_blank]
      rfl)
  rw [tokenize_blank]
  simpa using h

end Tokens

/-- A text is cut into the given tokens wherever no word goes on behind it. -/
def CutsInto (text : String) (ts : List Token) : Prop :=
  ∀ cs, EndsBefore Formula.isWordChar cs → tokenize (text.toList ++ cs) = (tokenize cs).map (ts ++ ·)

theorem endsBefore_stretch {cs : List Char} (h : EndsBefore Formula.isWordChar cs) :
    EndsBefore Formula.isWordChar (stretch cs) := by
  intro c hc
  cases cs with
  | nil => cases hc
  | cons d cs =>
    rw [stretch, List.takeWhile_cons] at hc
    split at hc
    · exact h c hc
    · cases hc

theorem cutsInto_word {n : String} (h : Formula.isWord n = true) : CutsInto n [.word n] := by
  intro cs hcs
  refine tokenize_append _ _ _ ?_ (Formula.tokenize_word h (endsBefore_stretch hcs))
  simp only [Formula.isWord, Bool.and_eq_true, List.all_eq_true] at h
  intro hc
  exact absurd (h.2 _ hc) (by decide)

theorem CutsInto.enclosedIf {text : String} {ts : List Token} (h : CutsInto text ts) (b : Bool) :
    CutsInto (enclosedIf b text) (groupedIf b ts) := by
  cases b with
  | false => exact h
  | true =>
    intro cs _
    have hopening := tokenize_append ['('] (text.toList ++ ')' :: cs) [.opening] (by decide)
      Formula.tokenize_opening
    have hclosing := tokenize_append [')'] cs [.closing] (by decide) Formula.tokenize_closing
    have hinner := h (')' :: cs) (Formula.endsBefore_cons (by decide))
    simp only [List.singleton_append] at hopening hclosing
    rw [hinner, hclosing] at hopening
    simp only [Formula.enclosedIf, groupedIf, if_true, String.toList_append, List.append_assoc]
    simpa [Option.map_map, Function.comp_def] using hopening

theorem endsBefore_append_blank (text : String) (cs : List Char) (h : text.toList.head? = some ' ') :
    EndsBefore Formula.isWordChar (text.toList ++ cs) := by
  obtain ⟨rest, hrest⟩ := List.head?_eq_some_iff.mp h
  rw [hrest]
  exact Formula.endsBefore_cons (by decide)

theorem cutsInto_text : ∀ c : Choice, c.Plain → CutsInto c.text c.tokens
  | name n, hp => cutsInto_word hp
  | binary op left right, ⟨_, hl, hr⟩ => by
    intro cs hcs
    have hright := (cutsInto_text right hr).enclosedIf (needsParens op .right right) cs hcs
    have hleft := (cutsInto_text left hl).enclosedIf (needsParens op .left left)
    simp only [text, tokens, String.toList_append, List.append_assoc]
    rw [show " ".toList = [' '] from rfl, List.singleton_append, List.singleton_append,
      hleft _ (Formula.endsBefore_cons (by decide)),
      tokenize_spaced (Formula.symbol_chars op).1 (Formula.symbol_chars op).2, hright]
    simp [Option.map_map, Function.comp_def]
  | choose test first second, ⟨ht, hf, hs⟩ => by
    intro cs hcs
    have htest := (cutsInto_text test ht).enclosedIf test.operator?.isSome
    have hfirst := cutsInto_text first hf
    have hsecond := cutsInto_text second hs cs hcs
    have hmark : ∀ cs, tokenize (" ? ".toList ++ cs) = (tokenize cs).map (.symbol "?" :: ·) :=
      fun _ => tokenize_spaced (s := "?") (by decide) (List.all_eq_true.mp rfl)
    have hcolon : ∀ cs, tokenize (" : ".toList ++ cs) = (tokenize cs).map (.symbol ":" :: ·) :=
      fun _ => tokenize_colon
    simp only [text, tokens, String.toList_append, List.append_assoc]
    rw [htest _ (endsBefore_append_blank " ? " _ rfl), hmark,
      hfirst _ (endsBefore_append_blank " : " _ rfl), hcolon, hsecond]
    simp [Option.map_map, Function.comp_def]

/-- The text of a choice, enclosed where it is a binary operator, is read as the regrouped choice. -/
theorem read_shown {c : Choice} (hp : c.Plain) :
    read (enclosedIf c.operator?.isSome c.text) = some c.regroup := by
  have hcut := (cutsInto_text c hp).enclosedIf c.operator?.isSome [] (by intro c hc; cases hc)
  have hnil : tokenize [] = some [] := by simp [tokenize_eq, stretch, Formula.tokenize]
  simp only [List.append_nil, hnil, Option.map_some] at hcut
  have hbranches : ∀ last fuel, 2 ≤ fuel → readBranches fuel last [] = some (id last, []) := by
    intro last fuel hfuel
    obtain ⟨fuel, rfl⟩ := Nat.exists_eq_add_of_le' hfuel
    simp [readBranches]
  have hread := (choiceOf_tokens c hp).1.test 2 id [] [] (Nat.le_refl 2) Formula.stops_nil hbranches _
    (Nat.le_of_eq (Nat.add_comm _ _))
  rw [List.append_nil, extend_id] at hread
  simp only [read, hcut, Option.bind_eq_bind, Option.bind_some, hread]

end ExprText.Choice
