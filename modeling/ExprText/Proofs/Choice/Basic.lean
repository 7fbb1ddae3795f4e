import ExprText.Proofs.Formula.Basic

/-! # Choices

Names under binary operators and conditional operators, and how a reader of the language takes a text
apart: a conditional operator binds more loosely than every binary operator and associates to the
right. In front of the question mark stands a text of the binary level, while each of the two branches
reaches as far as it can. -/

namespace ExprText

inductive Choice where
  | name (text : String)
  | binary (op : BinaryOp) (left right : Choice)
  | choose (test first second : Choice)
deriving DecidableEq, Repr

namespace Choice

open Formula (Token bindingRight)

/-! ### Words and symbols -/

/-- The text up to its first colon. -/
def stretch (cs : List Char) : List Char :=
  cs.takeWhile (· != ':')

theorem length_lt_of_dropWhile_eq {p : Char → Bool} {c : Char} {cs rest : List Char}
    (h : cs.dropWhile p = c :: rest) : rest.length < cs.length := by
  have hle := (List.dropWhile_sublist p (l := cs)).length_le
  rw [h] at hle
  exact hle

/-- The tokens of a text. A colon is a symbol of its own, between stretches that are cut into tokens
like the texts of formulas. -/
def tokenize (cs : List Char) : Option (List Token) := do
  let first ← Formula.tokenize (stretch cs)
  match h : cs.dropWhile (· != ':') with
  | [] => return first
  | _ :: rest =>
    have := length_lt_of_dropWhile_eq h
    return first ++ .symbol ":" :: (← tokenize rest)
termination_by cs.length

/-! ### Precedence climbing -/

mutual

/-- Reads a name or a choice in parentheses. -/
def readOperand : Nat → List Token → Option (Choice × List Token)
  | _ + 1, .word w :: rest => some (.name w, rest)
  | fuel + 1, .opening :: rest =>
    match readChoice fuel rest with
    | some (inner, .closing :: rest) => some (inner, rest)
    | _ => none
  | _, _ => none

/-- Reads an operand and the operators behind it that bind at least as tightly as `least`. -/
def readBinary : Nat → Nat → List Token → Option (Choice × List Token)
  | fuel + 1, least, tokens => do
    let (left, rest) ← readOperand fuel tokens
    readOperators fuel least left rest
  | 0, _, _ => none

/-- Reads the operators behind `left` that bind at least as tightly as `least`, each with its right
operand. -/
def readOperators : Nat → Nat → Choice → List Token → Option (Choice × List Token)
  | fuel + 1, least, left, .symbol s :: rest =>
    match BinaryOp.ofSymbol? s with
    | none => some (left, .symbol s :: rest)
    | some op =>
      if least ≤ op.precedence then do
        let (right, rest) ← readBinary fuel (bindingRight op) rest
        readOperators fuel least (.binary op left right) rest
      else some (left, .symbol s :: rest)
  | _ + 1, _, left, rest => some (left, rest)
  | 0, _, _, _ => none

/-- Reads what stands at the binary level and, behind a question mark, the branches that it
chooses between. -/
def readChoice : Nat → List Token → Option (Choice × List Token)
  | fuel + 1, tokens => do
    let (test, rest) ← readBinary fuel 0 tokens
    readBranches fuel test rest
  | 0, _ => none

/-- Reads the branches behind a question mark; without one the test stands for itself. -/
def readBranches : Nat → Choice → List Token → Option (Choice × List Token)
  | fuel + 1, test, .symbol "?" :: rest => do
    let (first, rest) ← readChoice fuel rest
    match rest with
    | .symbol ":" :: rest =>
      let (second, rest) ← readChoice fuel rest
      return (.choose test first second, rest)
    | _ => none
  | _ + 1, test, rest => some (test, rest)
  | 0, _, _ => none

end

/-- The choice that a text says. Every token is read by at most three calls. -/
def read (text : String) : Option Choice := do
  let tokens ← tokenize text.toList
  match readChoice (3 * tokens.length + 2) tokens with
  | some (choice, []) => some choice
  | _ => none

end Choice

/-- The choice that a tree of words, operators without overflow checks and conditionals with a value
is. -/
def Expr.choice? : Expr → Option Choice
  | .variable _ target => (target.name.filter Formula.isWord).map .name
  | .binary _ op left right _ =>
    if op.isChecked then none
    else do return .binary op (← left.choice?) (← right.choice?)
  | .conditional _ test ifTrue ifFalse ty =>
    if ty.isVoid then none
    else do return .choose (← test.choice?) (← ifTrue.choice?) (← ifFalse.choice?)
  | _ => none

end ExprText
