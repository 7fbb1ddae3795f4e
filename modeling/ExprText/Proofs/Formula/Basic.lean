import ExprText.Expr.Basic

/-! # Formulas

Names under signs and binary operators, and how a reader of the language takes a text apart: the text
is cut into words, symbols and parentheses, and the operators are put together by precedence climbing.
An operator takes what stands behind it as far as the operators there bind more tightly, a sign takes
only the operand behind it, and parentheses make an operand of what they enclose. -/

namespace ExprText

/-- An operator that is written before its only operand. -/
inductive Sign where
  | minus | plus | complement
deriving DecidableEq, Repr

namespace Sign

def all : List Sign := [minus, plus, complement]

def symbol : Sign → String
  | minus => "-"
  | plus => "+"
  | complement => "~"

def op : Sign → UnaryOp
  | minus => .negate
  | plus => .unaryPlus
  | complement => .onesComplement

def ofOp? (op : UnaryOp) : Option Sign :=
  all.find? (·.op == op)

def ofSymbol? (symbol : String) : Option Sign :=
  all.find? (·.symbol == symbol)

end Sign

/-- The operator without an overflow check that is written as a symbol. -/
def BinaryOp.ofSymbol? (symbol : String) : Option BinaryOp :=
  BinaryOp.all.find? fun op => !op.isChecked && op.symbol == symbol

inductive Formula where
  | name (text : String)
  | signed (sign : Sign) (operand : Formula)
  | binary (op : BinaryOp) (left right : Formula)
deriving DecidableEq, Repr

namespace Formula

/-! ### Words and symbols -/

/-- Letters, digits and the underscore; all characters beyond ASCII count as letters. -/
def isWordChar (c : Char) : Bool :=
  c.isAlphanum || c == '_' || 128 ≤ c.toNat

def isSymbolChar (c : Char) : Bool :=
  ['+', '-', '*', '/', '%', '&', '|', '^', '<', '>', '=', '!', '?', '~'].contains c

/-- Whether a name is one word. -/
def isWord (name : String) : Bool :=
  !name.isEmpty && name.toList.all isWordChar

inductive Token where
  | word (text : String)
  | symbol (text : String)
  | opening | closing
deriving DecidableEq, Repr

/-- The tokens of a text. Words and symbols are as long as possible; blanks end them. -/
def tokenize : List Char → Option (List Token)
  | [] => some []
  | c :: rest =>
    if c = ' ' then tokenize rest
    else if c = '(' then (tokenize rest).map (.opening :: ·)
    else if c = ')' then (tokenize rest).map (.closing :: ·)
    else if isWordChar c then
      (tokenize (rest.dropWhile isWordChar)).map
        (.word (String.ofList (c :: rest.takeWhile isWordChar)) :: ·)
    else if isSymbolChar c then
      (tokenize (rest.dropWhile isSymbolChar)).map
        (.symbol (String.ofList (c :: rest.takeWhile isSymbolChar)) :: ·)
    else none
termination_by cs => cs.length
decreasing_by
  · exact Nat.lt_succ_self _
  · exact Nat.lt_succ_self _
  · exact Nat.lt_succ_self _
  · exact Nat.lt_succ_of_le (List.dropWhile_sublist _).length_le
  · exact Nat.lt_succ_of_le (List.dropWhile_sublist _).length_le

/-! ### Precedence climbing -/

/-- How tightly an operator binds that may follow on the right of another one: more tightly than the
first, or as tightly where that one associates to the right. -/
def bindingRight (op : BinaryOp) : Nat :=
  if op.isRightAssociative then op.precedence else op.precedence + 1

mutual

/-- Reads a name, a sign with its operand, or a formula in parentheses. -/
def readOperand : Nat → List Token → Option (Formula × List Token)
  | _ + 1, .word w :: rest => some (.name w, rest)
  | fuel + 1, .symbol s :: rest => do
    let sign ← Sign.ofSymbol? s
    let (operand, rest) ← readOperand fuel rest
    return (.signed sign operand, rest)
  | fuel + 1, .opening :: rest =>
    match readFormula fuel 0 rest with
    | some (inner, .closing :: rest) => some (inner, rest)
    | _ => none
  | _, _ => none

/-- Reads a formula whose outer operators bind at least as tightly as `least`. -/
def readFormula : Nat → Nat → List Token → Option (Formula × List Token)
  | fuel + 1, least, tokens => do
    let (left, rest) ← readOperand fuel tokens
    readOperators fuel least left rest
  | 0, _, _ => none

/-- Reads the operators behind `left` that bind at least as tightly as `least`, each with its right
operand. -/
def readOperators : Nat → Nat → Formula → List Token → Option (Formula × List Token)
  | fuel + 1, least, left, .symbol s :: rest =>
    match BinaryOp.ofSymbol? s with
    | none => some (left, .symbol s :: rest)
    | some op =>
      if least ≤ op.precedence then do
        let (right, rest) ← readFormula fuel (bindingRight op) rest
        readOperators fuel least (.binary op left right) rest
      else some (left, .symbol s :: rest)
  | _ + 1, _, left, rest => some (left, rest)
  | 0, _, _, _ => none

end

/-- The formula that a text says. Every token is read by at most two calls. -/
def read (text : String) : Option Formula := do
  let tokens ← tokenize text.toList
  match readFormula (2 * tokens.length + 1) 0 tokens with
  | some (formula, []) => some formula
  | _ => none

end Formula

/-- The formula that a tree of words, signs and operators without overflow checks is. -/
def Expr.formula? : Expr → Option Formula
  | .variable _ target => (target.name.filter Formula.isWord).map .name
  | .unary _ op operand _ => do
    return .signed (← Sign.ofOp? op) (← operand.formula?)
  | .binary _ op left right _ =>
    if op.isChecked then none
    else do return .binary op (← left.formula?) (← right.formula?)
  | _ => none

end ExprText
