import ExprText.Json.Basic

/-! # Reading JSON

Documents are read strictly: one value, blanks only around its parts, no comments and no trailing
commas. String literals are first kept as they are written, since a literal may be well-formed and
still stand for no text, when it escapes half of a surrogate pair. -/

namespace ExprText.Json

/-- The characters of a string literal between its quotes, with their escapes. -/
abbrev Literal := List Char

def isBlank (c : Char) : Bool :=
  c == ' ' || c == '\t' || c == '\n' || c == '\r'

def skipBlanks (cs : List Char) : List Char :=
  cs.dropWhile isBlank

/-! ## Hexadecimal digits -/

def hexDigit? (c : Char) : Option Nat :=
  if c.isDigit then some (c.toNat - '0'.toNat)
  else if 'a' ≤ c && c ≤ 'f' then some (c.toNat - 'a'.toNat + 10)
  else if 'A' ≤ c && c ≤ 'F' then some (c.toNat - 'A'.toNat + 10)
  else none

/-- The number that hexadecimal digits write. -/
def hexNumber? (cs : List Char) : Option Nat :=
  cs.foldlM (fun n c => (hexDigit? c).map (16 * n + ·)) 0

/-! ## Strings -/

/-- The characters that a backslash may stand before, with what they mean. -/
def simpleEscapes : List (Char × Char) :=
  [('"', '"'), ('\\', '\\'), ('/', '/'), ('b', '\x08'), ('f', '\x0c'), ('n', '\n'), ('r', '\r'),
    ('t', '\t')]

/-- Reads a string literal from after its opening quote on. -/
def literal : List Char → Option (Literal × List Char)
  | [] => none
  | '"' :: rest => some ([], rest)
  | '\\' :: 'u' :: a :: b :: c :: d :: rest =>
    if (hexNumber? [a, b, c, d]).isSome then
      (literal rest).map fun (raw, rest) => ('\\' :: 'u' :: a :: b :: c :: d :: raw, rest)
    else none
  | '\\' :: c :: rest =>
    if (simpleEscapes.lookup c).isSome then
      (literal rest).map fun (raw, rest) => ('\\' :: c :: raw, rest)
    else none
  | c :: rest =>
    if c.toNat < 0x20 || c == '\\' then none
    else (literal rest).map fun (raw, rest) => (c :: raw, rest)

/-- The UTF-16 units that a literal escapes, and the characters it holds as they are. -/
def units : Literal → Option (List (Char ⊕ Nat))
  | [] => some []
  | '\\' :: 'u' :: a :: b :: c :: d :: rest => do
    let unit ← hexNumber? [a, b, c, d]
    return .inr unit :: (← units rest)
  | '\\' :: c :: rest => do
    let plain ← simpleEscapes.lookup c
    return .inl plain :: (← units rest)
  | c :: rest => do return .inl c :: (← units rest)

def isHighSurrogate (u : Nat) : Bool := 0xD800 ≤ u && u < 0xDC00

def isLowSurrogate (u : Nat) : Bool := 0xDC00 ≤ u && u < 0xE000

/-- The character that a pair of surrogates stands for. -/
def ofSurrogates (high low : Nat) : Char :=
  Char.ofNat (0x10000 + (high - 0xD800) * 0x400 + (low - 0xDC00))

/-- Joins pairs of surrogates; a half without its partner stands for nothing. -/
def joinUnits : List (Char ⊕ Nat) → Option (List Char)
  | [] => some []
  | .inl c :: rest => (joinUnits rest).map (c :: ·)
  | .inr high :: .inr low :: rest =>
    if isHighSurrogate high then
      if isLowSurrogate low then (joinUnits rest).map (ofSurrogates high low :: ·) else none
    else if isLowSurrogate high then none
    else (joinUnits (.inr low :: rest)).map (Char.ofNat high :: ·)
  | .inr u :: rest =>
    if isHighSurrogate u || isLowSurrogate u then none
    else (joinUnits rest).map (Char.ofNat u :: ·)

/-- The text that a literal stands for. -/
def Literal.text? (l : Literal) : Option String :=
  ((units l).bind joinUnits).map String.ofList

/-! ## Numbers -/

def digits (cs : List Char) : Option (List Char × List Char) :=
  match cs.takeWhile Char.isDigit with
  | [] => none
  | ds => some (ds, cs.dropWhile Char.isDigit)

def fraction : List Char → Option (List Char × List Char)
  | '.' :: rest => (digits rest).map fun (ds, rest) => ('.' :: ds, rest)
  | rest => some ([], rest)

def sign : List Char → List Char × List Char
  | '+' :: rest => (['+'], rest)
  | '-' :: rest => (['-'], rest)
  | rest => ([], rest)

def exponent : List Char → Option (List Char × List Char)
  | c :: rest =>
    if c == 'e' || c == 'E' then
      let (s, rest) := sign rest
      (digits rest).map fun (ds, rest) => (c :: s ++ ds, rest)
    else some ([], c :: rest)
  | [] => some ([], [])

/-- The natural number that decimal digits write. -/
def decimalNumber (ds : List Char) : Nat :=
  ds.foldl (fun n c => 10 * n + (c.toNat - '0'.toNat)) 0

/-- Reads a number; only a lone zero starts with zero. -/
def number (cs : List Char) : Option (Number × List Char) := do
  let (minus, cs) := match cs with
    | '-' :: rest => (true, rest)
    | cs => (false, cs)
  let (whole, cs) ← digits cs
  if whole.head? = some '0' ∧ whole ≠ ['0'] then none
  else
    let (frac, cs) ← fraction cs
    let (exp, cs) ← exponent cs
    let isInteger := frac.isEmpty && exp.isEmpty && !(minus && whole == ['0'])
    let value : Number :=
      if isInteger then
        .int (if minus then -(decimalNumber whole : Int) else decimalNumber whole)
      else .other (String.ofList ((if minus then ['-'] else []) ++ whole ++ frac ++ exp))
    return (value, cs)

/-! ## Values -/

/-- What follows `word` at the start of a text. -/
def afterWord (word cs : List Char) : Option (List Char) :=
  if word.isPrefixOf cs then some (cs.drop word.length) else none

mutual

/-- Reads a value at the start of a text; every value inside it and every comma takes one of the given
steps. -/
def value : Nat → List Char → Option (Json Literal × List Char)
  | 0, _ => none
  | fuel + 1, cs =>
    match cs with
    | '"' :: rest => (literal rest).map fun (raw, rest) => (.str raw, rest)
    | '[' :: rest =>
      match skipBlanks rest with
      | ']' :: rest => some (.arr [], rest)
      | rest => (items fuel rest).map fun (js, rest) => (.arr js, rest)
    | '\x7b' :: rest =>
      match skipBlanks rest with
      | '\x7d' :: rest => some (.obj [], rest)
      | rest => (fields fuel rest).map fun (fs, rest) => (.obj fs, rest)
    | 'n' :: _ => (afterWord "null".toList cs).map (.null, ·)
    | 't' :: _ => (afterWord "true".toList cs).map (.bool true, ·)
    | 'f' :: _ => (afterWord "false".toList cs).map (.bool false, ·)
    | _ => (number cs).map fun (n, rest) => (.num n, rest)

def items : Nat → List Char → Option (List (Json Literal) × List Char)
  | 0, _ => none
  | fuel + 1, cs => do
    let (j, rest) ← value fuel cs
    match skipBlanks rest with
    | ']' :: rest => return ([j], rest)
    | ',' :: rest =>
      let (js, rest) ← items fuel (skipBlanks rest)
      return (j :: js, rest)
    | _ => none

def fields : Nat → List Char → Option (List (Literal × Json Literal) × List Char)
  | 0, _ => none
  | fuel + 1, cs => do
    let (key, rest) ← match cs with
      | '"' :: rest => literal rest
      | _ => none
    let rest ← match skipBlanks rest with
      | ':' :: rest => some (skipBlanks rest)
      | _ => none
    let (j, rest) ← value fuel rest
    match skipBlanks rest with
    | '\x7d' :: rest => return ([(key, j)], rest)
    | ',' :: rest =>
      let (fs, rest) ← fields fuel (skipBlanks rest)
      return ((key, j) :: fs, rest)
    | _ => none

end

/-- Reads a document. No step goes without reading a character or following one that did. -/
def parse? (source : String) : Option (Json Literal) :=
  let cs := source.toList
  match value (2 * cs.length + 2) (skipBlanks cs) with
  | some (j, rest) => if (skipBlanks rest).isEmpty then some j else none
  | none => none

/-! ## Texts -/

mutual

/-- The document with the texts of its literals, if all of them have one. A repeated key has its last
value. -/
def texts? : Json Literal → Option (Json String)
  | .null => some .null
  | .bool b => some (.bool b)
  | .num n => some (.num n)
  | .str l => l.text?.map .str
  | .arr js => (textsOfItems? js).map .arr
  | .obj fs => (textsOfFields? fs).map fun fs => .obj (lastWins fs)

def textsOfItems? : List (Json Literal) → Option (List (Json String))
  | [] => some []
  | j :: rest => do return (← texts? j) :: (← textsOfItems? rest)

def textsOfFields? : List (Literal × Json Literal) → Option (List (String × Json String))
  | [] => some []
  | (key, j) :: rest => do return (← key.text?, ← texts? j) :: (← textsOfFields? rest)

end

def ofString? (source : String) : Option (Json String) :=
  (parse? source).bind texts?

end ExprText.Json
