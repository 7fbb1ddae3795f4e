import ExprText.Json.Parser

/-! # Strings, numbers and dates of TOML

Each function reads a part from the start of a text and gives back what follows it. -/

namespace ExprText.Toml

def isBlank (c : Char) : Bool :=
  c == ' ' || c == '\t'

def skipBlanks (cs : List Char) : List Char :=
  cs.dropWhile isBlank

def newline? : List Char → Option (List Char)
  | '\n' :: rest => some rest
  | '\r' :: '\n' :: rest => some rest
  | _ => none

/-- Whether a character may stand in a line of text: all but control characters, of which only the tab
may. -/
def isTextChar (c : Char) : Bool :=
  c == '\t' || (0x20 ≤ c.toNat && c.toNat ≠ 0x7F)

/-! ## Strings -/

/-- The character that a number of hexadecimal digits names. -/
def scalar? (digits : List Char) : Option Char := do
  let n ← Json.hexNumber? digits
  if n < 0xD800 || (0xE000 ≤ n && n < 0x110000) then some (Char.ofNat n) else none

/-- The characters that a backslash may stand before, with what they mean. -/
def simpleEscapes : List (Char × Char) :=
  [('b', '\x08'), ('t', '\t'), ('n', '\n'), ('f', '\x0c'), ('r', '\r'), ('"', '"'), ('\\', '\\')]

def escape : List Char → Option (Char × List Char)
  | 'u' :: rest =>
    if rest.length < 4 then none else (scalar? (rest.take 4)).map (·, rest.drop 4)
  | 'U' :: rest =>
    if rest.length < 8 then none else (scalar? (rest.take 8)).map (·, rest.drop 8)
  | c :: rest => (simpleEscapes.lookup c).map (·, rest)
  | [] => none

/-- Reads a string in double quotes from after its opening quote on, in at most the given number of
steps. -/
def basicString : Nat → List Char → Option (List Char × List Char)
  | 0, _ => none
  | fuel + 1, cs =>
    match cs with
    | '"' :: rest => some ([], rest)
    | '\\' :: rest => do
      let (c, rest) ← escape rest
      let (text, rest) ← basicString fuel rest
      return (c :: text, rest)
    | c :: rest =>
      if isTextChar c then (basicString fuel rest).map fun (text, rest) => (c :: text, rest) else none
    | [] => none

def literalString : List Char → Option (List Char × List Char)
  | '\x27' :: rest => some ([], rest)
  | c :: rest =>
    if isTextChar c then (literalString rest).map fun (text, rest) => (c :: text, rest) else none
  | [] => none

/-- What follows a line break at the end of a line and all blanks and line breaks after it. -/
def escapedNewline? (cs : List Char) : Option (List Char) :=
  (newline? (skipBlanks cs)).map skipBreaks
where
  /-- Skips blanks and line breaks. -/
  skipBreaks : List Char → List Char
    | '\r' :: '\n' :: rest => skipBreaks rest
    | c :: rest => if isBlank c || c == '\n' then skipBreaks rest else c :: rest
    | [] => []

/-- The end of a string of several lines: three quotes, with up to two quotes of the text before
them. -/
def closing? (quote : Char) (cs : List Char) : Option (List Char × List Char) :=
  let count := (cs.takeWhile (· == quote)).length
  if count < 3 then none
  else some (List.replicate (min count 5 - 3) quote, cs.drop (min count 5))

/-- Reads a string of several lines up to three quotes, in at most the given number of steps; only
one in double quotes has escapes. -/
def multiLineString (quote : Char) : Nat → List Char → Option (List Char × List Char)
  | 0, _ => none
  | fuel + 1, cs =>
    match closing? quote cs, newline? cs with
    | some found, _ => some found
    | none, some rest => (multiLineString quote fuel rest).map fun (text, rest) => ('\n' :: text, rest)
    | none, none =>
      match cs with
      | [] => none
      | c :: rest =>
        if c == '\\' && quote == '"' then
          match escapedNewline? rest with
          | some rest => multiLineString quote fuel rest
          | none => do
            let (c, rest) ← escape rest
            let (text, rest) ← multiLineString quote fuel rest
            return (c :: text, rest)
        else if isTextChar c then
          (multiLineString quote fuel rest).map fun (text, rest) => (c :: text, rest)
        else none

/-- Reads a string value; a line break right after three opening quotes is dropped. -/
def string (cs : List Char) : Option (String × List Char) :=
  let read := match cs with
    | '"' :: '"' :: '"' :: rest => multiLineString '"' (rest.length + 1) ((newline? rest).getD rest)
    | '"' :: rest => basicString (rest.length + 1) rest
    | '\x27' :: '\x27' :: '\x27' :: rest =>
      multiLineString '\x27' (rest.length + 1) ((newline? rest).getD rest)
    | '\x27' :: rest => literalString rest
    | _ => none
  read.map fun (text, rest) => (String.ofList text, rest)

/-! ## Numbers -/

/-- Reads the rest of a run of digits, in which an underscore may stand between two of them. -/
def moreDigits (isDigit : Char → Bool) : List Char → List Char × List Char
  | '_' :: d :: rest =>
    if isDigit d then
      let (ds, rest) := moreDigits isDigit rest
      (d :: ds, rest)
    else ([], '_' :: d :: rest)
  | d :: rest =>
    if isDigit d then
      let (ds, rest) := moreDigits isDigit rest
      (d :: ds, rest)
    else ([], d :: rest)
  | [] => ([], [])

/-- Reads a run of digits, in which an underscore may stand between two of them. -/
def digits (isDigit : Char → Bool) : List Char → Option (List Char × List Char)
  | d :: rest =>
    if isDigit d then
      let (ds, rest) := moreDigits isDigit rest
      some (d :: ds, rest)
    else none
  | [] => none

/-- The number that digits write in a base. -/
def numberIn (base : Nat) (ds : List Char) : Nat :=
  ds.foldl (fun n d => base * n + (Json.hexDigit? d).getD 0) 0

/-- Whether an integer has at most 64 bits with its sign. -/
def fits (n : Int) : Bool :=
  -(Nat.pow 2 63 : Int) ≤ n && n < Nat.pow 2 63

/-- Reads a decimal integer; a leading zero is the whole of it. -/
def wholePart (cs : List Char) : Option ((List Char × List Char) × List Char) :=
  let (sign, cs) := Json.sign cs
  match cs with
  | '0' :: rest => some ((sign, ['0']), rest)
  | cs => (digits Char.isDigit cs).map fun (ds, rest) => ((sign, ds), rest)

/-- Reads an integer with a mark for its base, from after the mark on. -/
def markedInteger (base : Nat) (isDigit : Char → Bool) (cs : List Char) : Option (Int × List Char) := do
  let (ds, rest) ← digits isDigit cs
  let n : Int := numberIn base ds
  if fits n then some (n, rest) else none

def integer : List Char → Option (Int × List Char)
  | '0' :: 'x' :: rest => markedInteger 16 (fun c => (Json.hexDigit? c).isSome) rest
  | '0' :: 'o' :: rest => markedInteger 8 (fun c => '0' ≤ c && c ≤ '7') rest
  | '0' :: 'b' :: rest => markedInteger 2 (fun c => c == '0' || c == '1') rest
  | cs => do
    let ((sign, ds), rest) ← wholePart cs
    let n : Int := numberIn 10 ds
    let n := if sign = ['-'] then -n else n
    if fits n then some (n, rest) else none

/-- Whether the decimal `ds * 10 ^ scale` is too large for a binary64 number. -/
def overflows (ds : List Char) (scale : Int) : Bool :=
  let ds := ds.dropWhile (· == '0')
  let magnitude : Int := ds.length + scale
  if ds.isEmpty || magnitude < 309 then false
  else if 309 < magnitude then true
  else
    Nat.pow 2 1024 - Nat.pow 2 970 ≤
      numberIn 10 ds * Nat.pow 10 scale.toNat / Nat.pow 10 (-scale).toNat

def exponent : List Char → Option ((List Char × List Char) × List Char)
  | c :: rest =>
    if c == 'e' || c == 'E' then
      let (sign, rest) := Json.sign rest
      (digits Char.isDigit rest).map fun (ds, rest) => ((sign, ds), rest)
    else none
  | [] => none

def fraction : List Char → Option (List Char × List Char)
  | '.' :: rest => digits Char.isDigit rest
  | _ => none

/-- The words for values without digits. -/
def specialFloat (cs : List Char) : Option (String × List Char) :=
  let (sign, rest) := Json.sign cs
  ["inf", "nan"].findSome? fun word =>
    (Json.afterWord word.toList rest).map (String.ofList sign ++ word, ·)

/-- Reads a floating-point number: a whole part with a fraction, an exponent or both, or a word. One
that overflows upwards is refused. -/
def float (cs : List Char) : Option (String × List Char) :=
  match wholePart cs with
  | none => specialFloat cs
  | some ((sign, whole), rest) =>
    let (frac, afterFraction) := ((fraction rest).map fun (ds, rest) => (ds, rest)).getD ([], rest)
    let exp := exponent afterFraction
    let ((expSign, expDigits), afterExponent) := exp.getD (([], []), afterFraction)
    if frac.isEmpty && exp.isNone then none
    else
      let power : Int := numberIn 10 expDigits
      let power := if expSign = ['-'] then -power else power
      if sign ≠ ['-'] && overflows (whole ++ frac) (power - frac.length) then none
      else some (String.ofList (cs.take (cs.length - afterExponent.length)), afterExponent)

/-! ## Dates and times -/

/-- Reads a number of exactly `count` digits that lies in a range. -/
def fixedNumber (count low high : Nat) (cs : List Char) : Option (Nat × List Char) :=
  let ds := cs.take count
  let n := numberIn 10 ds
  if ds.length = count && ds.all Char.isDigit && low ≤ n && n ≤ high then some (n, cs.drop count)
  else none

def char? (c : Char) : List Char → Option (List Char)
  | d :: rest => if c = d then some rest else none
  | [] => none

def daysIn (year month : Nat) : Nat :=
  if month = 2 then
    if year % 4 = 0 && (year % 100 ≠ 0 || year % 400 = 0) then 29 else 28
  else if [4, 6, 9, 11].contains month then 30
  else 31

def date (cs : List Char) : Option (List Char) := do
  let (year, cs) ← fixedNumber 4 0 9999 cs
  let (month, cs) ← fixedNumber 2 1 12 (← char? '-' cs)
  let (_, cs) ← fixedNumber 2 1 (daysIn year month) (← char? '-' cs)
  return cs

/-- Reads a time; the sixtieth second is for leap seconds. -/
def time (cs : List Char) : Option (List Char) := do
  let (_, cs) ← fixedNumber 2 0 23 cs
  let (_, cs) ← fixedNumber 2 0 59 (← char? ':' cs)
  let (_, cs) ← fixedNumber 2 0 60 (← char? ':' cs)
  match char? '.' cs with
  | some rest =>
    if rest.head?.any Char.isDigit then return rest.dropWhile Char.isDigit else return cs
  | none => return cs

def offset : List Char → Option (List Char)
  | c :: rest =>
    if c == 'Z' || c == 'z' then some rest
    else if c == '+' || c == '-' then do
      let (_, rest) ← fixedNumber 2 0 23 rest
      let (_, rest) ← fixedNumber 2 0 59 (← char? ':' rest)
      return rest
    else none
  | [] => none

def timeAfterDate : List Char → Option (List Char)
  | c :: rest =>
    if c == 'T' || c == 't' || c == ' ' then
      (time rest).map fun rest => (offset rest).getD rest
    else none
  | [] => none

/-- Reads a date, a date with a time, or a time. -/
def datetime (cs : List Char) : Option (String × List Char) :=
  let rest := match date cs with
    | some rest => some ((timeAfterDate rest).getD rest)
    | none => time cs
  rest.map fun rest => (String.ofList (cs.take (cs.length - rest.length)), rest)

end ExprText.Toml
