import ExprText.Toml.Basic
import ExprText.Toml.Scalar

/-! # Reading TOML

A document is read line by line: a line is empty, gives a value to a key, or is a header. No key and
no table is defined twice. -/

namespace ExprText.Toml

/-- Keys have fewer parts than this, and values are nested less deep. -/
def nestingLimit : Nat := 80

/-! ## Keys -/

def isBareKeyChar (c : Char) : Bool :=
  c.isAlphanum || c == '_' || c == '-'

def keyPart (cs : List Char) : Option (String × List Char) :=
  match cs with
  | '"' :: rest => (basicString (rest.length + 1) rest).map fun (text, rest) => (String.ofList text, rest)
  | '\x27' :: rest => (literalString rest).map fun (text, rest) => (String.ofList text, rest)
  | cs =>
    match cs.takeWhile isBareKeyChar with
    | [] => none
    | name => some (String.ofList name, cs.dropWhile isBareKeyChar)

/-- Reads the parts of a key with dots between them, at most as many as given. -/
def keyParts : Nat → List Char → Option (List String × List Char)
  | 0, _ => none
  | fuel + 1, cs => do
    let (part, rest) ← keyPart (skipBlanks cs)
    match skipBlanks rest with
    | '.' :: rest =>
      let (parts, rest) ← keyParts fuel rest
      return (part :: parts, rest)
    | rest => return ([part], rest)

/-- Reads a key: the parts before the last one, and the last one. -/
def key (cs : List Char) : Option ((List String × String) × List Char) := do
  let (parts, rest) ← keyParts (nestingLimit - 1) cs
  return ((parts.dropLast, ← parts.getLast?), rest)

/-! ## Values -/

/-- Skips blanks, line breaks and comments inside an array. -/
def skipTrivia (inComment : Bool) : List Char → List Char
  | [] => []
  | '\r' :: '\n' :: rest => skipTrivia false rest
  | c :: rest =>
    if c == '\n' then skipTrivia false rest
    else if inComment then if isTextChar c then skipTrivia true rest else c :: rest
    else if isBlank c then skipTrivia false rest
    else if c == '#' then skipTrivia true rest
    else c :: rest

/-- Reads a date, a time or a number. -/
def numeric (cs : List Char) : Option (Value × List Char) :=
  ((datetime cs).map fun (text, rest) => (Value.datetime text, rest)).or <|
    ((float cs).map fun (text, rest) => (Value.float text, rest)).or <|
      (integer cs).map fun (n, rest) => (Value.integer n, rest)

mutual

/-- Reads a value. `depth` is how many more values may be nested in it; every value and every comma
takes one of the given steps. -/
def value : Nat → Nat → List Char → Option (Value × List Char)
  | 0, _, _ => none
  | fuel + 1, depth, cs =>
    match cs with
    | '"' :: _ | '\x27' :: _ => (string cs).map fun (text, rest) => (.string text, rest)
    | '[' :: rest =>
      match depth with
      | 0 => none
      | depth + 1 => (items fuel depth (skipTrivia false rest)).map fun (vs, rest) => (.array vs, rest)
    | '\x7b' :: rest =>
      match depth with
      | 0 => none
      | depth + 1 =>
        match skipBlanks rest with
        | '\x7d' :: rest => some (.table false [], rest)
        | rest => (fields fuel depth [] rest).map fun (fs, rest) => (.table false fs, rest)
    | 't' :: _ => (Json.afterWord "true".toList cs).map (.boolean true, ·)
    | 'f' :: _ => (Json.afterWord "false".toList cs).map (.boolean false, ·)
    | _ => numeric cs

/-- Reads the items of an array up to its closing bracket, before which a comma may stand. -/
def items : Nat → Nat → List Char → Option (List Value × List Char)
  | 0, _, _ => none
  | fuel + 1, depth, cs =>
    match cs with
    | ']' :: rest => some ([], rest)
    | cs => do
      let (v, rest) ← value fuel depth cs
      match skipTrivia false rest with
      | ']' :: rest => return ([v], rest)
      | ',' :: rest =>
        let (vs, rest) ← items fuel depth (skipTrivia false rest)
        return (v :: vs, rest)
      | _ => none

/-- Reads the fields of an inline table up to its closing brace, and adds them to those before. -/
def fields : Nat → Nat → List (String × Value) → List Char →
    Option (List (String × Value) × List Char)
  | 0, _, _, _ => none
  | fuel + 1, depth, before, cs => do
    let ((path, name), rest) ← key cs
    let rest ← char? '=' rest
    let (v, rest) ← value fuel depth (skipBlanks rest)
    let all ← insertField path name v before
    match skipBlanks rest with
    | '\x7d' :: rest => return (all, rest)
    | ',' :: rest => fields fuel depth all rest
    | _ => none

end

/-! ## Lines -/

/-- What follows the end of a line, before which blanks and a comment may stand. -/
def lineEnd? (cs : List Char) : Option (List Char) :=
  let cs := match skipBlanks cs with
    | '#' :: rest => rest.dropWhile isTextChar
    | cs => cs
  if cs.isEmpty then some [] else newline? cs

/-- The tables read so far, and the path to the one that the last header opened. -/
structure State where
  root : Entries := []
  current : List String := []

def header (s : State) (cs : List Char) : Option (State × List Char) :=
  match cs with
  | '[' :: '[' :: rest => do
    let ((path, name), rest) ← key rest
    let rest ← char? ']' rest
    let rest ← char? ']' rest
    return ({ root := ← pushTable path name s.root, current := path ++ [name] }, rest)
  | '[' :: rest => do
    let ((path, name), rest) ← key rest
    let rest ← char? ']' rest
    return ({ root := ← openTable path name s.root, current := path ++ [name] }, rest)
  | _ => none

def keyValue (s : State) (cs : List Char) : Option (State × List Char) := do
  let ((path, name), rest) ← key cs
  let rest ← char? '=' rest
  let (v, rest) ← value (2 * rest.length + 2) (nestingLimit - 1) (skipBlanks rest)
  return ({ s with root := ← alterCurrent s.current (insertValue path name v) s.root }, rest)

/-- Reads what a line holds besides blanks and a comment. -/
def line (s : State) (cs : List Char) : Option (State × List Char) :=
  match cs with
  | [] | '#' :: _ | '\n' :: _ | '\r' :: _ => some (s, cs)
  | '[' :: _ => header s cs
  | cs => keyValue s cs

/-- Reads lines to the end of the text, at most as many as given. -/
def document : Nat → State → List Char → Option Entries
  | 0, _, _ => none
  | fuel + 1, s, cs => do
    let (s, rest) ← line s (skipBlanks cs)
    match ← lineEnd? rest with
    | [] => return s.root
    | rest => document fuel s rest

/-- Reads a document, which may start with a byte order mark. -/
def parse? (source : String) : Option Entries :=
  let cs := match source.toList with
    | '\uFEFF' :: rest => rest
    | cs => cs
  document (cs.length + 1) {} cs

end ExprText.Toml
