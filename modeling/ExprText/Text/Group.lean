/-! # Parenthesised groups

A group is a text inside one pair of parentheses that match each other: `(a + b)` is a group, and
`(a + b).X()` and `(int)x` are not. Parentheses inside quoted literals do not count. -/

namespace ExprText.Text

/-- Where a scan of program text stands: how many parentheses are open, the quote of the literal it
is inside of, and whether the literal's last character was an escape. -/
structure Scan where
  depth : Nat := 0
  quote : Option Char := none
  escaped : Bool := false
deriving DecidableEq, Repr

namespace Scan

/-- Reads one character. A closing parenthesis with none open is passed over. -/
def step (s : Scan) (c : Char) : Scan :=
  match s.quote with
  | some q =>
    if s.escaped then { s with escaped := false }
    else if c = '\\' then { s with escaped := true }
    else if c = q then { s with quote := none }
    else s
  | none =>
    if c = '"' ∨ c = '\x27' then { s with quote := some c }
    else if c = '(' then { s with depth := s.depth + 1 }
    else if c = ')' then { s with depth := s.depth - 1 }
    else s

/-- Whether the first closing parenthesis that leaves none open is the last character. -/
def closesAtEnd (s : Scan) : List Char → Bool
  | [] => false
  | c :: rest =>
    if s.quote = none ∧ c = ')' ∧ (s.step c).depth = 0 then rest.isEmpty
    else (s.step c).closesAtEnd rest

end Scan

/-- Whether `text` stands inside one pair of parentheses that match each other. -/
def isGroup (text : String) : Bool :=
  let cs := text.toList
  cs.head? == some '(' && cs.getLast? == some ')' && ({} : Scan).closesAtEnd cs

/-- Takes off the parentheses of a group; any other text stays as it is. -/
def withoutParens (text : String) : String :=
  if isGroup text then String.ofList text.toList.tail.dropLast else text

/-- Puts `text` in parentheses unless it is a group. -/
def withParens (text : String) : String :=
  if isGroup text then text else "(" ++ text ++ ")"

end ExprText.Text
