import ExprText.Json.Basic
import ExprText.Text.Lines

/-! # Writing JSON

Values on one line without blanks. -/

namespace ExprText.Json

def hexChar (n : Nat) : Char :=
  if n < 10 then Char.ofNat ('0'.toNat + n) else Char.ofNat ('a'.toNat + (n - 10))

/-- A character inside a string literal. -/
def escapeChar (c : Char) : List Char :=
  if c = '"' then ['\\', '"']
  else if c = '\\' then ['\\', '\\']
  else if c = '\n' then ['\\', 'n']
  else if c.toNat < 0x20 then
    ['\\', 'u', '0', '0', hexChar (c.toNat / 16), hexChar (c.toNat % 16)]
  else [c]

def printString (s : String) : String :=
  String.ofList ('"' :: (s.toList.flatMap escapeChar ++ ['"']))

def Number.print : Number → String
  | .int value => toString value
  | .other text => text

mutual

def print : Json String → String
  | .null => "null"
  | .bool b => if b then "true" else "false"
  | .num n => n.print
  | .str s => printString s
  | .arr items => "[" ++ Text.join "," (printItems items) ++ "]"
  | .obj fields => "\x7b" ++ Text.join "," (printFields fields) ++ "\x7d"

def printItems : List (Json String) → List String
  | [] => []
  | j :: rest => j.print :: printItems rest

def printFields : List (String × Json String) → List String
  | [] => []
  | (key, j) :: rest => (printString key ++ ":" ++ j.print) :: printFields rest

end

end ExprText.Json
