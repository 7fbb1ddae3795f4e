/-! # Lines of text

A text is a list of lines with a line break between each two, so it has one line more than it has
breaks. Indenting puts the same blanks before every line that is not empty. -/

namespace ExprText.Text

/-- The texts one after another with `sep` between each two. -/
def join (sep : String) : List String → String
  | [] => ""
  | [s] => s
  | s :: t :: rest => s ++ sep ++ join sep (t :: rest)

/-- The stretches of `cs` between line breaks; there is always a last one. -/
def splitLines : List Char → List (List Char)
  | [] => [[]]
  | c :: cs =>
    if c = '\n' then [] :: splitLines cs
    else
      match splitLines cs with
      | [] => [[c]]
      | l :: ls => (c :: l) :: ls

/-- The lines of a text, without their line breaks. -/
def lines (text : String) : List String :=
  (splitLines text.toList).map String.ofList

/-- Puts `indent` before every line of `text` that is not empty. -/
def indented (indent text : String) : String :=
  join "\n" ((lines text).map fun line => if line.isEmpty then line else indent ++ line)

def isMultiLine (text : String) : Bool :=
  text.toList.contains '\n'

/-- The number of UTF-8 bytes of a text, the measure that line widths are compared with. -/
def width (text : String) : Nat :=
  text.utf8ByteSize

def blanks (n : Nat) : String :=
  String.ofList (List.replicate n ' ')

end ExprText.Text
