import ExprText.Text.Lines
import ExprText.Text.WhiteSpace

/-! # Statements and comments

A statement ends in a semicolon unless its last character already closes it or its last line is a
comment. -/

namespace ExprText.Text

/-- What a comment line starts with. -/
def commentMark : String := "// "

/-- Whether `text` starts as a comment, white space aside. -/
def isComment (text : String) : Bool :=
  commentMark.toList.isPrefixOf (trimStart text.toList)

/-- The characters after which a statement needs no semicolon. -/
def terminators : List Char := [';', '\x7d', ':', ',']

/-- Whether a statement needs no semicolon. -/
def isTerminated (text : String) : Bool :=
  text.toList.getLast?.any terminators.contains || (lines text).getLast?.any isComment

/-- Ends a statement; nothing stays nothing. -/
def terminated (text : String) : String :=
  if text.isEmpty || isTerminated text then text else text ++ ";"

/-- Takes off one semicolon at the end. -/
def unterminated (text : String) : String :=
  if text.toList.getLast? = some ';' then String.ofList text.toList.dropLast else text

/-- Every line of `text` as a comment line; white space around the text and at the ends of its lines
is dropped. -/
def asComment (text : String) : String :=
  join "\n" ((splitLines (trim text.toList)).map fun line =>
    commentMark ++ String.ofList (trimEnd line))

end ExprText.Text
