import ExprText.Text.Statement

/-! # Bodies

The statements of a branch, a loop or a lambda, which can be laid out with braces and without. -/

namespace ExprText

structure Body where
  text : String
  /-- Whether the text is at most one statement. -/
  isSingle : Bool
  indent : String
deriving DecidableEq, Repr

namespace Body

def isEmpty (b : Body) : Bool :=
  b.text.isEmpty

/-- A text in braces on lines of their own. -/
def braces (text : String) : String :=
  "\x7b\n" ++ text ++ "\n\x7d"

/-- The terminated statements in braces, from a new line on. -/
def bracketed (b : Body) : String :=
  if b.isEmpty then "\n\x7b\n\x7d"
  else "\n" ++ braces (Text.indented b.indent (Text.terminated b.text))

def statements (b : Body) : String :=
  Text.terminated b.text

/-- The text without a semicolon at its end. -/
def expression (b : Body) : String :=
  Text.unterminated b.text

end Body

end ExprText
