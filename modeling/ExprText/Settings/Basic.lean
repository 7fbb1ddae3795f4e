import ExprText.Text.Lines

/-! # Settings

The options of one rendering. -/

namespace ExprText

structure Settings where
  /-- Shows the type arguments of generic calls even where they can be inferred. -/
  explicitGenerics : Bool := false
  qualifiedTypeNames : Bool := false
  /-- Argument lists longer than this are split, one argument a line. -/
  lineWidth : Nat := 100
  indentWidth : Nat := 4
deriving DecidableEq, Repr, Inhabited

namespace Settings

def withExplicitGenerics (s : Settings) : Settings :=
  { s with explicitGenerics := true }

def withQualifiedTypeNames (s : Settings) : Settings :=
  { s with qualifiedTypeNames := true }

def withLineWidth (s : Settings) (n : Nat) : Settings :=
  { s with lineWidth := n }

def indent (s : Settings) : String :=
  Text.blanks s.indentWidth

end Settings

end ExprText
