import ExprText.Decimal.Shortest
import ExprText.Render.Session
import ExprText.Text.Literal

/-! # Leaves

Constants, variables and default values. -/

namespace ExprText.Render

open RenderM

/-- A floating-point literal: a number with its suffix, or the member of the number's type that
stands for a value without digits. -/
def floatText (format : Decimal.Format) (keyword suffix : String) (bits : Nat) : String :=
  match format.decode bits with
  | .nan => keyword ++ ".NaN"
  | .infinite false => keyword ++ ".PositiveInfinity"
  | .infinite true => keyword ++ ".NegativeInfinity"
  | .finite negative significand exponent atBinade =>
    Decimal.finiteText negative significand exponent atBinade ++ suffix

def constantText : Constant → RenderM String
  | .null => return "null"
  | .bool value => return if value then "true" else "false"
  | .int value => return toString value.toInt
  | .long value => return toString value.toInt ++ "L"
  | .float bits => return floatText Decimal.binary32 "float" "f" bits.toNat
  | .double bits => return floatText Decimal.binary64 "double" "d" bits.toNat
  | .decimal digits => return digits ++ "m"
  | .char value => return Text.quoted '\x27' [value]
  | .string value => return Text.quoted '"' value.toList
  | .type ty => return "typeof(" ++ (← typeName ty) ++ ")"
  | .enum ty member => return (← typeName ty) ++ "." ++ member
  | .captured object => capturedName object

def constant : Expr → RenderM String
  | .constant _ value _ => constantText value
  | _ => refuse (.expected .constant)

def variableName : Expr → RenderM String
  | .variable _ target => nameOf target
  | _ => refuse (.expected .variable)

/-- The declared name of a variable in capitals, or that it has none; letters beyond ASCII stay as
they are. -/
def shouting : Expr → RenderM String
  | .variable _ target =>
    return String.ofList ((target.name.getD "unnamed").toList.map Char.toUpper)
  | _ => refuse (.expected .variable)

/-- The default value of a type; the empty expression shows nothing. -/
def default : Expr → RenderM String
  | .default _ ty => do
    if ty.isVoid then return "" else return "default(" ++ (← typeName ty) ++ ")"
  | _ => refuse (.expected .default)

end ExprText.Render
