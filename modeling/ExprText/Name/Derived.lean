import ExprText.Name.Keyword
import ExprText.Text.LowerCase
import ExprText.Ty.Name

/-! # Derived names

Identifiers that a compiler made hold one of the characters `<`, `>`, `$`. A readable name is taken
from such an identifier where it has a usable part, and otherwise from a type. -/

namespace ExprText.Name

/-- Whether a compiler rather than a person chose the name. -/
def isSynthesized (name : String) : Bool :=
  name.toList.any fun c => c == '<' || c == '>' || c == '$'

/-- The characters between the first `<` and the first `>` after it. -/
def bracketed (cs : List Char) : Option (List Char) :=
  match cs.dropWhile (· != '<') with
  | [] => none
  | _ :: rest => if rest.contains '>' then some (rest.takeWhile (· != '>')) else none

/-- The characters after the last two underscores in a row. -/
def afterUnderscores : List Char → Option (List Char)
  | [] => none
  | c :: rest =>
    match afterUnderscores rest with
    | some tail => some tail
    | none => if c = '_' ∧ rest.head? = some '_' then some rest.tail else none

/-- `some` of a list that is not empty. -/
def nonempty? : Option (List Char) → Option (List Char)
  | some (c :: cs) => some (c :: cs)
  | _ => none

/-- The readable part of a synthesized identifier: what stands in its first angle brackets, else what
follows its last two underscores. -/
def surrogate? (name : String) : Option String :=
  ((nonempty? (bracketed name.toList)).or (nonempty? (afterUnderscores name.toList))).map fun part =>
    avoidKeyword (String.ofList part)

/-- The name of a type in lower camel case, which may be a keyword. -/
def baseOf : Ty → String
  | .void => "void"
  | .named ns name args =>
    match Ty.keywordOf ns name args with
    | some keyword => keyword
    | none => Text.lowerFirst ((surrogate? name).getD name)
  | .array element _ => baseOf element ++ "Array"
  | .nullable inner => baseOf inner
  | .byRef inner => baseOf inner
  | .param name => Text.lowerFirst name

/-- A name for a value of a type: `intValue`, `intArray`, `stringBuilder`. -/
def ofTy (ty : Ty) : String :=
  avoidKeyword (baseOf ty)

/-- The name a synthesized identifier is shown as; `ty` gives the name where the identifier has no
readable part. -/
def readable (name : String) (ty : Ty) : String :=
  (surrogate? name).getD (ofTy ty)

end ExprText.Name
