import ExprText.Ty.Basic
import ExprText.Text.Lines

/-! # Names of types

A type is shown as source text writes it: with the keyword of a `System` type where it has one, with
its arguments in angle brackets, and with its namespace only on request. -/

namespace ExprText.Ty

/-- The keywords of `System` types. -/
def keywords : List (String × String) :=
  [("Boolean", "bool"), ("Byte", "byte"), ("SByte", "sbyte"), ("Char", "char"), ("Decimal", "decimal"),
    ("Double", "double"), ("Single", "float"), ("Int16", "short"), ("UInt16", "ushort"), ("Int32", "int"),
    ("UInt32", "uint"), ("Int64", "long"), ("UInt64", "ulong"), ("Object", "object"), ("String", "string"),
    ("Void", "void")]

/-- The keyword of a named type; only a `System` type without arguments has one. -/
def keywordOf (ns : Option String) (name : String) (args : List Ty) : Option String :=
  if ns = some "System" ∧ args.isEmpty then keywords.lookup name else none

def keyword? : Ty → Option String
  | .named ns name args => keywordOf ns name args
  | _ => none

/-- The brackets of an array type: one comma less than dimensions. -/
def rankBrackets (rank : Nat) : String :=
  "[" ++ String.ofList (List.replicate (rank - 1) ',') ++ "]"

/-- The name of a named type that has no keyword, from the names of its arguments. -/
def namedDisplay (qualified : Bool) (ns : Option String) (name : String) (args : List String) : String :=
  let base :=
    match ns, qualified with
    | some ns, true => ns ++ "." ++ name
    | _, _ => name
  if args.isEmpty then base else base ++ "<" ++ Text.join ", " args ++ ">"

mutual

/-- The name of a type; `qualified` shows the namespaces of named types. -/
def display (qualified : Bool) : Ty → String
  | .void => "void"
  | .named ns name args =>
    match keywordOf ns name args with
    | some keyword => keyword
    | none =>
      match displayAll qualified args with
      | [inner] =>
        if ns = some "System" ∧ name = "Nullable" then inner ++ "?"
        else namedDisplay qualified ns name [inner]
      | shown => namedDisplay qualified ns name shown
  | .array element rank => display qualified element ++ rankBrackets rank
  | .nullable inner => display qualified inner ++ "?"
  | .param name => name
  | .byRef inner => display qualified inner

def displayAll (qualified : Bool) : List Ty → List String
  | [] => []
  | t :: ts => display qualified t :: displayAll qualified ts

end

end ExprText.Ty
