/-! # Keywords

The reserved words of the language that texts are shown in. -/

namespace ExprText.Name

def keywords : List String :=
  ["abstract", "as", "base", "bool", "break", "byte", "case", "catch", "char", "checked", "class",
    "const", "continue", "decimal", "default", "delegate", "do", "double", "else", "enum", "event",
    "explicit", "extern", "false", "finally", "fixed", "float", "for", "foreach", "goto", "if",
    "implicit", "in", "int", "interface", "internal", "is", "lock", "long", "namespace", "new", "null",
    "object", "operator", "out", "override", "params", "private", "protected", "public", "readonly",
    "ref", "return", "sbyte", "sealed", "short", "sizeof", "stackalloc", "static", "string", "struct",
    "switch", "this", "throw", "true", "try", "typeof", "uint", "ulong", "unchecked", "unsafe",
    "ushort", "using", "virtual", "void", "volatile", "while"]

def isKeyword (name : String) : Bool :=
  keywords.contains name

/-- A name that is no keyword: a keyword gets the ending `Value`. -/
def avoidKeyword (name : String) : String :=
  if isKeyword name then name ++ "Value" else name

end ExprText.Name
