import ExprText.Form.Basic
import ExprText.Ty.Basic

/-! # The form of types -/

namespace ExprText

/-- The parts of a named type. -/
structure NamedTy where
  ns : Option String
  name : String
  args : List Ty
deriving DecidableEq, Repr

namespace NamedTy

def toTy (t : NamedTy) : Ty := .named t.ns t.name t.args

def fieldNames : List String := ["namespace", "name", "args"]

/-- Reads the parts of a named type; `readTy` reads its arguments. -/
def read (readTy : Json String → Option Ty) (j : Json String) : Option NamedTy := do
  match ← Form.record fieldNames j with
  | [ns, name, args] =>
    return { ns := ← Form.optional Form.string? ns
             name := ← Form.required Form.string? name
             args := ← Form.defaulted [] (Form.list? readTy) args }
  | _ => none

end NamedTy

namespace Ty

/-- Reads a type that is nested at most as deep as the given number. -/
def read : Nat → Json String → Option Ty
  | 0, _ => none
  | depth + 1, j => do
    match ← Form.case? j with
    | ("void", payload) => if Form.isUnit payload then some .void else none
    | ("named", some payload) => (NamedTy.read (read depth) payload).map NamedTy.toTy
    | ("array", some (.obj fields)) =>
      return .array (← Form.required (read depth) (fields.lookup "element"))
        (← Form.required Form.nat? (fields.lookup "rank"))
    | ("nullable", some payload) => (read depth payload).map .nullable
    | ("generic_param", some payload) => (Form.string? payload).map .param
    | ("by_ref", some payload) => (read depth payload).map .byRef
    | _ => none

def ofJson? (j : Json String) : Option Ty :=
  read j.depth j

/-- The fields of a named type; arguments are left out where there are none. -/
def namedFields (ns : Option String) (name : String) (args : List (Json String)) :
    List (String × Json String) :=
  [("namespace", (ns.map Json.str).getD .null), ("name", .str name)] ++
    if args.isEmpty then [] else [("args", .arr args)]

mutual

def toJson : Ty → Json String
  | .void => .str "void"
  | .named ns name args => .obj [("named", .obj (namedFields ns name (toJsonAll args)))]
  | .array element rank => .obj [("array", .obj [("element", toJson element), ("rank", .nat rank)])]
  | .nullable inner => .obj [("nullable", toJson inner)]
  | .param name => .obj [("generic_param", .str name)]
  | .byRef inner => .obj [("by_ref", toJson inner)]

def toJsonAll : List Ty → List (Json String)
  | [] => []
  | t :: ts => toJson t :: toJsonAll ts

end

end Ty

namespace NamedTy

def ofJson? (j : Json String) : Option NamedTy :=
  read Ty.ofJson? j

def toJson (t : NamedTy) : Json String :=
  .obj (Ty.namedFields t.ns t.name (t.args.map Ty.toJson))

end NamedTy

end ExprText
