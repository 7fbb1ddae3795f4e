import ExprText.Form.Ty
import ExprText.Member

/-! # The forms of signatures -/

namespace ExprText

namespace Modifier

def all : List Modifier := [.value, .ref, .out, .params]

def name : Modifier → String
  | .value => "value"
  | .ref => "ref"
  | .out => "out"
  | .params => "params"

def ofJson? : Json String → Option Modifier :=
  Form.unitCase? fun name => all.find? (·.name == name)

def toJson (m : Modifier) : Json String := .str m.name

end Modifier

namespace MethodKind

def all : List MethodKind := [.onInstance, .static, .extension]

def name : MethodKind → String
  | .onInstance => "instance"
  | .static => "static"
  | .extension => "extension"

def ofJson? : Json String → Option MethodKind :=
  Form.unitCase? fun name => all.find? (·.name == name)

def toJson (k : MethodKind) : Json String := .str k.name

end MethodKind

namespace Parameter

def fieldNames : List String := ["name", "ty", "modifier"]

def ofJson? (j : Json String) : Option Parameter := do
  match ← Form.record fieldNames j with
  | [name, ty, modifier] =>
    return { name := ← Form.required Form.string? name
             ty := ← Form.required Ty.ofJson? ty
             modifier := ← Form.defaulted .value Modifier.ofJson? modifier }
  | _ => none

def toJson (p : Parameter) : Json String :=
  .obj [("name", .str p.name), ("ty", p.ty.toJson), ("modifier", p.modifier.toJson)]

end Parameter

namespace Accessor

def fieldNames : List String := ["property", "index_params", "is_setter"]

def ofJson? (j : Json String) : Option Accessor := do
  match ← Form.record fieldNames j with
  | [property, indexParams, isSetter] =>
    return { property := ← Form.required Form.string? property
             indexParams := ← Form.required Form.nat? indexParams
             isSetter := ← Form.required Form.bool? isSetter }
  | _ => none

def toJson (a : Accessor) : Json String :=
  .obj [("property", .str a.property), ("index_params", .nat a.indexParams),
    ("is_setter", .bool a.isSetter)]

end Accessor

namespace Method

def fieldNames : List String :=
  ["name", "declaring_type", "kind", "params", "return_type", "generic_params", "generic_args",
    "accessor"]

def ofJson? (j : Json String) : Option Method := do
  match ← Form.record fieldNames j with
  | [name, declaringType, kind, params, returnType, genericParams, genericArgs, accessor] =>
    return { name := ← Form.required Form.string? name
             declaringType := ← Form.required Ty.ofJson? declaringType
             kind := ← Form.required MethodKind.ofJson? kind
             params := ← Form.required (Form.list? Parameter.ofJson?) params
             returnType := ← Form.required Ty.ofJson? returnType
             genericParams := ← Form.defaulted [] (Form.list? Form.string?) genericParams
             genericArgs := ← Form.defaulted [] (Form.list? Ty.ofJson?) genericArgs
             accessor := ← Form.optional Accessor.ofJson? accessor }
  | _ => none

def toJson (m : Method) : Json String :=
  .obj [("name", .str m.name), ("declaring_type", m.declaringType.toJson), ("kind", m.kind.toJson),
    ("params", .arr (m.params.map Parameter.toJson)), ("return_type", m.returnType.toJson),
    ("generic_params", .arr (m.genericParams.map .str)),
    ("generic_args", .arr (m.genericArgs.map Ty.toJson)),
    ("accessor", (m.accessor.map Accessor.toJson).getD .null)]

end Method

namespace Member

def fieldNames : List String := ["name", "declaring_type", "ty", "is_static"]

def ofJson? (j : Json String) : Option Member := do
  match ← Form.record fieldNames j with
  | [name, declaringType, ty, isStatic] =>
    return { name := ← Form.required Form.string? name
             declaringType := ← Form.required Ty.ofJson? declaringType
             ty := ← Form.required Ty.ofJson? ty
             isStatic := ← Form.defaulted false Form.bool? isStatic }
  | _ => none

def toJson (m : Member) : Json String :=
  .obj [("name", .str m.name), ("declaring_type", m.declaringType.toJson), ("ty", m.ty.toJson),
    ("is_static", .bool m.isStatic)]

end Member

end ExprText
