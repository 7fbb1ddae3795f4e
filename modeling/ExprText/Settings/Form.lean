import ExprText.Form.Basic
import ExprText.Json.Parser
import ExprText.Settings.Basic

/-! # Settings from JSON

Every setting has a default. A document may hold other keys, but no setting twice. -/

namespace ExprText.Settings

def fieldNames : List String :=
  ["use_explicit_generic_parameters", "use_fully_qualified_type_names", "line_width", "indent_width"]

/-- Reads the values of the four settings. -/
def ofValues? {σ : Type} : List (Option (Json σ)) → Option Settings
  | [explicitGenerics, qualifiedTypeNames, lineWidth, indentWidth] => do
    let d : Settings := {}
    return { explicitGenerics := ← Form.defaulted d.explicitGenerics Form.bool? explicitGenerics
             qualifiedTypeNames := ← Form.defaulted d.qualifiedTypeNames Form.bool? qualifiedTypeNames
             lineWidth := ← Form.defaulted d.lineWidth Form.nat? lineWidth
             indentWidth := ← Form.defaulted d.indentWidth Form.nat? indentWidth }
  | _ => none

def ofJson? (j : Json String) : Option Settings :=
  (Form.record fieldNames j).bind ofValues?

def toJson (s : Settings) : Json String :=
  .obj [("use_explicit_generic_parameters", .bool s.explicitGenerics),
    ("use_fully_qualified_type_names", .bool s.qualifiedTypeNames), ("line_width", .nat s.lineWidth),
    ("indent_width", .nat s.indentWidth)]

/-- Whether none of the given names is the key of two fields. -/
def atMostOnce {α : Type} (names : List String) (fields : List (String × α)) : Bool :=
  names.all fun name => (fields.filter (·.1 == name)).length ≤ 1

/-- The keys of fields as texts, if all of them have one. -/
def textKeys? (fields : List (Json.Literal × Json Json.Literal)) :
    Option (List (String × Json Json.Literal)) :=
  fields.mapM fun (key, value) => key.text?.map (·, value)

/-- Reads settings from a document. Only the keys of the settings have to be texts: what stands in
other values is passed over. -/
def ofDocument? : Json Json.Literal → Option Settings
  | .obj fields => do
    let fields ← textKeys? fields
    if atMostOnce fieldNames fields then ofValues? (Form.named fieldNames fields) else none
  | .arr items => (Form.placed fieldNames items).bind ofValues?
  | _ => none

def parseJson? (source : String) : Option Settings :=
  (Json.parse? source).bind ofDocument?

end ExprText.Settings
