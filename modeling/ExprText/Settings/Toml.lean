import ExprText.Settings.Form
import ExprText.Toml.Parser

/-! # Settings from TOML

Every setting is a key of the root table and has a default; other keys and tables are passed over. -/

namespace ExprText.Settings

def bool? : Toml.Item → Option Bool
  | .value (.boolean b) => some b
  | _ => none

def nat? : Toml.Item → Option Nat
  | .value (.integer n) => if 0 ≤ n then some n.toNat else none
  | _ => none

/-- The setting at a key of the root table, or its default. -/
def entryOr {α : Type} (default : α) (read : Toml.Item → Option α) (root : Toml.Entries) (key : String) :
    Option α :=
  match root.lookup key with
  | none => some default
  | some item => read item

def ofToml? (root : Toml.Entries) : Option Settings := do
  let d : Settings := {}
  return { explicitGenerics := ← entryOr d.explicitGenerics bool? root "use_explicit_generic_parameters"
           qualifiedTypeNames := ← entryOr d.qualifiedTypeNames bool? root "use_fully_qualified_type_names"
           lineWidth := ← entryOr d.lineWidth nat? root "line_width"
           indentWidth := ← entryOr d.indentWidth nat? root "indent_width" }

def parseToml? (source : String) : Option Settings :=
  (Toml.parse? source).bind ofToml?

end ExprText.Settings
