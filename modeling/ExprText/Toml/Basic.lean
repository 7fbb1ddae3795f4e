/-! # TOML documents

The values of a document, and the tables that its headers and keys build. -/

namespace ExprText.Toml

inductive Value where
  | string (text : String)
  | integer (value : Int)
  /-- A floating-point number as it is written. -/
  | float (text : String)
  | boolean (value : Bool)
  /-- A date, a time or both, as written. -/
  | datetime (text : String)
  | array (items : List Value)
  /-- An inline table. A table that dotted keys made may get more keys, one in braces may not. -/
  | table (dotted : Bool) (fields : List (String × Value))
deriving Repr, Inhabited

/-- How a table came into being. -/
inductive Origin where
  /-- A header named it, or it is the root. -/
  | header
  /-- It lies on the way to a table that a header named. -/
  | implied
  /-- It lies on the way of a dotted key. -/
  | dotted
deriving DecidableEq, Repr

inductive Item where
  | value (v : Value)
  | table (origin : Origin) (entries : List (String × Item))
  /-- An array of tables; keys and headers reach its last table. -/
  | tables (all : List (List (String × Item)))
deriving Inhabited

abbrev Entries := List (String × Item)

/-- Gives `key` a new item, in its place if it has one. -/
def setEntry (key : String) (item : Item) : Entries → Entries
  | [] => [(key, item)]
  | (k, old) :: rest => if k = key then (k, item) :: rest else (k, old) :: setEntry key item rest

/-! ## Changes along a path -/

/-- Changes the table at the end of a path. Missing tables are made, with `dotted` by a dotted key and
otherwise by a header; a dotted key must not enter a table that a header named. -/
def alter (dotted : Bool) (change : Origin → Entries → Option Entries) :
    List String → Origin → Entries → Option Entries
  | [], origin, entries => change origin entries
  | key :: path, _, entries =>
    match entries.lookup key with
    | none =>
      let origin := if dotted then .dotted else .implied
      (alter dotted change path origin []).map fun sub => setEntry key (.table origin sub) entries
    | some (.value _) => none
    | some (.table origin sub) =>
      if dotted && origin == .header then none
      else (alter dotted change path origin sub).map fun sub => setEntry key (.table origin sub) entries
    | some (.tables all) =>
      match all.getLast? with
      | none => none
      | some last =>
        (alter dotted change path .header last).map fun last =>
          setEntry key (.tables (all.dropLast ++ [last])) entries

/-- Gives a value to a key that has none. `dottedPath` is what stands before the last dot of the key:
such a key must end in a table of dotted keys. -/
def insertValue (dottedPath : List String) (key : String) (v : Value) : Entries → Option Entries :=
  alter true
    (fun origin entries =>
      if (dottedPath.isEmpty || origin == .dotted) && (entries.lookup key).isNone then
        some (entries ++ [(key, .value v)])
      else none)
    dottedPath .header

/-- Opens the table of a header; it must be new, or lie on the way of earlier headers only. -/
def openTable (path : List String) (key : String) : Entries → Option Entries :=
  alter false
    (fun _ entries =>
      match entries.lookup key with
      | none => some (entries ++ [(key, .table .header [])])
      | some (.table .implied sub) => some (setEntry key (.table .header sub) entries)
      | some _ => none)
    path .header

/-- Adds a table to an array of tables. -/
def pushTable (path : List String) (key : String) : Entries → Option Entries :=
  alter false
    (fun _ entries =>
      match entries.lookup key with
      | none => some (entries ++ [(key, .tables [[]])])
      | some (.tables all) => some (setEntry key (.tables (all ++ [[]])) entries)
      | some _ => none)
    path .header

/-- Changes the table that the last header opened. -/
def alterCurrent (path : List String) (change : Entries → Option Entries) (root : Entries) :
    Option Entries :=
  alter false (fun _ entries => change entries) path .header root

/-! ## Inline tables -/

/-- Gives a value to a key of an inline table that has none. -/
def insertField : List String → String → Value → List (String × Value) → Option (List (String × Value))
  | [], key, v, fields => if (fields.lookup key).isSome then none else some (fields ++ [(key, v)])
  | part :: path, key, v, fields =>
    match fields.lookup part with
    | none => (insertField path key v []).map fun sub => fields ++ [(part, .table true sub)]
    | some (.table true sub) =>
      (insertField path key v sub).map fun sub =>
        fields.map fun (k, old) => if k = part then (k, .table true sub) else (k, old)
    | some _ => none

end ExprText.Toml
