import ExprText.Form.Kind
import ExprText.Form.Member
import ExprText.Proofs.Run
import ExprText.Settings.Form
import Mathlib.Algebra.Group.Nat.Defs

/-! # Forms read back

What is written of a value is read as that value. A record is read as well from an array of the values of
its fields, and from an object that has other fields beside its own. The numbers in a value must have at
most 64 bits. -/

namespace ExprText

/-! ### Records -/

namespace Form

/-- Whether numbers have at most 64 bits. -/
def Sized (numbers : List Nat) : Prop :=
  ∀ n ∈ numbers, n < 2 ^ 64

instance (numbers : List Nat) : Decidable (Sized numbers) :=
  inferInstanceAs (Decidable (∀ n ∈ numbers, n < 2 ^ 64))

/-- Whether a record `x` that is written as `json`, and the fields of which have the given names and
    values, is read back from all its forms. -/
structure ReadsBack {α : Type} (read : Json String → Option α) (names : List String)
    (values : List (Json String)) (json : Json String) (x : α) : Prop where
  written : read json = some x
  /-- What is written is an object of fields with these values. Fields that stand in another order, or
      among fields of other names, are read the same. -/
  object : ∃ fields, json = .obj fields ∧ fields.Sublist (names.zip values) ∧
    ∀ all : List (String × Json String), (∀ name ∈ names, all.lookup name = fields.lookup name) →
      read (.obj all) = some x
  placed : values.length = names.length ∧ read (.arr values) = some x

theorem placed_eq {σ : Type} {names : List String} {values : List (Json σ)}
    (h : values.length = names.length) : placed names values = some (values.map some) := by
  simp [placed, h]

/-- A record that is made of the values of its fields is read back if it is from what is written of these
    values and from all of them. -/
theorem ReadsBack.of_values {α : Type} {read : Json String → Option α} {names : List String}
    {values : List (Json String)} {fields : List (String × Json String)} {x : α}
    {make : List (Option (Json String)) → Option α} (hread : ∀ j, read j = (record names j).bind make)
    (hlength : values.length = names.length) (hfields : fields.Sublist (names.zip values))
    (hnamed : make (named names fields) = some x) (hplaced : make (values.map some) = some x) :
    ReadsBack read names values (.obj fields) x where
  written := by
    rw [hread]
    exact hnamed
  object := by
    refine ⟨fields, rfl, hfields, fun all hall => ?_⟩
    have hsame : named names all = named names fields := List.map_congr_left hall
    rw [hread, record, Option.bind_some, hsame]
    exact hnamed
  placed := by
    refine ⟨hlength, ?_⟩
    rw [hread, record, placed_eq hlength]
    exact hplaced

/-- The fields at the end may be left off. -/
theorem named_zip : ∀ (names more : List String) (values : List (Json String)),
    (names ++ more).Nodup → values.length = names.length →
    named (names ++ more) (names.zip values) = values.map some ++ more.map fun _ => none
  | [], more, [], _, _ => by simp [named]
  | name :: names, more, value :: values, hnodup, hlength => by
    obtain ⟨hname, hnodup⟩ := List.nodup_cons.mp hnodup
    have ih := named_zip names more values hnodup (Nat.succ.inj hlength)
    have hothers : named (names ++ more) ((name, value) :: names.zip values) =
        named (names ++ more) (names.zip values) := by
      refine List.map_congr_left fun other hother => ?_
      rw [lookup_cons_eq, if_neg]
      rintro rfl
      exact hname hother
    rw [List.cons_append, List.zip_cons_cons, named, List.map_cons, lookup_cons_eq, if_pos rfl]
    exact congrArg (List.cons (some value)) (hothers.trans ih)

/-- A record all fields of which are written. -/
theorem ReadsBack.of_zip {α : Type} {read : Json String → Option α} {names : List String}
    {values : List (Json String)} {x : α} {make : List (Option (Json String)) → Option α}
    (hread : ∀ j, read j = (record names j).bind make) (hlength : values.length = names.length)
    (hnodup : names.Nodup) (hplaced : make (values.map some) = some x) :
    ReadsBack read names values (.obj (names.zip values)) x := by
  refine .of_values hread hlength (List.Sublist.refl _) ?_ hplaced
  have hnamed := named_zip names [] values (by rwa [List.append_nil]) hlength
  rw [List.append_nil, List.map_nil, List.append_nil] at hnamed
  rw [hnamed]
  exact hplaced

/-! ### Parts -/

theorem nat?_nat {σ : Type} {n : Nat} (h : n < 2 ^ 64) : nat? (σ := σ) (.nat n) = some n := by
  exact if_pos h

theorem list?_map {α : Type} {read : Json String → Option α} {write : α → Json String} {xs : List α}
    (h : ∀ x ∈ xs, read (write x) = some x) : list? read (.arr (xs.map write)) = some xs := by
  rw [list?]
  induction xs with
  | nil => rfl
  | cons x xs ih =>
    obtain ⟨hx, hxs⟩ := List.forall_mem_cons.mp h
    rw [List.map_cons, List.mapM_cons, hx, ih hxs]
    rfl

theorem optional_string (value : Option String) :
    optional string? (some ((value.map Json.str).getD .null)) = some value := by
  cases value <;> rfl

theorem Sized.append {xs ys : List Nat} (h : Sized (xs ++ ys)) : Sized xs ∧ Sized ys :=
  List.forall_mem_append.mp h

theorem Sized.flatMap {α : Type} {f : α → List Nat} {xs : List α} (h : Sized (xs.flatMap f)) :
    ∀ x ∈ xs, Sized (f x) :=
  fun x hx n hn => h n (List.mem_flatMap.mpr ⟨x, hx, hn⟩)

end Form

/-! ### Types -/

namespace Ty

mutual

/-- The ranks of all arrays in a type. -/
def numbers : Ty → List Nat
  | .void | .param _ => []
  | .named _ _ args => numbersOfAll args
  | .array element rank => rank :: numbers element
  | .nullable inner | .byRef inner => numbers inner

def numbersOfAll : List Ty → List Nat
  | [] => []
  | t :: ts => numbers t ++ numbersOfAll ts

end

theorem numbersOfAll_eq (ts : List Ty) : numbersOfAll ts = ts.flatMap numbers := by
  induction ts with
  | nil => rfl
  | cons t ts ih => rw [numbersOfAll, ih, List.flatMap_cons]

theorem toJsonAll_eq (ts : List Ty) : toJsonAll ts = ts.map toJson := by
  induction ts with
  | nil => rfl
  | cons t ts ih => rw [toJsonAll, ih, List.map_cons]

end Ty

namespace NamedTy

def numbers (t : NamedTy) : List Nat :=
  t.args.flatMap Ty.numbers

/-- The values of all fields, also where there are no arguments. -/
def values (t : NamedTy) : List (Json String) :=
  [(t.ns.map Json.str).getD .null, .str t.name, .arr (t.args.map Ty.toJson)]

theorem readsBack {readTy : Json String → Option Ty} {t : NamedTy}
    (h : ∀ a ∈ t.args, readTy a.toJson = some a) :
    Form.ReadsBack (read readTy) fieldNames t.values t.toJson t := by
  obtain ⟨ns, name, args⟩ := t
  have hns := Form.optional_string ns
  cases args with
  | nil =>
    have hnamed : Form.named fieldNames (Ty.namedFields ns name []) =
        [some ((ns.map Json.str).getD .null), some (.str name), none] :=
      Form.named_zip ["namespace", "name"] ["args"] [(ns.map Json.str).getD .null, .str name]
        (by decide) rfl
    refine .of_values (fun _ => rfl) rfl (List.sublist_append_left _ [_]) ?_ ?_
    · simp only [List.map_nil]
      rw [hnamed]
      simp [hns, Form.required, Form.string?, Form.defaulted]
    · simp [values, hns, Form.required, Form.string?, Form.defaulted, Form.list?]
  | cons a rest =>
    have hargs := Form.list?_map h
    refine Form.ReadsBack.of_zip (fun _ => rfl) rfl (by decide) ?_
    simp [values, hns, Form.required, Form.string?, Form.defaulted] at hargs ⊢
    simp [hargs]

end NamedTy

namespace Ty

theorem depth_le_depthOfItems {j : Json String} :
    ∀ {items : List (Json String)}, j ∈ items → j.depth ≤ Json.depthOfItems items
  | [], h => by cases h
  | i :: rest, h => by
    rw [Json.depthOfItems]
    rcases List.mem_cons.mp h with rfl | h
    · exact Nat.le_max_left _ _
    · exact Nat.le_trans (depth_le_depthOfItems h) (Nat.le_max_right _ _)

theorem depth_le_depthOfFields {name : String} {j : Json String} :
    ∀ {fields : List (String × Json String)}, (name, j) ∈ fields → j.depth ≤ Json.depthOfFields fields
  | [], h => by cases h
  | (key, i) :: rest, h => by
    rw [Json.depthOfFields]
    rcases List.mem_cons.mp h with heq | h
    · cases heq
      exact Nat.le_max_left _ _
    · exact Nat.le_trans (depth_le_depthOfFields h) (Nat.le_max_right _ _)

/-- The arguments of a named type are nested in what is written of it. -/
theorem depth_lt_of_mem_args {t : NamedTy} {a : Ty} (h : a ∈ t.args) : a.toJson.depth < t.toJson.depth := by
  have hfield : ("args", Json.arr (t.args.map toJson)) ∈ namedFields t.ns t.name (t.args.map toJson) := by
    have hne : (t.args.map toJson).isEmpty = false := by
      rw [List.isEmpty_map]
      exact List.isEmpty_eq_false_iff_exists_mem.mpr ⟨a, h⟩
    simp [namedFields, hne]
  have hargs := depth_le_depthOfFields hfield
  have ha := depth_le_depthOfItems (List.mem_map_of_mem (f := toJson) h)
  rw [Json.depth] at hargs
  rw [NamedTy.toJson, Json.depth]
  omega

theorem read_toJson : ∀ (n : Nat) (t : Ty), Form.Sized t.numbers → t.toJson.depth ≤ n →
    read n t.toJson = some t
  | 0, t, _, hdepth => by cases t <;> simp [toJson, Json.depth] at hdepth
  | n + 1, .void, _, _ => by simp [read, toJson, Form.case?, Form.isUnit]
  | n + 1, .named ns name args, hsized, hdepth => by
    rw [numbers, numbersOfAll_eq] at hsized
    rw [toJson, toJsonAll_eq] at hdepth ⊢
    have hargs : ∀ a ∈ args, read n a.toJson = some a := by
      intro a ha
      have hlt : a.toJson.depth < (NamedTy.mk ns name args).toJson.depth := depth_lt_of_mem_args ha
      refine read_toJson n a (hsized.flatMap a ha) ?_
      rw [NamedTy.toJson] at hlt
      simp only [Json.depth, Json.depthOfFields] at hdepth hlt
      omega
    have hnamed : NamedTy.read (read n) (.obj (namedFields ns name (args.map toJson))) = some ⟨ns, name, args⟩ :=
      (NamedTy.readsBack (t := ⟨ns, name, args⟩) hargs).written
    simp [read, Form.case?, hnamed, NamedTy.toTy]
  | n + 1, .array element rank, hsized, hdepth => by
    have helement : read n element.toJson = some element := by
      refine read_toJson n element (fun m hm => hsized m (List.mem_cons_of_mem rank hm)) ?_
      simp only [toJson, Json.depth, Json.depthOfFields] at hdepth
      omega
    have hrank := Form.nat?_nat (σ := String) (hsized rank List.mem_cons_self)
    rw [toJson]
    simp [read, Form.case?, Form.required, helement, lookup_cons_eq, hrank]
  | n + 1, .nullable inner, hsized, hdepth => by
    have hinner : read n inner.toJson = some inner := by
      refine read_toJson n inner hsized ?_
      simp only [toJson, Json.depth, Json.depthOfFields] at hdepth
      omega
    rw [toJson]
    simp [read, Form.case?, hinner]
  | n + 1, .param name, _, _ => by simp [read, toJson, Form.case?, Form.string?]
  | n + 1, .byRef inner, hsized, hdepth => by
    have hinner : read n inner.toJson = some inner := by
      refine read_toJson n inner hsized ?_
      simp only [toJson, Json.depth, Json.depthOfFields] at hdepth
      omega
    rw [toJson]
    simp [read, Form.case?, hinner]

theorem ofJson?_toJson {t : Ty} (h : Form.Sized t.numbers) : ofJson? t.toJson = some t :=
  read_toJson _ t h (Nat.le_refl _)

end Ty

/-! ### Choices -/

namespace Form

theorem unitCase?_str {α : Type} (ofName? : String → Option α) (name : String) :
    unitCase? ofName? (.str name) = ofName? name := rfl

end Form

theorem BinaryOp.ofJson?_toJson (op : BinaryOp) : ofJson? op.toJson = some op := by
  rw [ofJson?, toJson, Form.unitCase?_str]
  cases op <;> rfl

theorem UnaryOp.ofJson?_toJson (op : UnaryOp) : ofJson? op.toJson = some op := by
  rw [ofJson?, toJson, Form.unitCase?_str]
  cases op <;> rfl

theorem AssignOp.ofJson?_toJson (op : AssignOp) : ofJson? op.toJson = some op := by
  rw [ofJson?, toJson, Form.unitCase?_str]
  cases op <;> rfl

theorem Kind.ofJson?_toJson (k : Kind) : ofJson? k.toJson = some k := by
  cases k with
  | binary op =>
    show (BinaryOp.ofJson? op.toJson).map Kind.binary = some (.binary op)
    rw [op.ofJson?_toJson, Option.map_some]
  | unary op =>
    show (UnaryOp.ofJson? op.toJson).map Kind.unary = some (.unary op)
    rw [op.ofJson?_toJson, Option.map_some]
  | assign op =>
    show (AssignOp.ofJson? op.toJson).map Kind.assign = some (.assign op)
    rw [op.ofJson?_toJson, Option.map_some]
  | _ => rfl

theorem Modifier.ofJson?_toJson (m : Modifier) : ofJson? m.toJson = some m := by
  cases m <;> rfl

theorem MethodKind.ofJson?_toJson (k : MethodKind) : ofJson? k.toJson = some k := by
  cases k <;> rfl

/-! ### Signatures and settings -/

namespace Parameter

def numbers (p : Parameter) : List Nat :=
  p.ty.numbers

def values (p : Parameter) : List (Json String) :=
  [.str p.name, p.ty.toJson, p.modifier.toJson]

theorem readsBack {p : Parameter} (h : Form.Sized p.numbers) :
    Form.ReadsBack ofJson? fieldNames p.values p.toJson p := by
  have hty := Ty.ofJson?_toJson h
  have hmodifier := p.modifier.ofJson?_toJson
  refine .of_zip (fun _ => rfl) rfl (by decide) ?_
  simp [values, Form.required, Form.string?, Form.defaulted, hty, hmodifier]

end Parameter

namespace Accessor

def numbers (a : Accessor) : List Nat :=
  [a.indexParams]

def values (a : Accessor) : List (Json String) :=
  [.str a.property, .nat a.indexParams, .bool a.isSetter]

theorem readsBack {a : Accessor} (h : Form.Sized a.numbers) :
    Form.ReadsBack ofJson? fieldNames a.values a.toJson a := by
  have hparams := Form.nat?_nat (σ := String) (h a.indexParams List.mem_cons_self)
  refine .of_zip (fun _ => rfl) rfl (by decide) ?_
  simp [values, Form.required, Form.string?, Form.bool?, hparams]

end Accessor

namespace Method

def numbers (m : Method) : List Nat :=
  m.declaringType.numbers ++ m.params.flatMap Parameter.numbers ++ m.returnType.numbers ++
    m.genericArgs.flatMap Ty.numbers ++ m.accessor.toList.flatMap Accessor.numbers

def values (m : Method) : List (Json String) :=
  [.str m.name, m.declaringType.toJson, m.kind.toJson, .arr (m.params.map Parameter.toJson),
    m.returnType.toJson, .arr (m.genericParams.map .str), .arr (m.genericArgs.map Ty.toJson),
    (m.accessor.map Accessor.toJson).getD .null]

theorem optional_accessor {accessor : Option Accessor}
    (h : ∀ a ∈ accessor.toList, Form.Sized a.numbers) :
    Form.optional Accessor.ofJson? (some ((accessor.map Accessor.toJson).getD .null)) = some accessor := by
  cases accessor with
  | none => rfl
  | some a =>
    have ha := (Accessor.readsBack (h a (by simp))).written
    simp [Form.optional, Accessor.toJson] at ha ⊢
    simp [ha]

theorem readsBack {m : Method} (h : Form.Sized m.numbers) :
    Form.ReadsBack ofJson? fieldNames m.values m.toJson m := by
  obtain ⟨h, haccessor⟩ := h.append
  obtain ⟨h, hgenericArgs⟩ := h.append
  obtain ⟨h, hreturn⟩ := h.append
  obtain ⟨hdeclaring, hparams⟩ := h.append
  have hparams := Form.list?_map fun p hp => (Parameter.readsBack (hparams.flatMap p hp)).written
  have hgenericArgs := Form.list?_map fun t ht => Ty.ofJson?_toJson (hgenericArgs.flatMap t ht)
  have hgenericParams := Form.list?_map fun (name : String) (_ : name ∈ m.genericParams) =>
    show Form.string? (.str name) = some name from rfl
  have haccessor := optional_accessor haccessor.flatMap
  refine .of_zip (fun _ => rfl) rfl (by decide) ?_
  simp [values, Form.required, Form.defaulted, Form.string?, Ty.ofJson?_toJson hdeclaring,
    m.kind.ofJson?_toJson, hparams, Ty.ofJson?_toJson hreturn, hgenericParams, hgenericArgs, haccessor]

end Method

namespace Member

def numbers (m : Member) : List Nat :=
  m.declaringType.numbers ++ m.ty.numbers

def values (m : Member) : List (Json String) :=
  [.str m.name, m.declaringType.toJson, m.ty.toJson, .bool m.isStatic]

theorem readsBack {m : Member} (h : Form.Sized m.numbers) :
    Form.ReadsBack ofJson? fieldNames m.values m.toJson m := by
  obtain ⟨hdeclaring, hty⟩ := h.append
  refine .of_zip (fun _ => rfl) rfl (by decide) ?_
  simp [values, Form.required, Form.defaulted, Form.string?, Form.bool?,
    Ty.ofJson?_toJson hdeclaring, Ty.ofJson?_toJson hty]

end Member

namespace Settings

def numbers (s : Settings) : List Nat :=
  [s.lineWidth, s.indentWidth]

def values (s : Settings) : List (Json String) :=
  [.bool s.explicitGenerics, .bool s.qualifiedTypeNames, .nat s.lineWidth, .nat s.indentWidth]

theorem readsBack {s : Settings} (h : Form.Sized s.numbers) :
    Form.ReadsBack ofJson? fieldNames s.values s.toJson s := by
  have hline := Form.nat?_nat (σ := String) (h s.lineWidth (by simp [numbers]))
  have hindent := Form.nat?_nat (σ := String) (h s.indentWidth (by simp [numbers]))
  refine .of_zip (fun _ => rfl) rfl (by decide) ?_
  simp [values, ofValues?, Form.defaulted, Form.bool?, hline, hindent]

end Settings

/-- Types and kinds are read back from what is written of them, and records from all their forms. -/
theorem forms_read_back :
    (∀ t : Ty, Form.Sized t.numbers → Ty.ofJson? t.toJson = some t) ∧
    (∀ k : Kind, Kind.ofJson? k.toJson = some k) ∧
    (∀ t : NamedTy, Form.Sized t.numbers →
      Form.ReadsBack NamedTy.ofJson? NamedTy.fieldNames t.values t.toJson t) ∧
    (∀ p : Parameter, Form.Sized p.numbers →
      Form.ReadsBack Parameter.ofJson? Parameter.fieldNames p.values p.toJson p) ∧
    (∀ a : Accessor, Form.Sized a.numbers →
      Form.ReadsBack Accessor.ofJson? Accessor.fieldNames a.values a.toJson a) ∧
    (∀ m : Method, Form.Sized m.numbers →
      Form.ReadsBack Method.ofJson? Method.fieldNames m.values m.toJson m) ∧
    (∀ m : Member, Form.Sized m.numbers →
      Form.ReadsBack Member.ofJson? Member.fieldNames m.values m.toJson m) ∧
    (∀ s : Settings, Form.Sized s.numbers →
      Form.ReadsBack Settings.ofJson? Settings.fieldNames s.values s.toJson s) :=
  ⟨fun _ => Ty.ofJson?_toJson, Kind.ofJson?_toJson,
    fun _ h => NamedTy.readsBack fun a ha => Ty.ofJson?_toJson (h.flatMap a ha),
    fun _ => Parameter.readsBack, fun _ => Accessor.readsBack, fun _ => Method.readsBack,
    fun _ => Member.readsBack, fun _ => Settings.readsBack⟩

/-- An indexer of tables of nullable items, with the greatest rank and a generic argument. -/
def tableIndexer : Method where
  name := "get_Item"
  declaringType := .named (some "Data") "Table" [.nullable (.param "T"), .array (.named none "Row" []) 2]
  kind := .onInstance
  params := [⟨"key", .byRef (.array (.param "T") 18446744073709551615), .ref⟩]
  returnType := .void
  genericParams := ["T"]
  genericArgs := [.named (some "System") "Int32" []]
  accessor := some ⟨"Item", 1, false⟩

/-- It is read with a field of another name in front, and from the values of its fields alone. -/
theorem forms_read_back_tableIndexer :
    Form.Sized tableIndexer.numbers ∧
    Method.ofJson? (.obj (("since", .nat 3) :: Method.fieldNames.zip tableIndexer.values)) =
      some tableIndexer ∧
    Method.ofJson? (.arr tableIndexer.values) = some tableIndexer := by
  have hsized : Form.Sized tableIndexer.numbers := by decide
  obtain ⟨-, -, -, -, -, hmethod, -, -⟩ := forms_read_back
  obtain ⟨-, ⟨fields, hjson, -, hobject⟩, -, hplaced⟩ := hmethod tableIndexer hsized
  refine ⟨hsized, hobject _ ?_, hplaced⟩
  cases hjson
  simp [Method.fieldNames, Method.values, lookup_cons_eq]

end ExprText
