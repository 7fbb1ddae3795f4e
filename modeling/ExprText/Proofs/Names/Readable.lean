import ExprText.Proofs.Names.Spelling

/-! # Marks in generated names

A generated name is made from the readable part of an identifier: what stands in its first angle brackets,
else what follows its last two underscores. Where an identifier has no such part, the name is made from the
type, and from the name of the type as it is where that has no such part either. Nothing on the way adds or
takes away one of the marks by which a compiler's identifiers are known, so a generated name has a mark
exactly if what it is made from has one. -/

namespace ExprText

open Text

namespace Name

/-! ### Marks -/

theorem isSynthesized_append (a b : String) :
    isSynthesized (a ++ b) = (isSynthesized a || isSynthesized b) := by
  rw [isSynthesized, String.toList_append, List.any_append]
  rfl

/-- The characters that no person puts into a name. -/
def compilerMarks : List Char :=
  ['<', '>', '$']

theorem symbols_compilerMarks : Symbols compilerMarks := by
  decide

theorem isSynthesized_eq_false_iff {name : String} : isSynthesized name = false ↔ Free compilerMarks name := by
  simp [isSynthesized, Free, compilerMarks, and_assoc]

theorem isSynthesized_avoidKeyword (name : String) : isSynthesized (avoidKeyword name) = isSynthesized name := by
  have hending : isSynthesized "Value" = false := by decide
  unfold avoidKeyword
  split
  · rw [isSynthesized_append, hending, Bool.or_false]
  · rfl

/-- A mark is its own lower-case form, and no other character's. -/
theorem isSynthesized_lowerFirst (name : String) : isSynthesized (lowerFirst name) = isSynthesized name := by
  cases hname : isSynthesized name with
  | false =>
    exact isSynthesized_eq_false_iff.mpr (symbols_compilerMarks.free_lowerFirst (isSynthesized_eq_false_iff.mp hname))
  | true =>
    have hkept : ∀ c ∈ compilerMarks, c.toNat < 0x80 ∧ c.toLower = c := by
      simp only [compilerMarks, List.forall_mem_cons]
      simp
    obtain ⟨c, hc, hmark⟩ := List.any_eq_true.mp hname
    have hcompiler : c ∈ compilerMarks := by simpa [compilerMarks, or_assoc] using hmark
    refine List.any_eq_true.mpr ⟨c, ?_, hmark⟩
    unfold lowerFirst
    cases hcs : name.toList with
    | nil =>
      rw [hcs] at hc
      cases hc
    | cons first rest =>
      rw [hcs] at hc
      rw [String.toList_ofList, List.mem_append]
      rcases List.mem_cons.mp hc with rfl | hc
      · obtain ⟨hascii, hlower⟩ := hkept c hcompiler
        rw [lowerCase, if_pos hascii, hlower]
        exact .inl List.mem_cons_self
      · exact .inr hc

theorem isSynthesized_freeName (taken : List String) (base : String) :
    isSynthesized (NameTable.freeName taken base) = isSynthesized base := by
  rcases (NameTable.freeName_cases taken base).2 with heq | ⟨n, heq⟩
  · rw [heq]
  · have hnumber : isSynthesized (toString n) = false :=
      isSynthesized_eq_false_iff.mpr (Punctuation.free_int (by decide) n)
    rw [heq, isSynthesized_append, hnumber, Bool.or_false]

/-! ### Readable parts -/

/-- Whether a part of an identifier stands between its first `<` and the first `>` after that. -/
def Encloses (name part : List Char) : Prop :=
  ∃ before after, name = before ++ '<' :: (part ++ '>' :: after) ∧ '<' ∉ before ∧ '>' ∉ part

/-- Whether a part of an identifier is all that follows its last two underscores in a row. -/
def Trails (name part : List Char) : Prop :=
  (∃ before, name = before ++ '_' :: '_' :: part) ∧ ¬['_', '_'] <:+: '_' :: part

/-- What a person can read in an identifier that a compiler made. -/
inductive ReadablePart (name : String) : String → Prop
  | enclosed {part : String} (ne : part ≠ "") (h : Encloses name.toList part.toList) : ReadablePart name part
  | trailing {part : String} (ne : part ≠ "") (none : ∀ inner, Encloses name.toList inner → inner = [])
    (h : Trails name.toList part.toList) : ReadablePart name part

theorem forall_bne {mark : Char} {cs : List Char} (h : mark ∉ cs) : ∀ c ∈ cs, (c != mark) = true := by
  intro c hc
  rw [bne_iff_ne]
  rintro rfl
  exact h hc

theorem bracketed_append {before rest : List Char} (h : '<' ∉ before) :
    bracketed (before ++ '<' :: rest) = if '>' ∈ rest then some (rest.takeWhile (· != '>')) else none := by
  rw [bracketed, List.dropWhile_append_of_pos (forall_bne h), List.dropWhile_cons_of_neg (by decide)]
  simp

theorem takeWhile_append_of_not_mem {part : List Char} (h : '>' ∉ part) (after : List Char) :
    (part ++ '>' :: after).takeWhile (· != '>') = part := by
  rw [List.takeWhile_append_of_pos (forall_bne h), List.takeWhile_cons_of_neg (by decide), List.append_nil]

theorem bracketed_eq_some_iff {cs part : List Char} : bracketed cs = some part ↔ Encloses cs part := by
  constructor
  · intro h
    have hopen : '<' ∈ cs := by
      apply Classical.byContradiction
      intro hnone
      rw [← List.append_nil cs, bracketed, List.dropWhile_append_of_pos (forall_bne hnone)] at h
      cases h
    obtain ⟨before, rest, rfl, hbefore⟩ := List.eq_append_cons_of_mem hopen
    rw [bracketed_append hbefore] at h
    split at h
    · next hclose =>
      obtain ⟨inner, after, rfl, hinner⟩ := List.eq_append_cons_of_mem hclose
      rw [takeWhile_append_of_not_mem hinner] at h
      cases h
      exact ⟨before, after, rfl, hbefore, hinner⟩
    · cases h
  · rintro ⟨before, after, rfl, hbefore, hpart⟩
    rw [bracketed_append hbefore, if_pos (by simp), takeWhile_append_of_not_mem hpart]

/-- Two underscores in a row start a list or come later in it. -/
theorem infix_underscores_cons {c : Char} {cs : List Char} :
    ['_', '_'] <:+: c :: cs ↔ (c = '_' ∧ cs.head? = some '_') ∨ ['_', '_'] <:+: cs := by
  rw [List.infix_cons_iff, List.cons_prefix_cons]
  refine or_congr_left (and_congr eq_comm ?_)
  cases cs with
  | nil => simp
  | cons d ds => simp [eq_comm]

theorem afterUnderscores_eq_none_iff {cs : List Char} : afterUnderscores cs = none ↔ ¬['_', '_'] <:+: cs := by
  induction cs with
  | nil => simp [afterUnderscores]
  | cons c cs ih =>
    rw [infix_underscores_cons, afterUnderscores, not_or, ← ih]
    cases afterUnderscores cs with
    | some tail => simp
    | none => simp

theorem afterUnderscores_eq_some_iff {cs part : List Char} : afterUnderscores cs = some part ↔ Trails cs part := by
  constructor
  · intro h
    induction cs with
    | nil => cases h
    | cons c cs ih =>
      rw [afterUnderscores] at h
      cases hrest : afterUnderscores cs with
      | some tail =>
        rw [hrest] at h
        cases h
        obtain ⟨⟨before, rfl⟩, hlast⟩ := ih hrest
        exact ⟨⟨c :: before, rfl⟩, hlast⟩
      | none =>
        rw [hrest] at h
        dsimp only at h
        split at h
        · next hunderscores =>
          cases h
          obtain ⟨rfl, hhead⟩ := hunderscores
          obtain ⟨tail, rfl⟩ := List.head?_eq_some_iff.mp hhead
          exact ⟨⟨[], rfl⟩, afterUnderscores_eq_none_iff.mp hrest⟩
        · cases h
  · rintro ⟨⟨before, rfl⟩, hlast⟩
    induction before with
    | nil =>
      rw [List.nil_append, afterUnderscores, afterUnderscores_eq_none_iff.mpr hlast]
      rfl
    | cons c before ih => rw [List.cons_append, afterUnderscores, ih]

theorem nonempty?_eq_some_iff {part : Option (List Char)} {cs : List Char} :
    nonempty? part = some cs ↔ part = some cs ∧ cs ≠ [] := by
  rcases part with _ | _ | ⟨c, rest⟩
  · simp [nonempty?]
  · simp [nonempty?, eq_comm]
  · simp only [nonempty?, Option.some.injEq, iff_self_and]
    rintro rfl
    exact List.cons_ne_nil c rest

theorem nonempty?_eq_none_iff {part : Option (List Char)} :
    nonempty? part = none ↔ ∀ inner, part = some inner → inner = [] := by
  simp [Option.eq_none_iff_forall_ne_some, nonempty?_eq_some_iff]

/-- What is shown for an identifier is its readable part. -/
theorem surrogate?_eq_some_iff {name shown : String} :
    surrogate? name = some shown ↔ ∃ part, ReadablePart name part ∧ shown = avoidKeyword part := by
  rw [surrogate?, Option.map_eq_some_iff]
  constructor
  · rintro ⟨cs, hcs, rfl⟩
    have hne : cs ≠ [] → String.ofList cs ≠ "" := fun h => by simpa using h
    refine ⟨String.ofList cs, ?_, rfl⟩
    rcases Option.or_eq_some_iff.mp hcs with hbrackets | ⟨hnone, htail⟩
    · obtain ⟨hbrackets, hcs⟩ := nonempty?_eq_some_iff.mp hbrackets
      refine .enclosed (hne hcs) ?_
      rw [String.toList_ofList]
      exact bracketed_eq_some_iff.mp hbrackets
    · obtain ⟨htail, hcs⟩ := nonempty?_eq_some_iff.mp htail
      refine .trailing (hne hcs) (fun inner h => ?_) ?_
      · exact nonempty?_eq_none_iff.mp hnone inner (bracketed_eq_some_iff.mpr h)
      · rw [String.toList_ofList]
        exact afterUnderscores_eq_some_iff.mp htail
  · rintro ⟨part, hpart, rfl⟩
    refine ⟨part.toList, ?_, by rw [String.ofList_toList]⟩
    rw [Option.or_eq_some_iff]
    cases hpart with
    | enclosed ne h =>
      exact .inl (nonempty?_eq_some_iff.mpr ⟨bracketed_eq_some_iff.mpr h, by simpa using ne⟩)
    | trailing ne hnone h =>
      refine .inr ⟨nonempty?_eq_none_iff.mpr fun inner hinner => ?_, ?_⟩
      · exact hnone inner (bracketed_eq_some_iff.mp hinner)
      · exact nonempty?_eq_some_iff.mpr ⟨afterUnderscores_eq_some_iff.mpr h, by simpa using ne⟩

theorem surrogate?_eq_none_iff {name : String} : surrogate? name = none ↔ ∀ part, ¬ReadablePart name part := by
  rw [Option.eq_none_iff_forall_ne_some]
  constructor
  · exact fun h part hpart => h _ (surrogate?_eq_some_iff.mpr ⟨part, hpart, rfl⟩)
  · rintro h shown hshown
    obtain ⟨part, hpart, -⟩ := surrogate?_eq_some_iff.mp hshown
    exact h part hpart

end Name

/-! ### What names are made from -/

/-- What the name of a value is made from that has no identifier of its own: the readable part of the name of
    its type, or that name as it is. Array layers, nullables and references count for nothing, and types with a
    keyword have names of their own. -/
inductive Ty.NamedAfter : Ty → String → Prop
  | part {ns : Option String} {name part : String} {args : List Ty} (keyword : keywordOf ns name args = none)
    (h : Name.ReadablePart name part) : NamedAfter (.named ns name args) part
  | whole {ns : Option String} {name : String} {args : List Ty} (keyword : keywordOf ns name args = none)
    (h : ∀ part, ¬Name.ReadablePart name part) : NamedAfter (.named ns name args) name
  | param (name : String) : NamedAfter (.param name) name
  | array {element : Ty} {rank : Nat} {source : String} (h : NamedAfter element source) :
    NamedAfter (.array element rank) source
  | nullable {inner : Ty} {source : String} (h : NamedAfter inner source) : NamedAfter (.nullable inner) source
  | byRef {inner : Ty} {source : String} (h : NamedAfter inner source) : NamedAfter (.byRef inner) source

namespace NameRequest

/-- The identifier of what is asked about. -/
def identifier? : NameRequest → Option String
  | .variable v => v.name
  | .captured _ => none
  | .capturedMember _ member => some member

/-- The type that gives the name where the identifier does not. -/
def ty : NameRequest → Ty
  | .variable v => v.ty
  | .captured object => object.ty
  | .capturedMember object _ => object.ty

/-- What a generated name is made from. -/
inductive MadeFrom (r : NameRequest) (source : String) : Prop
  | identifier {name : String} (h : r.identifier? = some name) (part : Name.ReadablePart name source)
  | type (h : ∀ name, r.identifier? = some name → ∀ part, ¬Name.ReadablePart name part)
    (named : r.ty.NamedAfter source)

end NameRequest

namespace Name

theorem isSynthesized_surrogate? {name shown : String} (h : surrogate? name = some shown) :
    isSynthesized shown = true ↔ ∃ part, ReadablePart name part ∧ isSynthesized part = true := by
  constructor
  · intro hmarked
    obtain ⟨part, hpart, rfl⟩ := surrogate?_eq_some_iff.mp h
    exact ⟨part, hpart, by rwa [isSynthesized_avoidKeyword] at hmarked⟩
  · rintro ⟨part, hpart, hmarked⟩
    rw [surrogate?_eq_some_iff.mpr ⟨part, hpart, rfl⟩, Option.some.injEq] at h
    rw [← h, isSynthesized_avoidKeyword]
    exact hmarked

/-- The name made from a type has a mark exactly if what it is made from has one. -/
theorem isSynthesized_baseOf (ty : Ty) :
    isSynthesized (baseOf ty) = true ↔ ∃ source, ty.NamedAfter source ∧ isSynthesized source = true := by
  fun_induction baseOf ty with
  | case1 =>
    refine iff_of_false (by decide) ?_
    rintro ⟨_, ⟨⟩, -⟩
  | case2 ns name args keyword hkeyword =>
    have hword : isSynthesized keyword = false := by
      have hall : ∀ k ∈ Ty.keywords.map Prod.snd, isSynthesized k = false := by decide +kernel
      exact hall _ (mem_of_keywordOf hkeyword)
    refine iff_of_false (by simp [hword]) ?_
    rintro ⟨_, hnamed, -⟩
    cases hnamed with
    | part hnone => rw [hkeyword] at hnone; cases hnone
    | whole hnone => rw [hkeyword] at hnone; cases hnone
  | case3 ns name args hkeyword =>
    rw [isSynthesized_lowerFirst]
    cases hshown : surrogate? name with
    | some shown =>
      obtain ⟨part, hpart, -⟩ := surrogate?_eq_some_iff.mp hshown
      rw [Option.getD_some, isSynthesized_surrogate? hshown]
      refine exists_congr fun source => and_congr_left fun _ => ⟨.part hkeyword, fun hnamed => ?_⟩
      cases hnamed with
      | part _ h => exact h
      | whole _ h => exact absurd hpart (h part)
    | none =>
      have hnone := surrogate?_eq_none_iff.mp hshown
      rw [Option.getD_none]
      refine ⟨fun hmarked => ⟨name, .whole hkeyword hnone, hmarked⟩, ?_⟩
      rintro ⟨source, hnamed, hmarked⟩
      cases hnamed with
      | part _ h => exact absurd h (hnone source)
      | whole => exact hmarked
  | case4 element rank ih =>
    have hending : isSynthesized "Array" = false := by decide
    rw [isSynthesized_append, hending, Bool.or_false, ih]
    refine exists_congr fun source => and_congr_left fun _ => ⟨.array, fun hnamed => ?_⟩
    cases hnamed
    assumption
  | case5 inner ih =>
    rw [ih]
    refine exists_congr fun source => and_congr_left fun _ => ⟨.nullable, fun hnamed => ?_⟩
    cases hnamed
    assumption
  | case6 inner ih =>
    rw [ih]
    refine exists_congr fun source => and_congr_left fun _ => ⟨.byRef, fun hnamed => ?_⟩
    cases hnamed
    assumption
  | case7 name =>
    rw [isSynthesized_lowerFirst]
    refine ⟨fun hmarked => ⟨name, .param name, hmarked⟩, ?_⟩
    rintro ⟨_, ⟨⟩, hmarked⟩
    exact hmarked

theorem isSynthesized_ofTy (ty : Ty) :
    isSynthesized (ofTy ty) = true ↔ ∃ source, ty.NamedAfter source ∧ isSynthesized source = true := by
  rw [ofTy, isSynthesized_avoidKeyword, isSynthesized_baseOf]

end Name

namespace NameRequest

theorem base_eq (r : NameRequest) :
    r.base = (r.identifier?.bind Name.surrogate?).getD (Name.ofTy r.ty) := by
  cases r with
  | «variable» v =>
    simp only [base, identifier?, ty]
    cases v.name with
    | none => rfl
    | some name => rfl
  | captured object => rfl
  | capturedMember object member => rfl

/-- What a name is made from before it is made unique has a mark exactly if it is made from something with a
    mark. -/
theorem isSynthesized_base (r : NameRequest) :
    Name.isSynthesized r.base = true ↔ ∃ source, r.MadeFrom source ∧ Name.isSynthesized source = true := by
  rw [base_eq]
  cases hshown : r.identifier?.bind Name.surrogate? with
  | some shown =>
    obtain ⟨name, hname, hsurrogate⟩ := Option.bind_eq_some_iff.mp hshown
    obtain ⟨part, hpart, -⟩ := Name.surrogate?_eq_some_iff.mp hsurrogate
    rw [Option.getD_some, Name.isSynthesized_surrogate? hsurrogate]
    refine exists_congr fun source => and_congr_left fun _ => ⟨.identifier hname, fun hmade => ?_⟩
    cases hmade with
    | identifier hother h =>
      rw [hname] at hother
      cases hother
      exact h
    | type h => exact absurd hpart (h name hname part)
  | none =>
    have hnone : ∀ name, r.identifier? = some name → ∀ part, ¬Name.ReadablePart name part := by
      intro name hname
      rw [hname, Option.bind_some] at hshown
      exact Name.surrogate?_eq_none_iff.mp hshown
    rw [Option.getD_none, Name.isSynthesized_ofTy]
    refine exists_congr fun source => and_congr_left fun _ => ⟨.type hnone, fun hmade => ?_⟩
    cases hmade with
    | identifier hname h => exact absurd h (hnone _ hname source)
    | type _ h => exact h

end NameRequest

namespace NameTable

/-! ### Runs of a table -/

/-- The tables that come about by taking the names of trees and by answering questions, with the questions that
    were put, the last one first. -/
inductive Reached : List NameRequest → NameTable → Prop
  | empty : Reached [] {}
  | reserve {asked : List NameRequest} {t : NameTable} (h : Reached asked t) (root : Expr) :
    Reached asked (t.reserve root)
  | answer {asked : List NameRequest} {t : NameTable} (h : Reached asked t) (r : NameRequest) :
    Reached (r :: asked) (t.answer r).2

/-- Whether every name that a table has given to what has no explicit name was made for it. -/
def MadeFor (asked : List NameRequest) (t : NameTable) : Prop :=
  ∀ key name, t.assigned.lookup key = some name →
    ∃ q ∈ asked, q.key = key ∧ (q.explicit? = none → ∃ taken, name = freeName taken q.base)

/-- An answer is what was given before, or it is given now and made from its base. -/
theorem assigned_answer (t : NameTable) (r : NameRequest) :
    (t.answer r).2.assigned = t.assigned ∨
      (t.answer r).2.assigned = (r.key, (t.answer r).1) :: t.assigned ∧
        (r.explicit? = none → (t.answer r).1 = freeName t.taken r.base) := by
  cases hex : r.explicit? with
  | none =>
    cases hknown : t.assigned.lookup r.key with
    | some given =>
      rw [answer_generated_known hex hknown]
      exact .inl rfl
    | none =>
      rw [answer_generated_new hex hknown]
      exact .inr ⟨rfl, fun _ => rfl⟩
  | some n =>
    cases r with
    | «variable» v =>
      cases hknown : t.assigned.lookup (.variable v.id) with
      | some given =>
        rw [answer_variable_known hex hknown]
        exact .inl rfl
      | none =>
        rw [answer_variable_new hex hknown]
        exact .inr ⟨rfl, fun h => nomatch h⟩
    | captured object => cases hex
    | capturedMember object member =>
      rw [answer_member hex]
      exact .inl rfl

theorem MadeFor.answer {asked : List NameRequest} {t : NameTable} (h : t.MadeFor asked) (r : NameRequest) :
    (t.answer r).2.MadeFor (r :: asked) := by
  have hbefore : ∀ key name, t.assigned.lookup key = some name →
      ∃ q ∈ r :: asked, q.key = key ∧ (q.explicit? = none → ∃ taken, name = freeName taken q.base) := by
    intro key name hkey
    obtain ⟨q, hq, hmade⟩ := h key name hkey
    exact ⟨q, List.mem_cons_of_mem r hq, hmade⟩
  intro key name hkey
  rcases t.assigned_answer r with hsame | ⟨hnew, hmade⟩
  · rw [hsame] at hkey
    exact hbefore key name hkey
  · rw [hnew, lookup_cons_eq] at hkey
    split at hkey
    · next heq =>
      cases hkey
      exact ⟨r, List.mem_cons_self, heq.symm, fun hgen => ⟨t.taken, hmade hgen⟩⟩
    · exact hbefore key name hkey

theorem Reached.madeFor {asked : List NameRequest} {t : NameTable} (h : Reached asked t) : t.MadeFor asked := by
  induction h with
  | empty => exact fun _ _ hkey => nomatch hkey
  | reserve _ _ ih => exact ih
  | answer _ r ih => exact ih.answer r

/-- A name that is generated in any state of a table, or was generated before, has a mark of a compiler exactly
    if what it is made from has one. Here `distinct` says that there is one question about one thing. -/
theorem generated_name_marked_iff {asked : List NameRequest} {t : NameTable} (reached : Reached asked t)
    (r : NameRequest) (distinct : ∀ q ∈ asked, q.key = r.key → q = r) (generated : r.explicit? = none) :
    Name.isSynthesized (t.answer r).1 = true ↔ ∃ source, r.MadeFrom source ∧ Name.isSynthesized source = true := by
  have hmade : ∃ taken, (t.answer r).1 = freeName taken r.base := by
    cases hknown : t.assigned.lookup r.key with
    | some given =>
      obtain ⟨q, hq, hkey, hmade⟩ := reached.madeFor _ _ hknown
      obtain rfl := distinct q hq hkey
      rw [answer_generated_known generated hknown]
      exact hmade generated
    | none =>
      rw [answer_generated_new generated hknown]
      exact ⟨t.taken, rfl⟩
  obtain ⟨taken, hname⟩ := hmade
  rw [hname, Name.isSynthesized_freeName, r.isSynthesized_base]

section Examples

private def plainVariable : Variable := ⟨0, some "x", .int⟩

private def hoistedVariable : Variable := ⟨1, some "<x>5__1", .int⟩

/-- An array of objects whose class has no readable part in its name. -/
private def closures : Captured := ⟨0, .array (.named none "<>c" []) 1⟩

private def afterPlain : NameTable :=
  (({} : NameTable).answer (.variable plainVariable)).2

/-- The name of the hoisted variable has no mark and is made from nothing with a mark; the name of the array is
    made from something with a mark, and so has one. -/
theorem generated_name_marked_iff_hoisted :
    Reached [.variable plainVariable] afterPlain ∧
    (∀ r ∈ [NameRequest.variable hoistedVariable, .captured closures], r.explicit? = none ∧
      ∀ q ∈ [NameRequest.variable plainVariable], q.key = r.key → q = r) ∧
    (afterPlain.answer (.variable hoistedVariable)).1 = "x2" ∧
    (¬∃ source, (NameRequest.variable hoistedVariable).MadeFrom source ∧ Name.isSynthesized source = true) ∧
    (NameRequest.captured closures).MadeFrom "<>c" ∧
    Name.isSynthesized (afterPlain.answer (.captured closures)).1 = true := by
  have hreached : Reached [.variable plainVariable] afterPlain := .answer .empty _
  have hnames : ∀ r ∈ [NameRequest.variable hoistedVariable, .captured closures], r.explicit? = none ∧
      ∀ q ∈ [NameRequest.variable plainVariable], q.key = r.key → q = r := by decide +kernel
  have hhoisted : (afterPlain.answer (.variable hoistedVariable)).1 = "x2" := by decide +kernel
  have hmade : (NameRequest.captured closures).MadeFrom "<>c" := by
    refine .type (fun _ h => nomatch h) (.array (.whole rfl ?_))
    exact Name.surrogate?_eq_none_iff.mp (by decide +kernel)
  obtain ⟨hgenerated, hdistinct⟩ := hnames (.variable hoistedVariable) (by simp)
  obtain ⟨hgenerated', hdistinct'⟩ := hnames (.captured closures) (by simp)
  refine ⟨hreached, hnames, hhoisted, ?_, hmade, ?_⟩
  · rw [← generated_name_marked_iff hreached _ hdistinct hgenerated, hhoisted]
    decide
  · exact (generated_name_marked_iff hreached _ hdistinct' hgenerated').mpr ⟨"<>c", hmade, by decide⟩

/-- Marks are left in a name by a type without a readable part, by a generic parameter, by a readable part with
    brackets in it and by one with a dollar sign. -/
theorem generated_name_with_mark :
    (∀ r ∈ [NameRequest.captured ⟨0, .named none "<>c" []⟩, .variable ⟨0, none, .array (.param "<T>") 1⟩,
        .variable ⟨0, some "<<Main>$>b__0", .int⟩, .capturedMember ⟨0, .int⟩ "CS$<>8__x$1"],
      r.explicit? = none ∧ Name.isSynthesized (({} : NameTable).answer r).1 = true) ∧
    (({} : NameTable).answer (.captured ⟨0, .named none "<>c" []⟩)).1 = "<>c" ∧
    (({} : NameTable).answer (.variable ⟨0, none, .array (.param "<T>") 1⟩)).1 = "<T>Array" ∧
    (({} : NameTable).answer (.variable ⟨0, some "<<Main>$>b__0", .int⟩)).1 = "<Main" ∧
    (({} : NameTable).answer (.capturedMember ⟨0, .int⟩ "CS$<>8__x$1")).1 = "x$1" := by
  decide +kernel

end Examples

end NameTable

end ExprText
