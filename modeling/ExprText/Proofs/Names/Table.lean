import ExprText.Proofs.Graph
import ExprText.Proofs.Run

/-! # Answers of name tables

A question is answered by the explicit name of what it asks about, or by a name that the table
generates. A generated name is free when it is given and no keyword, and it is kept: questions about
the same thing get the same answer. -/

namespace ExprText

/-! ### Free names -/

namespace NameTable

theorem toString_injective {m n : Nat} (h : toString m = toString n) : m = n := by
  have hdigits := congrArg String.toList h
  simp only [Nat.toString_eq_repr, Nat.toList_repr] at hdigits
  have := congrArg (fun ds => Nat.ofDigitChars 10 ds 0) hdigits
  simpa using this

theorem toString_ne_minus (m : Nat) (text : String) : toString m ≠ "-" ++ text := by
  intro h
  have hmem : '-' ∈ (toString m).toList := by simp [h]
  rw [Nat.toString_eq_repr, Nat.toList_repr] at hmem
  exact absurd (Nat.isDigit_of_mem_toDigits (by decide) (by decide) hmem) (by decide)

/-- Different numbers make different names. -/
theorem numbered_injective (base : String) {m n : Int} (h : base ++ toString m = base ++ toString n) :
    m = n := by
  have hnumbers : toString m = toString n := by simpa using h
  cases m with
  | ofNat m =>
    cases n with
    | ofNat n => exact congrArg Int.ofNat (toString_injective hnumbers)
    | negSucc n => exact absurd hnumbers (toString_ne_minus m _)
  | negSucc m =>
    cases n with
    | ofNat n => exact absurd hnumbers.symm (toString_ne_minus n _)
    | negSucc n =>
      have hvalues : "-" ++ toString (m + 1) = "-" ++ toString (n + 1) := hnumbers
      have := toString_injective (m := m + 1) (n := n + 1) (by simpa using hvalues)
      rw [Nat.add_right_cancel this]

theorem number_of_lt {turn : Nat} (h : turn < 2147483646) : number turn = turn + 2 := by
  rw [number, if_pos (Nat.lt_trans h (by decide)), Int32.toInt_ofNat_of_lt (by omega)]
  rfl

/-- After the greatest number come those below two. -/
theorem number_lt_two {turn : Nat} (h : 2147483646 ≤ turn) (hlt : turn < Int32.size) : number turn < 2 := by
  rw [number, if_pos hlt, Int32.toInt_ofNat', Int.bmod_def]
  rw [Int32.size] at hlt ⊢
  omega

theorem number_injective {m n : Nat} (h : number m = number n) : m = n := by
  unfold number at h
  simp only [Int32.toInt_ofNat', Int.bmod_def, Int32.size] at h
  split at h <;> split at h <;> omega

/-- Of more numbers than there are taken names one makes a free name. -/
theorem exists_free_number (taken : List String) (base : String) :
    ∃ turn, turn < taken.length + 1 ∧ base ++ toString (number turn) ∉ taken := by
  apply Classical.byContradiction
  intro hnone
  have hsub : (List.range (taken.length + 1)).map (fun turn => base ++ toString (number turn)) ⊆ taken := by
    intro name hname
    obtain ⟨turn, hturn, rfl⟩ := List.mem_map.mp hname
    apply Classical.byContradiction
    intro hfree
    exact hnone ⟨turn, List.mem_range.mp hturn, hfree⟩
  have hnodup : ((List.range (taken.length + 1)).map fun turn => base ++ toString (number turn)).Nodup := by
    refine List.pairwise_map.mpr (List.nodup_range.imp ?_)
    intro m n hne h
    exact hne (number_injective (numbered_injective base h))
  have hlen := hnodup.length_le_of_subset hsub
  rw [List.length_map, List.length_range] at hlen
  omega

theorem freeName_of_not_mem {taken : List String} (h : base ∉ taken) : freeName taken base = base :=
  if_neg (by simpa using h)

/-- If `base` is taken, the name is made in the first turn whose number makes it free. -/
theorem freeName_of_mem {taken : List String} (h : base ∈ taken) :
    ∃ turn, freeName taken base = base ++ toString (number turn) ∧ base ++ toString (number turn) ∉ taken ∧
      ∀ earlier < turn, base ++ toString (number earlier) ∈ taken := by
  obtain ⟨m, hm, hfree⟩ := exists_free_number taken base
  have hsome : ((List.range (taken.length + 1)).find? fun turn =>
      !taken.contains (base ++ toString (number turn))).isSome = true := by
    rw [List.find?_isSome]
    exact ⟨m, List.mem_range.mpr hm, by simpa using hfree⟩
  obtain ⟨turn, hfind⟩ := Option.isSome_iff_exists.mp hsome
  have hname : freeName taken base = base ++ toString (number turn) := by
    rw [freeName, if_pos (List.contains_iff_mem.mpr h), List.find?_map]
    simp only [Function.comp_def, hfind, Option.map_some, Option.getD_some]
  obtain ⟨hturn, -, hfirst⟩ := List.find?_range_eq_some.mp hfind
  refine ⟨turn, hname, by simpa using hturn, ?_⟩
  intro earlier hlt
  have := hfirst earlier hlt
  rwa [Bool.not_not, List.contains_iff_mem] at this

theorem freeName_cases (taken : List String) (base : String) :
    freeName taken base ∉ taken ∧
      (freeName taken base = base ∨ ∃ n : Int, freeName taken base = base ++ toString n) := by
  by_cases hbase : base ∈ taken
  · obtain ⟨turn, hname, hfree, -⟩ := freeName_of_mem hbase
    exact ⟨hname ▸ hfree, Or.inr ⟨_, hname⟩⟩
  · rw [freeName_of_not_mem hbase]
    exact ⟨hbase, Or.inl rfl⟩

end NameTable

/-! ### Keywords -/

namespace Name

theorem isKeyword_avoidKeyword (name : String) : isKeyword (avoidKeyword name) = false := by
  unfold avoidKeyword
  split
  · have hall : ∀ k ∈ keywords, isKeyword (k ++ "Value") = false := by decide +kernel
    exact hall name (List.contains_iff_mem.mp ‹_›)
  · simpa using ‹¬isKeyword name = true›

theorem exists_eq_avoidKeyword_surrogate? {name part : String} (h : surrogate? name = some part) :
    ∃ x, part = avoidKeyword x := by
  obtain ⟨cs, -, rfl⟩ := Option.map_eq_some_iff.mp h
  exact ⟨String.ofList cs, rfl⟩

theorem isKeyword_readable (name : String) (ty : Ty) : isKeyword (readable name ty) = false := by
  unfold readable
  cases h : surrogate? name with
  | none => exact isKeyword_avoidKeyword _
  | some part =>
    obtain ⟨x, rfl⟩ := exists_eq_avoidKeyword_surrogate? h
    exact isKeyword_avoidKeyword x

/-- A keyword does not end in a digit. -/
theorem isKeyword_append_digits (base : String) (n : Nat) : isKeyword (base ++ toString n) = false := by
  have hall : ∀ k ∈ keywords, k.toList.getLast?.any Char.isDigit = false := by decide +kernel
  cases h : isKeyword (base ++ toString n) with
  | false => rfl
  | true =>
    have hlast := hall _ (List.contains_iff_mem.mp h)
    have hne : Nat.toDigits 10 n ≠ [] := Nat.toDigits_ne_nil
    rw [String.toList_append, Nat.toString_eq_repr, Nat.toList_repr, List.getLast?_append,
      List.getLast?_eq_some_getLast hne] at hlast
    have hdigit := Nat.isDigit_of_mem_toDigits (by decide) (by decide) (List.getLast_mem hne)
    simp [hdigit] at hlast

theorem isKeyword_numbered (base : String) (n : Int) : isKeyword (base ++ toString n) = false := by
  cases n with
  | ofNat n => exact isKeyword_append_digits base n
  | negSucc n =>
    have hminus : base ++ toString (Int.negSucc n) = base ++ "-" ++ toString (n + 1) :=
      String.append_assoc.symm
    rw [hminus]
    exact isKeyword_append_digits _ _

end Name

/-! ### Answers -/

namespace NameRequest

/-- The name that a person chose for what is asked about. -/
def explicit? : NameRequest → Option String
  | .variable v => v.explicitName?
  | .captured _ => none
  | .capturedMember _ member => if Name.isSynthesized member then none else some member

/-- What a generated name is made from. -/
def base : NameRequest → String
  | .variable v =>
    match v.name with
    | none => Name.ofTy v.ty
    | some name => Name.readable name v.ty
  | .captured object => Name.ofTy object.ty
  | .capturedMember object member => Name.readable member object.ty

theorem isKeyword_base (r : NameRequest) : Name.isKeyword r.base = false := by
  cases r with
  | «variable» v =>
    simp only [base]
    cases v.name with
    | none => exact Name.isKeyword_avoidKeyword _
    | some name => exact Name.isKeyword_readable name v.ty
  | captured object => exact Name.isKeyword_avoidKeyword _
  | capturedMember object member => exact Name.isKeyword_readable member object.ty

end NameRequest

namespace NameTable

variable {t : NameTable} {r : NameRequest}

theorem answer_generated (h : r.explicit? = none) : t.answer r = t.claimFor r.key r.base := by
  cases r with
  | «variable» v =>
    simp only [NameRequest.explicit?, Variable.explicitName?] at h
    simp only [answer, variableName, NameRequest.base, NameRequest.key]
    cases hv : v.name with
    | none => rfl
    | some name =>
      rw [hv, Option.filter_eq_none_iff] at h
      have hsyn : Name.isSynthesized name = true := by simpa using h name rfl
      simp only [hsyn, if_true]
  | captured object => rfl
  | capturedMember object member =>
    simp only [NameRequest.explicit?] at h
    simp only [answer, capturedMemberName, NameRequest.base, NameRequest.key]
    split at h
    · rw [if_pos ‹_›]
    · cases h

theorem answer_variable_new {v : Variable} {n : String} (h : v.explicitName? = some n)
    (hnew : t.assigned.lookup (.variable v.id) = none) :
    t.answer (.variable v) =
      (n, { assigned := (.variable v.id, n) :: t.assigned, taken := n :: t.taken }) := by
  obtain ⟨hv, hsyn⟩ := Option.filter_eq_some_iff.mp h
  have hsyn : Name.isSynthesized n = false := by simpa using hsyn
  simp [answer, variableName, hv, hsyn, hnew, assign]

theorem answer_variable_known {v : Variable} {n given : String} (h : v.explicitName? = some n)
    (hknown : t.assigned.lookup (.variable v.id) = some given) :
    t.answer (.variable v) = (given, t) := by
  obtain ⟨hv, hsyn⟩ := Option.filter_eq_some_iff.mp h
  have hsyn : Name.isSynthesized n = false := by simpa using hsyn
  simp [answer, variableName, hv, hsyn, hknown]

theorem answer_member {object : Captured} {member n : String}
    (h : (NameRequest.capturedMember object member).explicit? = some n) :
    t.answer (.capturedMember object member) = (n, t) := by
  simp only [NameRequest.explicit?] at h
  split at h
  · cases h
  · cases h
    simp [answer, capturedMemberName, *]

theorem answer_generated_new (h : r.explicit? = none) (hnew : t.assigned.lookup r.key = none) :
    t.answer r =
      (freeName t.taken r.base,
        { assigned := (r.key, freeName t.taken r.base) :: t.assigned,
          taken := freeName t.taken r.base :: t.taken }) := by
  rw [answer_generated h, claimFor, hnew]
  rfl

theorem answer_generated_known {given : String} (h : r.explicit? = none)
    (hknown : t.assigned.lookup r.key = some given) : t.answer r = (given, t) := by
  rw [answer_generated h, claimFor, hknown]

theorem isKeyword_freeName (taken : List String) (r : NameRequest) :
    Name.isKeyword (freeName taken r.base) = false := by
  rcases (freeName_cases taken r.base).2 with h | ⟨n, h⟩
  · rw [h]
    exact r.isKeyword_base
  · rw [h]
    exact Name.isKeyword_numbered r.base n

end NameTable

end ExprText
