import Mathlib.Data.PFun
import ExprText.Proofs.Names.Table

/-! # Claims of names

Claiming takes a name as it stands if nobody has it, and otherwise goes on with two, three and so forth
until a name is free. The numbers have 32 bits: behind the greatest one the search fails, or, where sums wrap
around, goes on with the least one. So it finds the first free name as long as one of the numbers from two on
makes one, which is the case whenever fewer names are taken than there are such numbers. -/

namespace ExprText

namespace NameTable

/-! ### The search as a loop -/

/-- What follows the greatest number: nothing, so that the search fails, or the least number. -/
inductive Overflow where
  | fails
  | wraps
deriving DecidableEq, Repr

def Overflow.next : Overflow → Int32 → Option Int32
  | .fails, n => if n = Int32.maxValue then none else some (n + 1)
  | .wraps, n => some (n + 1)

/-- Takes a name unless somebody has it. -/
def take? (t : NameTable) (name : String) : Option NameTable :=
  if name ∈ t.taken then none else some { t with taken := name :: t.taken }

/-- One turn of the loop: takes the name that the number makes, or goes on with the next number. -/
def tryNumber (o : Overflow) (t : NameTable) (base : String) (n : Int32) : Part ((String × NameTable) ⊕ Int32) :=
  match t.take? (base ++ toString n) with
  | some t' => Part.some (.inl (base ++ toString n, t'))
  | none =>
    match o.next n with
    | some m => Part.some (.inr m)
    | none => Part.none

/-- The loop from a number on. It has no bound, so that it is a partial function. -/
def takeFrom (o : Overflow) (t : NameTable) (base : String) : Int32 →. String × NameTable :=
  PFun.fix (tryNumber o t base)

/-- Takes `base`, or else the first name of the loop from two on. -/
def search (o : Overflow) (t : NameTable) (base : String) : Part (String × NameTable) :=
  match t.take? base with
  | some t' => Part.some (base, t')
  | none => takeFrom o t base 2

variable {o : Overflow} {t : NameTable} {base name : String} {n m : Int32} {turn : Nat}
  {found : String × NameTable}

theorem take?_of_mem (h : name ∈ t.taken) : t.take? name = none :=
  if_pos h

theorem take?_of_not_mem (h : name ∉ t.taken) :
    t.take? name = some { t with taken := name :: t.taken } :=
  if_neg h

theorem takeFrom_of_mem (h : base ++ toString n ∈ t.taken) (hnext : o.next n = some m) :
    takeFrom o t base n = takeFrom o t base m := by
  refine PFun.fix_fwd_eq ?_
  simp only [tryNumber, take?_of_mem h, hnext]
  exact Part.mem_some _

theorem takeFrom_of_not_mem (h : base ++ toString n ∉ t.taken) :
    takeFrom o t base n =
      Part.some (base ++ toString n, { t with taken := (base ++ toString n) :: t.taken }) := by
  refine Part.eq_some_iff.mpr (PFun.fix_stop ?_)
  rw [tryNumber, take?_of_not_mem h]
  exact Part.mem_some _

/-! ### Turns of the loop -/

/-- How many turns there are before the search fails or comes back to two. -/
def Overflow.turns : Overflow → Nat
  | .fails => 2147483646
  | .wraps => Int32.size

theorem Overflow.le_turns (o : Overflow) : 2147483646 ≤ o.turns := by
  cases o <;> decide

theorem Overflow.turns_le (o : Overflow) : o.turns ≤ Int32.size := by
  cases o <;> decide

theorem toString_ofNat (h : turn < o.turns) : toString (Int32.ofNat (turn + 2)) = toString (number turn) := by
  rw [number, if_pos (lt_of_lt_of_le h o.turns_le)]
  rfl

theorem Overflow.next_ofNat (h : turn + 1 < o.turns) :
    o.next (Int32.ofNat (turn + 2)) = some (Int32.ofNat (turn + 1 + 2)) := by
  have hsum : Int32.ofNat (turn + 2) + 1 = Int32.ofNat (turn + 1 + 2) := by
    rw [show turn + 1 + 2 = turn + 2 + 1 by omega, Int32.ofNat_add (turn + 2) 1]
    rfl
  cases o with
  | wraps => exact congrArg some hsum
  | fails =>
    have hlt : turn + 1 < 2147483646 := h
    have hne : Int32.ofNat (turn + 2) ≠ Int32.maxValue := by
      intro heq
      have hvalue := congrArg Int32.toInt heq
      rw [Int32.toInt_ofNat_of_lt (by omega), Int32.toInt_maxValue] at hvalue
      omega
    rw [next, if_neg hne, hsum]

/-- After the last turn there is nothing, or the first one. -/
theorem Overflow.next_last (h : turn + 1 = o.turns) :
    o.next (Int32.ofNat (turn + 2)) = none ∨ o.next (Int32.ofNat (turn + 2)) = some (Int32.ofNat (0 + 2)) := by
  cases o with
  | fails =>
    obtain rfl : turn = 2147483645 := Nat.succ.inj h
    exact .inl rfl
  | wraps =>
    obtain rfl : turn = 4294967295 := Nat.succ.inj h
    exact .inr rfl

/-- The loop passes over every number whose name is taken. -/
theorem takeFrom_two (h : turn < o.turns) (htaken : ∀ earlier < turn, base ++ toString (number earlier) ∈ t.taken) :
    takeFrom o t base 2 = takeFrom o t base (Int32.ofNat (turn + 2)) := by
  induction turn with
  | zero => rfl
  | succ turn ih =>
    rw [ih (by omega) fun earlier hlt => htaken earlier (by omega)]
    refine takeFrom_of_mem ?_ (Overflow.next_ofNat h)
    rw [toString_ofNat (Nat.lt_of_succ_lt h)]
    exact htaken turn (by omega)

theorem inl_mem_tryNumber (h : .inl found ∈ tryNumber o t base n) : base ++ toString n ∉ t.taken := by
  intro hmem
  rw [tryNumber, take?_of_mem hmem] at h
  cases hnext : o.next n with
  | none =>
    rw [hnext] at h
    exact Part.notMem_none _ h
  | some m =>
    rw [hnext] at h
    cases Part.mem_some_iff.mp h

theorem inr_mem_tryNumber (h : .inr m ∈ tryNumber o t base n) : o.next n = some m := by
  unfold tryNumber at h
  split at h
  · cases Part.mem_some_iff.mp h
  · split at h
    · next hnext =>
      cases Part.mem_some_iff.mp h
      exact hnext
    · exact absurd h (Part.notMem_none _)

/-- What the loop finds is made in one of its turns. -/
theorem exists_turn_of_mem_takeFrom (h : found ∈ takeFrom o t base n) :
    ∀ turn < o.turns, n = Int32.ofNat (turn + 2) →
      ∃ turn < o.turns, base ++ toString (number turn) ∉ t.taken := by
  -- The induction is on the turns up to the last; where sums wrap around, the first turn can follow again.
  refine PFun.fixInduction' (C := fun n => ∀ turn < o.turns, n = Int32.ofNat (turn + 2) →
    ∃ turn < o.turns, base ++ toString (number turn) ∉ t.taken) h ?_ ?_
  · rintro _ hstop turn hlt rfl
    have hfree := inl_mem_tryNumber hstop
    rw [toString_ofNat hlt] at hfree
    exact ⟨turn, hlt, hfree⟩
  · rintro _ m - hgo ih turn hlt rfl
    have hnext := inr_mem_tryNumber hgo
    rcases Nat.lt_or_ge (turn + 1) o.turns with hmore | hlast
    · rw [Overflow.next_ofNat hmore] at hnext
      exact ih (turn + 1) hmore (Option.some.inj hnext).symm
    · rcases Overflow.next_last (Nat.le_antisymm hlt hlast) with hnone | hfirst
      · rw [hnone] at hnext
        cases hnext
      · rw [hfirst] at hnext
        exact ih 0 (by have := o.le_turns; omega) (Option.some.inj hnext).symm

/-! ### The name that is taken -/

theorem search_of_not_mem (h : base ∉ t.taken) : search o t base = Part.some (t.claim base) := by
  rw [search, take?_of_not_mem h, claim, freeName_of_not_mem h]

theorem search_of_first (h : base ∈ t.taken) (hlt : turn < o.turns)
    (hfree : base ++ toString (number turn) ∉ t.taken)
    (htaken : ∀ earlier < turn, base ++ toString (number earlier) ∈ t.taken) :
    search o t base = Part.some (base ++ toString (number turn),
      { t with taken := (base ++ toString (number turn)) :: t.taken }) := by
  rw [search, take?_of_mem h]
  show takeFrom o t base 2 = _
  rw [takeFrom_two hlt htaken, takeFrom_of_not_mem (by rwa [toString_ofNat hlt]), toString_ofNat hlt]

/-- A turn that makes a free name comes no earlier than the one in which the name is made. -/
theorem exists_first_turn (h : base ∈ t.taken) (hfree : base ++ toString (number turn) ∉ t.taken) :
    ∃ first ≤ turn, freeName t.taken base = base ++ toString (number first) ∧
      base ++ toString (number first) ∉ t.taken ∧
      ∀ earlier < first, base ++ toString (number earlier) ∈ t.taken := by
  obtain ⟨first, hname, hfirst, htaken⟩ := freeName_of_mem h
  exact ⟨first, Nat.le_of_not_lt fun hlt => hfree (htaken turn hlt), hname, hfirst, htaken⟩

theorem search_of_turn (h : base ∈ t.taken) (hlt : turn < o.turns)
    (hfree : base ++ toString (number turn) ∉ t.taken) : search o t base = Part.some (t.claim base) := by
  obtain ⟨first, hle, hname, hfirst, htaken⟩ := exists_first_turn h hfree
  rw [claim, hname]
  exact search_of_first h (Nat.lt_of_le_of_lt hle hlt) hfirst htaken

/-- A search that finds a name finds the one that the table claims. -/
theorem eq_claim_of_mem_search (h : found ∈ search o t base) :
    found = t.claim base ∧ (base ∉ t.taken ∨ ∃ turn < o.turns, base ++ toString (number turn) ∉ t.taken) := by
  by_cases hbase : base ∈ t.taken
  · have hloop : found ∈ takeFrom o t base 2 := by rwa [search, take?_of_mem hbase] at h
    obtain ⟨turn, hlt, hfree⟩ := exists_turn_of_mem_takeFrom hloop 0 (by have := o.le_turns; omega) rfl
    rw [search_of_turn hbase hlt hfree] at h
    exact ⟨Part.mem_some_iff.mp h, .inr ⟨turn, hlt, hfree⟩⟩
  · rw [search_of_not_mem hbase] at h
    exact ⟨Part.mem_some_iff.mp h, .inl hbase⟩

/-! ### The first free name -/

/-- Whether a name is `base` itself where nobody has that, and otherwise `base` with the least number from two
    on that makes it free. -/
inductive FirstFree (taken : List String) (base : String) : String → Prop
  | unnumbered (free : base ∉ taken) : FirstFree taken base base
  | numbered {k : Nat} (mem : base ∈ taken) (two_le : 2 ≤ k) (free : base ++ toString k ∉ taken)
    (least : ∀ j, 2 ≤ j → j < k → base ++ toString j ∈ taken) : FirstFree taken base (base ++ toString k)

theorem FirstFree.unique {taken : List String} {a b : String} (ha : FirstFree taken base a)
    (hb : FirstFree taken base b) : a = b := by
  cases ha with
  | unnumbered hfree =>
    cases hb with
    | unnumbered => rfl
    | numbered hmem => exact absurd hmem hfree
  | numbered hmem htwo hfree hleast =>
    cases hb with
    | unnumbered hfree => exact absurd hmem hfree
    | numbered _ htwo' hfree' hleast' =>
      have hle := Nat.le_of_not_lt fun hlt => hfree' (hleast _ htwo' hlt)
      have hge := Nat.le_of_not_lt fun hlt => hfree (hleast' _ htwo hlt)
      rw [Nat.le_antisymm hle hge]

theorem FirstFree.ne_of_lt_two {taken : List String} (h : FirstFree taken base name) (hbase : base ∈ taken) {n : Int}
    (hn : n < 2) : name ≠ base ++ toString n := by
  cases h with
  | unnumbered hfree => exact absurd hbase hfree
  | @numbered k mem htwo =>
    intro heq
    have : (k : Int) = n := numbered_injective base heq
    omega

/-! ### The names of all numbers -/

/-- Whether `base` is free or one of the numbers from two to the greatest makes it free. -/
def NumberLeft (taken : List String) (base : String) : Prop :=
  base ∉ taken ∨ ∃ k, 2 ≤ k ∧ k ≤ 2147483647 ∧ base ++ toString k ∉ taken

/-- `base` and what the numbers from two to `last` make of it. -/
def upTo (base : String) (last : Nat) : List String :=
  base :: (List.range (last - 1)).map fun turn => base ++ toString (turn + 2)

theorem mem_upTo {last : Nat} :
    name ∈ upTo base last ↔ name = base ∨ ∃ k, 2 ≤ k ∧ k ≤ last ∧ name = base ++ toString k := by
  rw [upTo, List.mem_cons, List.mem_map]
  refine or_congr_right ⟨?_, ?_⟩
  · rintro ⟨turn, hturn, rfl⟩
    have := List.mem_range.mp hturn
    exact ⟨turn + 2, by omega, by omega, rfl⟩
  · rintro ⟨k, htwo, hle, rfl⟩
    exact ⟨k - 2, List.mem_range.mpr (by omega), by rw [Nat.sub_add_cancel htwo]⟩

theorem nodup_upTo (base : String) (last : Nat) : (upTo base last).Nodup := by
  refine List.nodup_cons.mpr ⟨fun hmem => ?_, List.pairwise_map.mpr (List.nodup_range.imp ?_)⟩
  · obtain ⟨turn, -, hname⟩ := List.mem_map.mp hmem
    simp at hname
  · intro i j hne h
    have : ((i + 2 : Nat) : Int) = (j + 2 : Nat) := numbered_injective base h
    omega

theorem not_numberLeft_iff {taken : List String} : ¬NumberLeft taken base ↔ upTo base 2147483647 ⊆ taken := by
  simp only [NumberLeft, not_or, not_exists, not_and, not_not]
  constructor
  · rintro ⟨hbase, hnumbers⟩ name hname
    rcases mem_upTo.mp hname with rfl | ⟨k, htwo, hle, rfl⟩
    · exact hbase
    · exact hnumbers k htwo hle
  · exact fun hsub => ⟨hsub (mem_upTo.mpr (.inl rfl)), fun k htwo hle =>
      hsub (mem_upTo.mpr (.inr ⟨k, htwo, hle, rfl⟩))⟩

theorem numberLeft_of_length {taken : List String} (h : taken.length < 2147483647) (base : String) :
    NumberLeft taken base := by
  apply Classical.byContradiction
  intro hnone
  have hlen := (nodup_upTo base 2147483647).length_le_of_subset (not_numberLeft_iff.mp hnone)
  rw [upTo, List.length_cons, List.length_map, List.length_range] at hlen
  omega

/-- The first turns have the numbers from two on. -/
theorem numbered_of_lt (base : String) (h : turn < 2147483646) :
    base ++ toString (number turn) = base ++ toString (turn + 2) := by
  rw [number_of_lt h]
  rfl

theorem numbered_mem_upTo (base : String) (h : turn < 2147483646) :
    base ++ toString (number turn) ∈ upTo base 2147483647 := by
  rw [numbered_of_lt base h]
  exact mem_upTo.mpr (.inr ⟨turn + 2, by omega, by omega, rfl⟩)

theorem exists_turn_of_numberLeft (h : NumberLeft t.taken base) (hbase : base ∈ t.taken) :
    ∃ turn < 2147483646, base ++ toString (number turn) ∉ t.taken := by
  obtain ⟨k, htwo, hle, hfree⟩ := h.resolve_left (not_not_intro hbase)
  refine ⟨k - 2, by omega, ?_⟩
  rwa [numbered_of_lt base (by omega), Nat.sub_add_cancel htwo]

theorem search_of_numberLeft (h : NumberLeft t.taken base) : search o t base = Part.some (t.claim base) := by
  by_cases hbase : base ∈ t.taken
  · obtain ⟨turn, hlt, hfree⟩ := exists_turn_of_numberLeft h hbase
    exact search_of_turn hbase (Nat.lt_of_lt_of_le hlt o.le_turns) hfree
  · exact search_of_not_mem hbase

theorem firstFree_claim (h : NumberLeft t.taken base) : FirstFree t.taken base (t.claim base).1 := by
  show FirstFree t.taken base (freeName t.taken base)
  by_cases hbase : base ∈ t.taken
  · obtain ⟨turn, hlt, hfree⟩ := exists_turn_of_numberLeft h hbase
    obtain ⟨first, hle, hname, hfirst, htaken⟩ := exists_first_turn hbase hfree
    have hnumber := numbered_of_lt base (Nat.lt_of_le_of_lt hle hlt)
    rw [hname, hnumber]
    refine .numbered hbase (by omega) (hnumber ▸ hfirst) fun j htwo hj => ?_
    have hearlier := htaken (j - 2) (by omega)
    rwa [numbered_of_lt base (by omega), Nat.sub_add_cancel htwo] at hearlier
  · rw [freeName_of_not_mem hbase]
    exact .unnumbered hbase

/-- Where no number is left, the search finds nothing or a name with a number below two. -/
theorem lt_two_of_mem_search (hnone : ¬NumberLeft t.taken base) (h : found ∈ search o t base) :
    o = .wraps ∧ ∃ n : Int, n < 2 ∧ found.1 = base ++ toString n := by
  have htaken := not_numberLeft_iff.mp hnone
  have hbase : base ∈ t.taken := htaken (mem_upTo.mpr (.inl rfl))
  obtain ⟨rfl, hleft⟩ := eq_claim_of_mem_search h
  obtain ⟨turn, hlt, hfree⟩ := hleft.resolve_left (not_not_intro hbase)
  obtain ⟨first, hle, hname, hfirst, -⟩ := exists_first_turn hbase hfree
  have hpast : 2147483646 ≤ first := Nat.le_of_not_lt fun hearly => hfirst (htaken (numbered_mem_upTo base hearly))
  refine ⟨?_, number first, number_lt_two hpast ?_, hname⟩
  · cases o with
    | fails => exact absurd hpast (Nat.not_le_of_lt (Nat.lt_of_le_of_lt hle hlt))
    | wraps => rfl
  · exact Nat.lt_of_le_of_lt hle (Nat.lt_of_lt_of_le hlt o.turns_le)

theorem search_fails_of_not_numberLeft (hnone : ¬NumberLeft t.taken base) : search .fails t base = Part.none := by
  refine Part.eq_none_iff.mpr fun found hfound => ?_
  cases (lt_two_of_mem_search hnone hfound).1

theorem firstFree_upTo (base : String) {last : Nat} (h : 1 ≤ last) :
    FirstFree (upTo base last) base (base ++ toString (last + 1)) := by
  refine .numbered (mem_upTo.mpr (.inl rfl)) (by omega) (fun hmem => ?_) fun j htwo hlt => ?_
  · rcases mem_upTo.mp hmem with hname | ⟨k, -, hle, hname⟩
    · simp at hname
    · have : ((last + 1 : Nat) : Int) = k := numbered_injective base hname
      omega
  · exact mem_upTo.mpr (.inr ⟨j, htwo, by omega, rfl⟩)

theorem search_wraps_upTo (base : String) :
    search .wraps { taken := upTo base 2147483647 } base =
      Part.some (base ++ "-2147483648", { taken := (base ++ "-2147483648") :: upTo base 2147483647 }) := by
  have hnumber : number 2147483646 = -2147483648 := by decide
  have hleast : toString (number 2147483646) = "-2147483648" := by decide
  rw [← hleast]
  refine search_of_first (mem_upTo.mpr (.inl rfl)) (by decide) (fun hmem => ?_)
    fun earlier hlt => numbered_mem_upTo base hlt
  rcases mem_upTo.mp hmem with hname | ⟨k, -, -, hname⟩
  · simp [hleast] at hname
  · have : number 2147483646 = (k : Int) := numbered_injective base hname
    omega

/-- The search finds the first free name, and takes it and nothing else, exactly if `base` is free or a number
    from two to the greatest makes it free; so it does whenever fewer names are taken than `base` and those
    numbers make. What it finds is the name that the table claims, and nobody had it before. Where no number is
    left, it fails, or goes on to a number below two, if it finds a name at all. -/
theorem search_finds_first_free_iff (o : Overflow) (t : NameTable) (base : String) :
    ((∃ name, FirstFree t.taken base name ∧
        search o t base = Part.some (name, { t with taken := name :: t.taken })) ↔ NumberLeft t.taken base) ∧
      (t.taken.length < 2147483647 → NumberLeft t.taken base) ∧
      (∀ found ∈ search o t base, found = t.claim base ∧ found.1 ∉ t.taken ∧
        found.2 = { t with taken := found.1 :: t.taken }) ∧
      (¬NumberLeft t.taken base → search .fails t base = Part.none ∧
        ∀ found ∈ search .wraps t base, ∃ n : Int, n < 2 ∧ found.1 = base ++ toString n) := by
  refine ⟨⟨?_, fun h => ⟨_, firstFree_claim h, search_of_numberLeft h⟩⟩, fun h => numberLeft_of_length h base, ?_,
    fun hnone => ⟨search_fails_of_not_numberLeft hnone, fun found hfound => (lt_two_of_mem_search hnone hfound).2⟩⟩
  · rintro ⟨name, hfirst, hsearch⟩
    apply Classical.byContradiction
    intro hnone
    obtain ⟨-, n, hn, hname⟩ := lt_two_of_mem_search hnone (Part.eq_some_iff.mp hsearch)
    have hbase : base ∈ t.taken := not_numberLeft_iff.mp hnone (mem_upTo.mpr (.inl rfl))
    exact hfirst.ne_of_lt_two hbase hn hname
  · intro found hfound
    obtain ⟨rfl, -⟩ := eq_claim_of_mem_search hfound
    exact ⟨rfl, (freeName_cases t.taken base).1, rfl⟩

/-- Explicit names that look like numbered ones are passed over, up to the first gap. Where there is none up to
    the greatest number, the search can fail. -/
theorem search_passes_explicit_names :
    (["value3", "value", "value10", "value2"].length < 2147483647 ∧
        search .wraps { taken := ["value3", "value", "value10", "value2"] } "value" =
          Part.some ("value4", { taken := ["value4", "value3", "value", "value10", "value2"] })) ∧
      ¬NumberLeft (upTo "value" 2147483647) "value" ∧
        search .fails { taken := upTo "value" 2147483647 } "value" = Part.none := by
  have hlength : ["value3", "value", "value10", "value2"].length < 2147483647 := by decide
  have hnone : ¬NumberLeft (upTo "value" 2147483647) "value" := not_numberLeft_iff.mpr (List.Subset.refl _)
  obtain ⟨hiff, hleft, -⟩ :=
    search_finds_first_free_iff .wraps { taken := ["value3", "value", "value10", "value2"] } "value"
  obtain ⟨-, -, -, hfails⟩ := search_finds_first_free_iff .fails { taken := upTo "value" 2147483647 } "value"
  obtain ⟨name, hfirst, hsearch⟩ := hiff.mpr (hleft hlength)
  have hfour : FirstFree ["value3", "value", "value10", "value2"] "value" "value4" := by
    refine .numbered (k := 4) (by decide) (by decide) (by decide) fun j htwo hlt => ?_
    obtain rfl | rfl : j = 2 ∨ j = 3 := by omega
    · decide
    · decide
  obtain rfl := hfirst.unique hfour
  exact ⟨⟨hlength, hsearch⟩, hnone, (hfails hnone).1⟩

/-- Behind the greatest number the search fails, or takes a name with the least number, although a name with the
    next number is free. -/
theorem search_runs_out_of_numbers :
    FirstFree (upTo "v" 2147483647) "v" "v2147483648" ∧
      search .fails { taken := upTo "v" 2147483647 } "v" = Part.none ∧
      search .wraps { taken := upTo "v" 2147483647 } "v" =
        Part.some ("v-2147483648", { taken := "v-2147483648" :: upTo "v" 2147483647 }) :=
  ⟨firstFree_upTo "v" (by decide),
    search_fails_of_not_numberLeft (not_numberLeft_iff.mpr (List.Subset.refl _)), search_wraps_upTo "v"⟩

end NameTable

end ExprText
