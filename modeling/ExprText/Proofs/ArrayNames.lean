import ExprText.Proofs.Names.Spelling

/-! # Names of arrays of arrays

The name of an array type is the name of its elements with one rank specifier after it. A reader of such names
takes the leftmost specifier for the outermost array. So where arrays are nested, the name says their ranks
from the inside out: it is read as the type with all ranks in the opposite order, and as the type itself only
if its ranks are the same from both ends. -/

namespace ExprText

open Text

namespace Ty

/-- Arrays of arrays around a type, with the rank of the outermost first. -/
def arrayOf (leaf : Ty) : List Nat → Ty
  | [] => leaf
  | rank :: ranks => .array (arrayOf leaf ranks) rank

/-! ### Reading names -/

/-- Reads rank specifiers from left to right, from between two of them or after so many commas and the bracket
    before them. A specifier has one comma less than dimensions. -/
def readRanks : Option Nat → List Char → Option (List Nat)
  | none, [] => some []
  | none, '[' :: cs => readRanks (some 0) cs
  | some commas, ',' :: cs => readRanks (some (commas + 1)) cs
  | some commas, ']' :: cs => (readRanks none cs).map ((commas + 1) :: ·)
  | _, _ => none

/-- Reads the name of an array type: the name before its specifiers, and the ranks of its arrays from the
    outermost to the innermost. -/
def readArrays (text : String) : Option (String × List Nat) :=
  (readRanks none (text.toList.dropWhile (· != '['))).map fun ranks =>
    (String.ofList (text.toList.takeWhile (· != '[')), ranks)

theorem readRanks_commas (commas more : Nat) (cs : List Char) :
    readRanks (some commas) (List.replicate more ',' ++ ']' :: cs) =
      (readRanks none cs).map ((commas + more + 1) :: ·) := by
  induction more generalizing commas with
  | zero => rfl
  | succ more ih =>
    have hsum : commas + 1 + more = commas + (more + 1) := by omega
    rw [List.replicate_succ, List.cons_append, readRanks, ih, hsum]

theorem readRanks_brackets {ranks : List Nat} (h : ∀ rank ∈ ranks, 1 ≤ rank) :
    readRanks none (ranks.flatMap fun rank => (rankBrackets rank).toList) = some ranks := by
  induction ranks with
  | nil => rfl
  | cons rank ranks ih =>
    obtain ⟨hrank, hranks⟩ := List.forall_mem_cons.mp h
    have hbrackets : (rankBrackets rank).toList = '[' :: (List.replicate (rank - 1) ',' ++ [']']) := by
      simp [rankBrackets, String.toList_append]
    have hcount : 0 + (rank - 1) + 1 = rank := by omega
    rw [List.flatMap_cons, hbrackets, List.cons_append, List.append_assoc, readRanks, List.singleton_append,
      readRanks_commas, ih hranks, hcount]
    rfl

/-! ### Names that are read -/

/-- The specifiers of a name stand in the order in which its arrays are nested, the innermost first. -/
theorem toList_display_arrayOf (qualified : Bool) (leaf : Ty) (ranks : List Nat) :
    ((leaf.arrayOf ranks).display qualified).toList =
      (leaf.display qualified).toList ++ ranks.reverse.flatMap fun rank => (rankBrackets rank).toList := by
  induction ranks with
  | nil => simp [arrayOf]
  | cons rank ranks ih =>
    rw [arrayOf, display, String.toList_append, ih, List.reverse_cons, List.flatMap_append, List.append_assoc]
    simp

/-- The name of a type without arguments has no specifier of its own. -/
theorem free_display_leaf (qualified : Bool) {ns : Option String} {name : String}
    (hns : ∀ n ∈ ns, Free ['['] n) (hname : Free ['['] name) :
    Free ['['] ((Ty.named ns name []).display qualified) := by
  rw [display]
  split
  · next keyword hkeyword =>
    have hall : ∀ k ∈ keywords.map Prod.snd, Free ['['] k := by decide +kernel
    exact hall keyword (Name.mem_of_keywordOf hkeyword)
  · simp only [displayAll, namedDisplay, List.isEmpty_nil, if_true]
    split
    · exact ((hns _ rfl).append (by decide)).append hname
    · exact hname

/-- A name is read apart from the specifiers after it. -/
theorem readArrays_eq {text leaf : String} (h : Free ['['] leaf) {ranks : List Nat}
    (hranks : ∀ rank ∈ ranks, 1 ≤ rank)
    (htext : text.toList = leaf.toList ++ ranks.flatMap fun rank => (rankBrackets rank).toList) :
    readArrays text = some (leaf, ranks) := by
  have hleaf : ∀ c ∈ leaf.toList, (c != '[') = true := by simpa [Free] using h
  have hstop : (ranks.flatMap fun rank => (rankBrackets rank).toList).takeWhile (· != '[') = [] ∧
      (ranks.flatMap fun rank => (rankBrackets rank).toList).dropWhile (· != '[') =
        ranks.flatMap fun rank => (rankBrackets rank).toList := by
    cases ranks with
    | nil => exact ⟨rfl, rfl⟩
    | cons rank ranks => simp [rankBrackets, String.toList_append]
  rw [readArrays, htext, List.takeWhile_append_of_pos hleaf, List.dropWhile_append_of_pos hleaf, hstop.1, hstop.2,
    readRanks_brackets hranks, List.append_nil, Option.map_some, String.ofList_toList]

/-- The name of an array type is read as the arrays with their ranks in the opposite order, and as the arrays
    themselves exactly if their ranks are the same from both ends. -/
theorem array_name_reads_inside_out (qualified : Bool) (ns : Option String) (name : String)
    (hns : ∀ n ∈ ns, Free ['['] n) (hname : Free ['['] name) (ranks : List Nat)
    (hranks : ∀ rank ∈ ranks, 1 ≤ rank) :
    readArrays (((Ty.named ns name []).arrayOf ranks).display qualified) =
        some ((Ty.named ns name []).display qualified, ranks.reverse) ∧
      (readArrays (((Ty.named ns name []).arrayOf ranks).display qualified) =
        some ((Ty.named ns name []).display qualified, ranks) ↔ ranks.reverse = ranks) := by
  have hreverse : ∀ rank ∈ ranks.reverse, 1 ≤ rank := fun rank h => hranks rank (List.mem_reverse.mp h)
  have hread := readArrays_eq (free_display_leaf qualified hns hname) hreverse
    (toList_display_arrayOf qualified (.named ns name []) ranks)
  refine ⟨hread, ?_⟩
  rw [hread]
  simp

/-- A table of rows of tables is read as it is; a row of tables is read as a table of rows. -/
theorem array_name_reads_inside_out_tables :
    Free ['['] "System" ∧ Free ['['] "Int32" ∧ (∀ rank ∈ [2, 1, 2], 1 ≤ rank) ∧
    (Ty.int.arrayOf [2, 1, 2]).display false = "int[,][][,]" ∧
    readArrays "int[,][][,]" = some ("int", [2, 1, 2]) ∧
    (Ty.int.arrayOf [1, 2]).display true = "int[,][]" ∧
    readArrays "int[,][]" = some ("int", [2, 1]) := by
  have hns : ∀ n ∈ some "System", Free ['['] n := by
    rintro _ ⟨⟩
    decide
  have hranks : (∀ rank ∈ [2, 1, 2], 1 ≤ rank) ∧ ∀ rank ∈ [1, 2], 1 ≤ rank := by decide
  have hdisplay : (Ty.int.arrayOf [2, 1, 2]).display false = "int[,][][,]" ∧
      (Ty.int.arrayOf [1, 2]).display true = "int[,][]" := by decide +kernel
  obtain ⟨-, hsame⟩ := array_name_reads_inside_out false (some "System") "Int32" hns (by decide) [2, 1, 2] hranks.1
  obtain ⟨hreversed, -⟩ := array_name_reads_inside_out true (some "System") "Int32" hns (by decide) [1, 2] hranks.2
  have htables : readArrays ((Ty.int.arrayOf [2, 1, 2]).display false) = some ("int", [2, 1, 2]) := hsame.mpr rfl
  have hrow : readArrays ((Ty.int.arrayOf [1, 2]).display true) = some ("int", [2, 1]) := hreversed
  rw [hdisplay.1] at htables
  rw [hdisplay.2] at hrow
  exact ⟨by decide, by decide, hranks.1, hdisplay.1, htables, hdisplay.2, hrow⟩

/-- The name of an array of tables is the name that a table of arrays should have. -/
theorem array_name_misread :
    (Ty.array (.array .int 2) 1).display false = "int[,][]" ∧
    readArrays "int[,][]" = some ("int", [2, 1]) ∧ readArrays "int[,][]" ≠ some ("int", [1, 2]) := by
  decide +kernel

end Ty

end ExprText
