import Mathlib.Data.List.Basic
import ExprText.Text.Lines

/-! # Lines of texts

How the lines of a text come of those of its parts. Indenting puts blanks at the start of lines: a reader
who passes over blanks at the start of a line reads an indented text as the text itself. -/

namespace ExprText.Text

theorem toList_join_cons (sep x : String) : ∀ xs : List String,
    (join sep (x :: xs)).toList = x.toList ++ xs.flatMap fun y => sep.toList ++ y.toList
  | [] => by simp [join]
  | y :: ys => by
    rw [join, String.toList_append, String.toList_append, toList_join_cons sep y ys]
    simp

theorem splitLines_ne_nil (cs : List Char) : splitLines cs ≠ [] := by
  fun_cases splitLines cs <;> simp_all

/-- The characters of a line with blanks before it. -/
def indentedLine (n : Nat) (line : List Char) : List Char :=
  if line.isEmpty then line else List.replicate n ' ' ++ line

theorem toList_indented (n : Nat) {text : String} {first : List Char} {rest : List (List Char)}
    (h : splitLines text.toList = first :: rest) :
    (indented (blanks n) text).toList =
      indentedLine n first ++ rest.flatMap fun line => '\n' :: indentedLine n line := by
  have hline : ∀ line : List Char,
      (if (String.ofList line).isEmpty then String.ofList line
        else blanks n ++ String.ofList line).toList = indentedLine n line := by
    intro line
    cases line <;> simp [indentedLine, blanks]
  rw [indented, lines, h, List.map_cons, List.map_cons, toList_join_cons, hline, List.map_map,
    List.flatMap_map]
  simp only [Function.comp_apply, hline]
  rfl

section Reading
variable {σ β : Type} (read : σ → List Char → β) (next : σ → Char → σ)
  (hcons : ∀ s c cs ds, read (next s c) cs = read (next s c) ds → read s (c :: cs) = read s (c :: ds))
  (hblank : ∀ s cs, read (next s '\n') (' ' :: cs) = read (next s '\n') cs)

theorem read_indentedLine {s : σ} (hs : ∀ cs, read s (' ' :: cs) = read s cs) (n : Nat)
    (line rest : List Char) : read s (indentedLine n line ++ rest) = read s (line ++ rest) := by
  unfold indentedLine
  split
  · rfl
  · rw [List.append_assoc]
    induction n with
    | zero => rfl
    | succ n ih => rw [List.replicate_succ, List.cons_append, hs, ih]

include hcons hblank

theorem read_lines (n : Nat) : ∀ (cs : List Char) (s : σ) (first : List Char) (rest : List (List Char)),
    splitLines cs = first :: rest →
    read s (first ++ rest.flatMap fun line => '\n' :: indentedLine n line) = read s cs
  | [], s, first, rest, h => by
    cases h
    rfl
  | c :: cs, s, first, rest, h => by
    obtain ⟨line, lines, hlines⟩ := List.exists_cons_of_ne_nil (splitLines_ne_nil cs)
    rw [splitLines, hlines] at h
    have ih := fun s => read_lines n cs s line lines hlines
    split at h
    · next hc =>
      subst hc
      cases h
      rw [List.nil_append, List.flatMap_cons, List.cons_append]
      refine hcons s '\n' _ _ ?_
      rw [read_indentedLine read (hblank s)]
      exact ih _
    · cases h
      exact hcons s c _ _ (ih _)

/-- A reader who passes over blanks after line breaks reads an indented text as it reads the text. -/
theorem read_indented (n : Nat) (text : String) {s : σ} (hs : ∀ cs, read s (' ' :: cs) = read s cs) :
    read s (indented (blanks n) text).toList = read s text.toList := by
  obtain ⟨first, rest, h⟩ := List.exists_cons_of_ne_nil (splitLines_ne_nil text.toList)
  rw [toList_indented n h, read_indentedLine read hs, read_lines read next hcons hblank n _ s first rest h]

end Reading

/-! ### Lines of composed texts -/

/-- The last line of a text and the first of the one after it are one line. -/
theorem splitLines_append {ds first : List Char} {rest : List (List Char)} (hds : splitLines ds = first :: rest) :
    ∀ (cs : List Char) {front : List (List Char)} {last : List Char}, splitLines cs = front ++ [last] →
      splitLines (cs ++ ds) = front ++ (last ++ first) :: rest
  | [], front, last, hcs => by
    have hcs : [] ++ [[]] = front ++ [last] := hcs
    obtain ⟨rfl, rfl⟩ := List.append_singleton_inj.mp hcs
    exact hds
  | c :: cs, front, last, hcs => by
    obtain ⟨front', last', hline⟩ := (List.eq_nil_or_concat' (splitLines cs)).resolve_left (splitLines_ne_nil cs)
    have ih := splitLines_append hds cs hline
    rw [splitLines, hline] at hcs
    rw [List.cons_append, splitLines, ih]
    split at hcs
    · next hc =>
      rw [← List.cons_append] at hcs
      obtain ⟨rfl, rfl⟩ := List.append_singleton_inj.mp hcs
      rw [if_pos hc]
      rfl
    · next hc =>
      rw [if_neg hc]
      cases front' with
      | nil =>
        have hcs : [] ++ [c :: last'] = front ++ [last] := hcs
        obtain ⟨rfl, rfl⟩ := List.append_singleton_inj.mp hcs
        rfl
      | cons line front' =>
        have hcs : (c :: line) :: front' ++ [last'] = front ++ [last] := hcs
        obtain ⟨rfl, rfl⟩ := List.append_singleton_inj.mp hcs
        rfl

theorem append_flatMap_of_splitLines : ∀ {cs first : List Char} {rest : List (List Char)},
    splitLines cs = first :: rest → first ++ rest.flatMap (fun line => '\n' :: line) = cs
  | [], first, rest, h => by
    cases h
    rfl
  | c :: cs, first, rest, h => by
    obtain ⟨line, lines, hlines⟩ := List.exists_cons_of_ne_nil (splitLines_ne_nil cs)
    have ih := append_flatMap_of_splitLines hlines
    rw [splitLines, hlines] at h
    split at h
    · next hc =>
      cases h
      rw [hc, List.nil_append, List.flatMap_cons, List.cons_append, ih]
    · cases h
      rw [List.cons_append, ih]

theorem splitLines_of_not_mem : ∀ {cs : List Char}, '\n' ∉ cs → splitLines cs = [cs]
  | [], _ => rfl
  | c :: cs, h => by
    obtain ⟨hc, hcs⟩ := List.ne_and_not_mem_of_not_mem_cons h
    rw [splitLines, if_neg hc.symm, splitLines_of_not_mem hcs]

theorem not_mem_of_mem_splitLines : ∀ {cs line : List Char}, line ∈ splitLines cs → '\n' ∉ line
  | [], line, h => by
    obtain rfl := List.mem_singleton.mp h
    exact List.not_mem_nil
  | c :: cs, line, h => by
    obtain ⟨first, rest, hlines⟩ := List.exists_cons_of_ne_nil (splitLines_ne_nil cs)
    have ih : ∀ l ∈ first :: rest, '\n' ∉ l := fun l hl => not_mem_of_mem_splitLines (hlines ▸ hl)
    rw [splitLines, hlines] at h
    split at h
    · rcases List.mem_cons.mp h with rfl | h
      · exact List.not_mem_nil
      · exact ih line h
    · next hc =>
      rcases List.mem_cons.mp h with rfl | h
      · exact List.not_mem_cons_of_ne_of_not_mem (Ne.symm hc) (ih first List.mem_cons_self)
      · exact ih line (List.mem_cons_of_mem _ h)

theorem lines_ne_nil (text : String) : lines text ≠ [] := by
  rw [lines, ne_eq, List.map_eq_nil_iff]
  exact splitLines_ne_nil _

theorem exists_last_line (text : String) : ∃ front last, lines text = front ++ [last] :=
  (List.eq_nil_or_concat' _).resolve_left (lines_ne_nil text)

theorem lines_append {a b : String} {front rest : List String} {last first : String}
    (ha : lines a = front ++ [last]) (hb : lines b = first :: rest) :
    lines (a ++ b) = front ++ (last ++ first) :: rest := by
  unfold lines at ha hb ⊢
  obtain ⟨front', last', hcs, rfl, hlast⟩ := List.map_eq_append_iff.mp ha
  obtain ⟨last', rfl, rfl⟩ := List.map_eq_singleton_iff.mp hlast
  obtain ⟨first', rest', hds, rfl, rfl⟩ := List.map_eq_cons_iff.mp hb
  rw [String.toList_append, splitLines_append hds _ hcs]
  simp

theorem lines_break (b : String) : lines ("\n" ++ b) = "" :: lines b := by
  simp [lines, splitLines]

/-- What stands before a line break and what stands after it are on lines of their own. -/
theorem lines_append_break (a b : String) : lines (a ++ "\n" ++ b) = lines a ++ lines b := by
  obtain ⟨front, last, ha⟩ := exists_last_line a
  rw [String.append_assoc, lines_append ha (lines_break b), ha]
  simp

theorem lines_of_not_mem {line : String} (h : '\n' ∉ line.toList) : lines line = [line] := by
  rw [lines, splitLines_of_not_mem h]
  simp

theorem lines_join : ∀ {ls : List String}, ls ≠ [] → (∀ l ∈ ls, '\n' ∉ l.toList) → lines (join "\n" ls) = ls
  | [], h, _ => absurd rfl h
  | [l], _, h => lines_of_not_mem (h l List.mem_cons_self)
  | l :: m :: rest, _, h => by
    obtain ⟨hl, hrest⟩ := List.forall_mem_cons.mp h
    rw [join, lines_append_break, lines_of_not_mem hl, lines_join (List.cons_ne_nil _ _) hrest]
    rfl

/-- The lines of a text with a line break between each two are the text. -/
theorem join_lines (text : String) : join "\n" (lines text) = text := by
  obtain ⟨first, rest, h⟩ := List.exists_cons_of_ne_nil (splitLines_ne_nil text.toList)
  rw [← String.toList_inj, lines, h, List.map_cons, toList_join_cons, List.flatMap_map, String.toList_ofList]
  simp only [String.toList_ofList]
  exact append_flatMap_of_splitLines h

/-- A line as it is put behind an indent. -/
def moved (indent line : String) : String :=
  if line.isEmpty then line else indent ++ line

theorem lines_indented_of_not_mem {indent : String} (h : '\n' ∉ indent.toList) (text : String) :
    lines (indented indent text) = (lines text).map (moved indent) := by
  have hline : ∀ line ∈ lines text, '\n' ∉ line.toList := by
    intro line hline
    obtain ⟨cs, hcs, rfl⟩ := List.mem_map.mp hline
    rw [String.toList_ofList]
    exact not_mem_of_mem_splitLines hcs
  refine lines_join ?_ ?_
  · rw [ne_eq, List.map_eq_nil_iff]
    exact lines_ne_nil text
  · intro line hmem
    obtain ⟨l, hl, rfl⟩ := List.mem_map.mp hmem
    split
    · exact hline l hl
    · rw [String.toList_append, List.mem_append, not_or]
      exact ⟨h, hline l hl⟩

theorem newline_not_mem_blanks (n : Nat) : '\n' ∉ (blanks n).toList := by
  rw [blanks, String.toList_ofList]
  intro h
  exact absurd (List.eq_of_mem_replicate h) (by decide)

theorem blanks_append (m n : Nat) : blanks m ++ blanks n = blanks (m + n) := by
  rw [blanks, blanks, blanks, ← String.ofList_append, List.replicate_append_replicate]

end ExprText.Text
