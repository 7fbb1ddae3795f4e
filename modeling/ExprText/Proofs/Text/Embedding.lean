import ExprText.Proofs.Composed.Parts
import ExprText.Proofs.Text.Braces
import ExprText.Proofs.Text.Comment
import ExprText.Proofs.Text.Ending
import ExprText.Proofs.Text.Indentation

/-! # Comments in texts

A text can have comments on lines of its own, each behind some blanks. They stay there whatever is written
before, between and after them, they move to the right as a whole when the text is indented, and no
semicolon is added to them. -/

namespace ExprText.Text

/-! ### White space -/

/-- Whether `middle` is `cs` without the white space around it: nothing else is missing at either end, and
    none of it is left there. -/
structure Trimmed (cs middle : List Char) : Prop where
  around : ∃ before after, cs = before ++ middle ++ after ∧ ∀ c ∈ before ++ after, isWhiteSpace c = true
  first : ∀ c ∈ middle.head?, isWhiteSpace c = false
  last : ∀ c ∈ middle.getLast?, isWhiteSpace c = false

theorem prefix_trimEnd (cs : List Char) : trimEnd cs <+: cs := by
  rw [trimEnd, ← List.reverse_suffix, List.reverse_reverse]
  exact List.dropWhile_suffix _

theorem mem_of_mem_trimEnd {c : Char} {cs : List Char} (h : c ∈ trimEnd cs) : c ∈ cs :=
  (prefix_trimEnd cs).subset h

theorem not_isWhiteSpace_of_head? {c : Char} {cs : List Char} (h : c ∈ (trimStart cs).head?) :
    isWhiteSpace c = false := by
  have hhead := List.head?_dropWhile_not isWhiteSpace cs
  rwa [← trimStart, Option.mem_def.mp h] at hhead

theorem trimmed_trim (cs : List Char) : Trimmed cs (trim cs) where
  around := by
    refine ⟨cs.takeWhile isWhiteSpace, ((trimStart cs).reverse.takeWhile isWhiteSpace).reverse, ?_, fun c hc => ?_⟩
    · have hstart : cs.takeWhile isWhiteSpace ++ trimStart cs = cs := List.takeWhile_append_dropWhile
      have hend : trim cs ++ ((trimStart cs).reverse.takeWhile isWhiteSpace).reverse = trimStart cs := by
        rw [trim, trimEnd, ← List.reverse_append, List.takeWhile_append_dropWhile, List.reverse_reverse]
      rw [List.append_assoc, hend, hstart]
    · rcases List.mem_append.mp hc with hc | hc
      · exact List.all_eq_true.mp List.all_takeWhile c hc
      · exact List.all_eq_true.mp List.all_takeWhile c (List.mem_reverse.mp hc)
  first c hc := by
    obtain ⟨rest, hrest⟩ := prefix_trimEnd (trimStart cs)
    have hhead : (trimEnd (trimStart cs)).head? = some c := hc
    have hstart : (trimStart cs).head? = some c := by
      rw [← hrest, List.head?_append, hhead, Option.some_or]
    exact not_isWhiteSpace_of_head? hstart
  last c hc := by
    rw [trim, trimEnd, List.getLast?_reverse] at hc
    exact not_isWhiteSpace_of_head? hc

/-! ### Comments -/

theorem lines_asComment (text : String) : lines (asComment text) =
    (splitLines (trim text.toList)).map fun line => commentMark ++ String.ofList (trimEnd line) := by
  refine lines_join (by simp [splitLines_ne_nil]) fun line hline => ?_
  obtain ⟨cs, hcs, rfl⟩ := List.mem_map.mp hline
  rw [String.toList_append, String.toList_ofList, List.mem_append, not_or]
  exact ⟨by decide, fun hmem => not_mem_of_mem_splitLines hcs (mem_of_mem_trimEnd hmem)⟩

theorem prefix_of_mem_asComment {text line : String} (h : line ∈ lines (asComment text)) :
    commentMark.toList <+: line.toList := by
  rw [lines_asComment] at h
  obtain ⟨cs, -, rfl⟩ := List.mem_map.mp h
  rw [String.toList_append]
  exact List.prefix_append _ _

/-- A line that starts with the mark of comments is a comment, behind whatever blanks. -/
theorem isComment_blanks {line : String} (h : commentMark.toList <+: line.toList) (n : Nat) :
    isComment (blanks n ++ line) = true := by
  obtain ⟨rest, hrest⟩ := h
  have hblank : ∀ c ∈ List.replicate n ' ', isWhiteSpace c = true := by
    intro c hc
    rw [List.eq_of_mem_replicate hc]
    decide
  have hstart : trimStart (blanks n ++ line).toList = commentMark.toList ++ rest := by
    rw [trimStart, String.toList_append, blanks, String.toList_ofList, List.dropWhile_append_of_pos hblank,
      ← hrest]
    exact List.dropWhile_cons_of_neg (by decide)
  rw [isComment, hstart]
  exact List.isPrefixOf_iff_prefix.mpr (List.prefix_append _ _)

/-- The lines of a comment behind blanks. -/
def commentAt (n : Nat) (text : String) : List String :=
  (lines (asComment text)).map (blanks n ++ ·)

theorem commentAt_ne_nil (n : Nat) (text : String) : commentAt n text ≠ [] := by
  rw [commentAt, ne_eq, List.map_eq_nil_iff]
  exact lines_ne_nil _

theorem isComment_of_mem_commentAt {n : Nat} {text line : String} (h : line ∈ commentAt n text) :
    isComment line = true := by
  obtain ⟨l, hl, rfl⟩ := List.mem_map.mp h
  exact isComment_blanks (prefix_of_mem_asComment hl) n

theorem commentAt_zero (text : String) : commentAt 0 text = lines (asComment text) := by
  simp [commentAt, blanks]

theorem terminated_asComment (text : String) : terminated (asComment text) = asComment text := by
  obtain ⟨front, last, hlines⟩ := exists_last_line (asComment text)
  have hlast : last ∈ commentAt 0 text := by
    rw [commentAt_zero, hlines]
    simp
  have hends : isTerminated (asComment text) = true := by
    rw [isTerminated, hlines, List.getLast?_concat, Option.any_some, isComment_of_mem_commentAt hlast,
      Bool.or_true]
  rw [terminated, hends, Bool.or_true, if_pos rfl]

/-! ### Embedded comments -/

/-- Whether the lines of the given comments are among the given lines, each comment as a whole and behind
    `unit` blanks for every level that it is nested, one comment after another and none within another. -/
inductive Embeds (unit : Nat) : List (Nat × String) → List String → Prop
  | none (ls : List String) : Embeds unit [] ls
  | skip {cs : List (Nat × String)} {ls : List String} (line : String) (h : Embeds unit cs ls) :
    Embeds unit cs (line :: ls)
  | comment {cs : List (Nat × String)} {ls : List String} (depth : Nat) (text : String)
    (h : Embeds unit cs ls) : Embeds unit ((depth, text) :: cs) (commentAt (depth * unit) text ++ ls)

/-- Comments one level further in. -/
def deeper (cs : List (Nat × String)) : List (Nat × String) :=
  cs.map fun c => (c.1 + 1, c.2)

namespace Embeds
variable {unit : Nat} {cs ds : List (Nat × String)} {ls ms : List String}

theorem prepend (h : Embeds unit cs ls) : ∀ before : List String, Embeds unit cs (before ++ ls)
  | [] => h
  | line :: before => .skip line (h.prepend before)

theorem append (h : Embeds unit cs ls) (h' : Embeds unit ds ms) : Embeds unit (cs ++ ds) (ls ++ ms) := by
  induction h with
  | none ls => exact h'.prepend ls
  | skip line _ ih => exact .skip line ih
  | comment depth text _ ih =>
    rw [List.append_assoc]
    exact .comment depth text ih

theorem extend (h : Embeds unit cs ls) (after : List String) : Embeds unit cs (ls ++ after) := by
  simpa using h.append (.none after)

/-- The lines of each comment stand next to each other. -/
theorem isInfix (h : Embeds unit cs ls) : ∀ c ∈ cs, commentAt (c.1 * unit) c.2 <:+: ls := by
  induction h with
  | none => exact fun c hc => by cases hc
  | skip line _ ih => exact fun c hc => (ih c hc).trans (List.suffix_cons line _).isInfix
  | comment depth text _ ih =>
    refine List.forall_mem_cons.mpr ⟨(List.prefix_append _ _).isInfix, fun c hc => ?_⟩
    exact (ih c hc).trans (List.suffix_append _ _).isInfix

/-- Where no line is a comment there are no comments. -/
theorem eq_nil (h : Embeds unit cs ls) (hls : ∀ line ∈ ls, isComment line = false) : cs = [] := by
  induction h with
  | none => rfl
  | skip line _ ih => exact ih (List.forall_mem_cons.mp hls).2
  | comment depth text _ _ =>
    obtain ⟨line, hline⟩ := List.exists_mem_of_ne_nil _ (commentAt_ne_nil (depth * unit) text)
    have hcode := hls line (List.mem_append_left _ hline)
    rw [isComment_of_mem_commentAt hline] at hcode
    cases hcode

/-- The last line matters only if it is a comment. -/
theorem of_concat {last : String} (h : Embeds unit cs (ls ++ [last])) (hlast : isComment last = false) :
    Embeds unit cs ls := by
  generalize hms : ls ++ [last] = ms at h
  induction h generalizing ls with
  | none => exact .none ls
  | @skip cs ms line h ih =>
    cases ls with
    | nil =>
      obtain ⟨-, rfl⟩ := List.cons.inj hms
      rw [h.eq_nil (by simp)]
      exact .none []
    | cons first ls =>
      obtain ⟨rfl, rfl⟩ := List.cons.inj hms
      exact .skip first (ih rfl)
  | @comment cs ms depth text h ih =>
    rcases List.eq_nil_or_concat' ms with rfl | ⟨front, l, rfl⟩
    · have hmem : last ∈ commentAt (depth * unit) text := by
        rw [List.append_nil] at hms
        rw [← hms]
        simp
      rw [isComment_of_mem_commentAt hmem] at hlast
      cases hlast
    · rw [← List.append_assoc] at hms
      obtain ⟨hls, hl⟩ := List.append_singleton_inj.mp hms
      rw [hls]
      exact .comment depth text (ih (by rw [hl]))

/-- All comments move to the right with the lines around them. -/
theorem shift (h : Embeds unit cs ls) : Embeds unit (deeper cs) (ls.map (moved (blanks unit))) := by
  induction h with
  | none ls => exact .none _
  | skip line _ ih => exact .skip _ ih
  | comment depth text _ ih =>
    have hcomment : (commentAt (depth * unit) text).map (moved (blanks unit)) =
        commentAt ((depth + 1) * unit) text := by
      rw [commentAt, commentAt, List.map_map]
      refine List.map_congr_left fun line hline => ?_
      have hne : ¬(blanks (depth * unit) ++ line).isEmpty = true := by
        intro hempty
        have hnil := (String.append_eq_empty_iff.mp (String.isEmpty_iff.mp hempty)).2
        have hprefix := prefix_of_mem_asComment hline
        rw [hnil] at hprefix
        exact absurd (List.prefix_nil.mp hprefix) (by decide)
      rw [Function.comp_apply, moved, if_neg hne, ← String.append_assoc, blanks_append, Nat.succ_mul,
        Nat.add_comm]
    rw [List.map_append, hcomment]
    exact .comment (depth + 1) text ih

/-- A semicolon is written behind code only. -/
theorem terminated {text : String} (h : Embeds unit cs (lines text)) :
    Embeds unit cs (lines (terminated text)) := by
  unfold Text.terminated
  split
  · exact h
  · next hopen =>
    rw [Bool.not_eq_true, Bool.or_eq_false_iff, isTerminated, Bool.or_eq_false_iff] at hopen
    obtain ⟨front, last, hlines⟩ := exists_last_line text
    have hlast : isComment last = false := by simpa [hlines] using hopen.2.2
    have hmark : lines ";" = [";"] := by decide
    rw [lines_append hlines hmark]
    rw [hlines] at h
    exact (h.of_concat hlast).extend _

/-- The first line matters only if it is a comment. -/
theorem of_cons {first : String} (h : Embeds unit cs (first :: ls)) (hfirst : isComment first = false) :
    Embeds unit cs ls := by
  generalize hms : first :: ls = ms at h
  cases h with
  | none => exact .none ls
  | skip line h =>
    obtain ⟨-, rfl⟩ := List.cons.inj hms
    exact h
  | comment depth text h =>
    obtain ⟨line, rest, hcomment⟩ := List.exists_cons_of_ne_nil (commentAt_ne_nil (depth * unit) text)
    have hline : isComment line = true := isComment_of_mem_commentAt (hcomment ▸ List.mem_cons_self)
    rw [hcomment, List.cons_append] at hms
    rw [← (List.cons.inj hms).1, hfirst] at hline
    cases hline

/-- What is written before a line that is no comment leaves the comments after it alone. -/
theorem behind {word first text : String} {rest : List String} (hword : '\n' ∉ word.toList)
    (hlines : lines text = first :: rest) (hfirst : isComment first = false) (h : Embeds unit cs (lines text)) :
    Embeds unit cs (lines (word ++ text)) := by
  have hone : lines word = [] ++ [word] := lines_of_not_mem hword
  rw [hlines] at h
  rw [lines_append hone hlines]
  exact .skip _ (h.of_cons hfirst)

/-- A text that is nothing has no comments. -/
theorem eq_nil_of_empty (h : Embeds unit cs (lines "")) : cs = [] :=
  h.eq_nil (by decide)

/-- Texts one after another, each from a line of its own on unless there is nothing before it. -/
theorem separated {a b gap : String} (ha : Embeds unit cs (lines a)) (hb : Embeds unit ds (lines b))
    (hgap : gap ∈ ["", "\n", "\n\n"]) (hne : a ≠ "" → gap ≠ "") :
    Embeds unit (cs ++ ds) (lines (a ++ gap ++ b)) := by
  simp only [List.mem_cons, List.not_mem_nil, or_false] at hgap
  rcases hgap with rfl | rfl | rfl
  · obtain rfl : a = "" := Classical.not_not.mp fun h => hne h rfl
    rw [ha.eq_nil_of_empty, String.empty_append, String.empty_append]
    exact hb
  · rw [lines_append_break]
    exact ha.append hb
  · have hbreaks : a ++ "\n\n" ++ b = a ++ "\n" ++ "" ++ "\n" ++ b := by simp [← String.toList_inj]
    rw [hbreaks, lines_append_break, lines_append_break]
    exact (ha.extend _).append hb

end Embeds

/-! ### Bodies -/

section Bodies
variable {unit : Nat} {cs : List (Nat × String)} {b : Body} (hindent : b.indent = blanks unit)
include hindent

/-- The comments of a body are one level further in, whatever stands before its braces. -/
theorem Embeds.exists_bracketed (h : Embeds unit cs (lines b.text)) : ∃ body : String,
    b.bracketed = body ++ "\n" ++ "\x7d" ∧ ∀ head : String, Embeds unit (deeper cs) (lines (head ++ body)) := by
  by_cases hempty : b.isEmpty = true
  · have hnone : b.text = "" := by simpa [Body.isEmpty] using hempty
    rw [hnone] at h
    rw [h.eq_nil_of_empty, Body.bracketed, if_pos hempty]
    exact ⟨"\n\x7b", by decide, fun _ => .none _⟩
  · refine ⟨_, Body.bracketed_of_not_isEmpty hempty, fun head => ?_⟩
    rw [← String.append_assoc, ← String.append_assoc, lines_append_break, hindent,
      lines_indented_of_not_mem (newline_not_mem_blanks unit)]
    exact h.terminated.shift.prepend _

theorem Embeds.bracketed (h : Embeds unit cs (lines b.text)) (head : String) :
    Embeds unit (deeper cs) (lines (head ++ b.bracketed)) := by
  obtain ⟨body, heq, hbody⟩ := h.exists_bracketed hindent
  rw [heq, ← String.append_assoc, ← String.append_assoc, lines_append_break]
  exact (hbody head).extend _

end Bodies

/-! ### Statements with comments -/

/-- Whether a text has the given comments, and parentheses around it are not taken for its own: a text
    without comments is balanced, and one with comments is never a group, whatever follows it. -/
structure Carries (unit : Nat) (cs : List (Nat × String)) (text : String) : Prop where
  embedded : Embeds unit cs (lines text)
  balanced : cs = [] → Balanced text
  ungrouped : cs ≠ [] → ∀ rest : String, isGroup (text ++ rest) = false

namespace Carries
variable {unit : Nat} {cs ds : List (Nat × String)} {a b text : String}

theorem of_balanced (h : Balanced text) : Carries unit [] text :=
  ⟨.none _, fun _ => h, fun hne => absurd rfl hne⟩

/-- What does not begin with a parenthesis is no group. -/
theorem of_head {c : Char} (h : Embeds unit cs (lines text)) (hhead : text.toList.head? = some c) (hc : c ≠ '(')
    (hbalanced : cs = [] → Balanced text) : Carries unit cs text := by
  refine ⟨h, hbalanced, fun _ rest => isGroup_eq_false ?_⟩
  rw [String.toList_append, List.head?_append, hhead, Option.some_or, ne_eq, Option.some.injEq]
  exact hc

theorem asComment (text : String) : Carries unit [(0, text)] (asComment text) := by
  have hembeds : Embeds unit [(0, text)] (lines (Text.asComment text)) := by
    have hcomment : Embeds unit [(0, text)] (commentAt (0 * unit) text ++ []) := .comment 0 text (.none [])
    rwa [Nat.zero_mul, commentAt_zero, List.append_nil] at hcomment
  have hhead : (Text.asComment text).toList.head? = some '/' := by
    obtain ⟨first, rest, hlines⟩ := List.exists_cons_of_ne_nil (splitLines_ne_nil (trim text.toList))
    rw [Text.asComment, hlines, List.map_cons, toList_join_cons]
    simp [commentMark]
  exact .of_head hembeds hhead (by decide) fun hnil => absurd hnil (List.cons_ne_nil _ _)

theorem terminated (h : Carries unit cs text) : Carries unit cs (terminated text) := by
  refine ⟨h.embedded.terminated, fun hnil => (h.balanced hnil).terminated, fun hne rest => ?_⟩
  unfold Text.terminated
  split
  · exact h.ungrouped hne rest
  · rw [String.append_assoc]
    exact h.ungrouped hne (";" ++ rest)

theorem withoutParens (h : Carries unit cs text) : Carries unit cs (withoutParens text) := by
  by_cases hnil : cs = []
  · subst hnil
    exact .of_balanced (h.balanced rfl).withoutParens
  · have hgroup := h.ungrouped hnil ""
    rw [String.append_empty] at hgroup
    rwa [withoutParens_of_isGroup_eq_false hgroup]

theorem append {gap : String} (ha : Carries unit cs a) (hb : Carries unit ds b)
    (hgap : gap ∈ ["", "\n", "\n\n"]) (hne : a ≠ "" → gap ≠ "") : Carries unit (cs ++ ds) (a ++ gap ++ b) := by
  refine ⟨ha.embedded.separated hb.embedded hgap hne, fun hnil => ?_, fun hsome rest => ?_⟩
  · obtain ⟨hcs, hds⟩ := List.append_eq_nil_iff.mp hnil
    have hall : ∀ gap ∈ ["", "\n", "\n\n"], Balanced gap := by decide
    exact ((ha.balanced hcs).append (hall gap hgap)).append (hb.balanced hds)
  · by_cases hcs : cs = []
    · have hds : ds ≠ [] := fun hds => hsome (by rw [hcs, hds, List.append_nil])
      by_cases hempty : a = ""
      · rw [hempty, String.empty_append]
        by_cases hnone : gap = ""
        · rw [hnone, String.empty_append]
          exact hb.ungrouped hds rest
        · have hhead : ∀ w ∈ ["", "\n", "\n\n"], w ≠ "" → w.toList.head? = some '\n' := by decide
          refine isGroup_eq_false ?_
          rw [String.append_assoc, String.toList_append, List.head?_append, hhead gap hgap hnone, Option.some_or]
          decide
      · rw [String.append_assoc, String.append_assoc]
        exact (ha.balanced hcs).not_isGroup_append hempty (append_ne_empty (.inl (hne hempty)))
    · rw [String.append_assoc, String.append_assoc]
      exact ha.ungrouped hcs _

end Carries

/-! ### Conditions with comments -/

/-- Whether a text begins as a condition and has the given comments before its last line. -/
def Framed (unit : Nat) (cs : List (Nat × String)) (text : String) : Prop :=
  ∃ a b : String, text = "if " ++ a ++ "\n" ++ b ∧ Embeds unit cs (lines ("if " ++ a))

namespace Framed
variable {unit : Nat} {cs ds : List (Nat × String)} {text : String}

theorem embedded (h : Framed unit cs text) : Embeds unit cs (lines text) := by
  obtain ⟨a, b, rfl, hembeds⟩ := h
  rw [lines_append_break]
  exact hembeds.extend _

theorem head (h : Framed unit cs text) : text.toList.head? = some 'i' := by
  obtain ⟨a, b, rfl, -⟩ := h
  simp

/-- What stands behind `else` has its comments there too. -/
theorem exists_else (h : Framed unit cs text) : ∃ a b : String,
    "else " ++ unterminated text = a ++ "\n" ++ b ∧ Embeds unit cs (lines a) := by
  obtain ⟨a, b, rfl, hembeds⟩ := h
  obtain ⟨first, rest, hlines⟩ := List.exists_cons_of_ne_nil (lines_ne_nil a)
  have hone : lines "if " = [] ++ ["if "] := by decide
  have hif : lines ("if " ++ a) = ("if " ++ first) :: rest := lines_append hone hlines
  have hcode : isComment ("if " ++ first) = false := not_isComment_of_head (c := 'i') (by simp) (by decide)
  refine ⟨"else " ++ ("if " ++ a), unterminated b, ?_, hembeds.behind (by decide) hif hcode⟩
  have hlast : unterminated ("\n" ++ b) = "\n" ++ unterminated b := by
    by_cases hempty : b = ""
    · rw [hempty]
      decide
    · exact unterminated_append "\n" hempty
  rw [String.append_assoc, unterminated_append _ (append_ne_empty (.inl (by decide))), hlast]
  simp only [String.append_assoc]

/-- What follows on a new line leaves the comments alone. -/
theorem extend (h : Framed unit cs text) (after : String) : Framed unit cs (text ++ "\n" ++ after) := by
  obtain ⟨a, b, rfl, hembeds⟩ := h
  exact ⟨a, b ++ "\n" ++ after, by simp only [String.append_assoc], hembeds⟩

/-- What follows on a new line has its comments after those before it. -/
theorem continued (h : Framed unit cs text) {x : String} (hx : Embeds unit ds (lines x)) (y : String) :
    Framed unit (cs ++ ds) (text ++ "\n" ++ (x ++ "\n" ++ y)) := by
  obtain ⟨a, b, rfl, hembeds⟩ := h
  refine ⟨a ++ "\n" ++ b ++ "\n" ++ x, y, by simp only [String.append_assoc], ?_⟩
  have hlines : "if " ++ (a ++ "\n" ++ b ++ "\n" ++ x) = "if " ++ a ++ "\n" ++ b ++ "\n" ++ x := by
    simp only [String.append_assoc]
  rw [hlines, lines_append_break, lines_append_break]
  exact (hembeds.extend _).append hx

end Framed

end ExprText.Text
