import Mathlib.Data.List.Basic
import ExprText.Proofs.Text.Lines
import ExprText.Render.Body

/-! # Indentation

Indents add up and lose nothing: each line of a text is still a line of it when it is indented, behind the
indent unless it is empty. A body that stands in other bodies is therefore laid out as it is alone, only
that all of its lines are behind the indents of the bodies around it. -/

namespace ExprText

namespace Text

/-! ### Lines behind indents -/

theorem moved_eq_empty_iff {indent line : String} : moved indent line = "" ↔ line = "" := by
  unfold moved
  split
  · rfl
  · next hline =>
    rw [String.isEmpty_iff] at hline
    simp [hline]

theorem moved_of_ne_empty (indent : String) {line : String} (h : line ≠ "") : moved indent line = indent ++ line :=
  if_neg (by rwa [String.isEmpty_iff])

theorem moved_moved (b a line : String) : moved b (moved a line) = moved (b ++ a) line := by
  by_cases h : line = ""
  · rw [h]
    rfl
  · have hmoved : moved a line ≠ "" := fun hempty => h (moved_eq_empty_iff.mp hempty)
    rw [moved_of_ne_empty b hmoved, moved_of_ne_empty a h, moved_of_ne_empty _ h, String.append_assoc]

theorem moved_empty (line : String) : moved "" line = line := by
  by_cases h : line = ""
  · rw [h]
    rfl
  · rw [moved_of_ne_empty "" h, String.empty_append]

/-- A line without the indent before it, none if there is a line but no indent. -/
def movedBack (indent line : String) : Option String :=
  if line.isEmpty then some line else (line.toList.dropPrefix? indent.toList).map String.ofList

theorem movedBack_moved (indent line : String) : movedBack indent (moved indent line) = some line := by
  by_cases h : line = ""
  · rw [h]
    rfl
  · have hmoved : ¬(moved indent line).isEmpty = true := by
      rw [String.isEmpty_iff, moved_eq_empty_iff]
      exact h
    rw [movedBack, if_neg hmoved, moved_of_ne_empty indent h, String.toList_append,
      List.dropPrefix?_append_of_beq _ (beq_self_eq_true _), Option.map_some, String.ofList_toList]

/-! ### Indented texts -/

/-- The text with the indent taken off every line that is not empty, none if there is a line without it. -/
def outdented (indent text : String) : Option String :=
  ((lines text).mapM (movedBack indent)).map (join "\n")

section
variable {indent : String} (hindent : '\n' ∉ indent.toList)
include hindent

theorem indented_indented (outer text : String) :
    indented outer (indented indent text) = indented (outer ++ indent) text := by
  have hmoved : moved outer ∘ moved indent = moved (outer ++ indent) := funext (moved_moved outer indent)
  show join "\n" ((lines (indented indent text)).map (moved outer)) = _
  rw [lines_indented_of_not_mem hindent, List.map_map, hmoved]
  rfl

theorem outdented_indented (text : String) : outdented indent (indented indent text) = some text := by
  have hback : movedBack indent ∘ moved indent = pure := funext (movedBack_moved indent)
  rw [outdented, lines_indented_of_not_mem hindent, List.mapM_map, hback, List.mapM_pure, List.map_id']
  exact congrArg some (join_lines text)

theorem indented_injective : Function.Injective (indented indent) := by
  intro s t h
  have hsome : some s = some t := by rw [← outdented_indented hindent s, h, outdented_indented hindent t]
  exact Option.some.inj hsome

end

/-! ### Lines in a composed text -/

/-- Whether the given lines stand one after another in a text, neither first nor last, and the line after
    them begins with `closing`. -/
def Frames (ls : List String) (closing text : String) : Prop :=
  ∃ above rest below, above ≠ [] ∧ lines text = above ++ ls ++ (closing ++ rest) :: below

namespace Frames
variable {ls : List String} {closing text : String}

theorem ne_empty (h : Frames ls closing text) : text ≠ "" := by
  rintro rfl
  obtain ⟨above, rest, below, habove, hlines⟩ := h
  have hone : lines "" = [""] := rfl
  obtain ⟨first, above, rfl⟩ := List.exists_cons_of_ne_nil habove
  have hlength := congrArg List.length (hone.symm.trans hlines)
  simp at hlength

theorem prepend (h : Frames ls closing text) (before : String) : Frames ls closing (before ++ text) := by
  obtain ⟨above, rest, below, habove, hlines⟩ := h
  obtain ⟨first, above, rfl⟩ := List.exists_cons_of_ne_nil habove
  obtain ⟨front, last, hfront⟩ := exists_last_line before
  refine ⟨front ++ (last ++ first) :: above, rest, below, by simp, ?_⟩
  rw [lines_append hfront hlines]
  simp

theorem extend (h : Frames ls closing text) (after : String) : Frames ls closing (text ++ after) := by
  obtain ⟨above, rest, below, habove, hlines⟩ := h
  obtain ⟨first, more, hafter⟩ := List.exists_cons_of_ne_nil (lines_ne_nil after)
  rcases List.eq_nil_or_concat' below with rfl | ⟨below, last, rfl⟩
  · refine ⟨above, rest ++ first, more, habove, ?_⟩
    rw [lines_append hlines hafter, String.append_assoc]
  · refine ⟨above, rest, below ++ (last ++ first) :: more, habove, ?_⟩
    rw [← List.cons_append, ← List.append_assoc] at hlines
    rw [lines_append hlines hafter]
    simp

theorem terminated (h : Frames ls closing text) : Frames ls closing (terminated text) := by
  unfold Text.terminated
  split
  · exact h
  · exact h.extend ";"

theorem indented (h : Frames ls closing text) {indent : String} (hindent : '\n' ∉ indent.toList)
    (hclosing : closing ≠ "") :
    Frames (ls.map (moved indent)) (indent ++ closing) (indented indent text) := by
  obtain ⟨above, rest, below, habove, hlines⟩ := h
  have hne : closing ++ rest ≠ "" := fun hempty => hclosing (String.append_eq_empty_iff.mp hempty).1
  refine ⟨above.map (moved indent), rest, below.map (moved indent), by simpa using habove, ?_⟩
  rw [lines_indented_of_not_mem hindent, hlines, List.map_append, List.map_append, List.map_cons,
    moved_of_ne_empty indent hne, String.append_assoc]

end Frames

end Text

open Text

namespace Body

/-! ### Bodies in bodies -/

/-- The lines of the statements of a body; an empty body has none. -/
def ownLines (b : Body) : List String :=
  if b.isEmpty then [] else lines b.statements

theorem bracketed_of_not_isEmpty {b : Body} (h : ¬b.isEmpty = true) :
    b.bracketed = "\n\x7b" ++ "\n" ++ indented b.indent b.statements ++ "\n" ++ "\x7d" := by
  rw [bracketed, if_neg h]
  simp [braces, statements, ← String.toList_inj]

theorem lines_bracketed {b : Body} (h : '\n' ∉ b.indent.toList) :
    lines b.bracketed = "" :: "\x7b" :: b.ownLines.map (moved b.indent) ++ ["\x7d"] := by
  by_cases hempty : b.isEmpty = true
  · rw [bracketed, ownLines, if_pos hempty, if_pos hempty]
    rfl
  · have hopen : lines "\n\x7b" = ["", "\x7b"] := by decide
    have hclose : lines "\x7d" = ["\x7d"] := by decide
    rw [bracketed_of_not_isEmpty hempty, lines_append_break, lines_append_break, hopen, hclose,
      lines_indented_of_not_mem h, ownLines, if_neg hempty]
    rfl

/-- A body around another one: what it has before and after it, and how it is laid out. -/
structure Around where
  before : String
  after : String
  isSingle : Bool
  indent : String
  unbroken : '\n' ∉ indent.toList

/-- The body with a text between what stands before and after it. -/
def Around.body (o : Around) (text : String) : Body :=
  ⟨o.before ++ text ++ o.after, o.isSingle, o.indent⟩

/-- A body in braces within the bodies around it, the outermost first, each in braces as well. -/
def nested (b : Body) : List Around → String
  | [] => b.bracketed
  | o :: outer => (o.body (b.nested outer)).bracketed

/-- The indents of bodies one after another. -/
def totalIndent : List Around → String
  | [] => ""
  | o :: outer => o.indent ++ totalIndent outer

end Body

open Body

/-- What is in a text is in the body around it too, one indent further in. -/
theorem Text.Frames.bracketed {ls : List String} {closing text : String} (h : Frames ls closing text)
    (hclosing : closing ≠ "") (o : Around) :
    Frames (ls.map (moved o.indent)) (o.indent ++ closing) (o.body text).bracketed := by
  have hbody : Frames ls closing (o.body text).text := (h.prepend o.before).extend o.after
  have hsome : ¬(o.body text).isEmpty = true := by
    rw [isEmpty, String.isEmpty_iff]
    exact hbody.ne_empty
  rw [bracketed_of_not_isEmpty hsome]
  exact (((hbody.terminated.indented o.unbroken hclosing).prepend _).extend _).extend _

namespace Body

theorem frames_bracketed {b : Body} (h : '\n' ∉ b.indent.toList) :
    Frames ("\x7b" :: b.ownLines.map (moved b.indent)) "\x7d" b.bracketed :=
  ⟨[""], "", [], by simp, lines_bracketed h⟩

theorem frames_nested {b : Body} (h : '\n' ∉ b.indent.toList) : ∀ outer : List Around,
    Frames (("\x7b" :: b.ownLines.map (moved b.indent)).map (moved (totalIndent outer)))
      (totalIndent outer ++ "\x7d") (b.nested outer)
  | [] => by
    have hid : moved (totalIndent []) = id := funext moved_empty
    rw [hid, List.map_id]
    exact frames_bracketed h
  | o :: outer => by
    -- The lines are neither first nor last in the text so far, so neither what the next body has before and
    -- after it nor a semicolon at its end gets on them.
    have hclosing : totalIndent outer ++ "\x7d" ≠ "" := by simp
    have hmoved : moved o.indent ∘ moved (totalIndent outer) = moved (totalIndent (o :: outer)) :=
      funext (moved_moved o.indent (totalIndent outer))
    have hstep := (frames_nested h outer).bracketed hclosing o
    rw [List.map_map, hmoved, ← String.append_assoc] at hstep
    exact hstep

/-- The braces of a body in other bodies stand behind the indents of those, and between them the lines of
    the body behind its own indent as well. -/
theorem exists_lines_nested {b : Body} (h : '\n' ∉ b.indent.toList) (outer : List Around) :
    ∃ above rest below, lines (b.nested outer) =
      above ++ (totalIndent outer ++ "\x7b") :: b.ownLines.map (moved (totalIndent outer ++ b.indent)) ++
        (totalIndent outer ++ "\x7d" ++ rest) :: below := by
  obtain ⟨above, rest, below, -, hlines⟩ := frames_nested h outer
  have hmoved : moved (totalIndent outer) ∘ moved b.indent = moved (totalIndent outer ++ b.indent) :=
    funext (moved_moved (totalIndent outer) b.indent)
  have hopen : moved (totalIndent outer) "\x7b" = totalIndent outer ++ "\x7b" := moved_of_ne_empty _ (by decide)
  rw [List.map_cons, List.map_map, hmoved, hopen] at hlines
  exact ⟨above, rest, below, hlines⟩

end Body

/-- Indenting by one indent and then by another is indenting by both at once. An indented text has the
    lines of the text, the empty ones as they were and each other one behind the indent: taken off again
    it leaves the text, so different texts stay different. However many bodies are around a body, its
    braces stand behind all their indents and its lines, in order and with nothing between them, behind
    its own after those. -/
theorem indenting_loses_nothing {indent : String} (h : '\n' ∉ indent.toList) :
    (∀ outer text : String, indented outer (indented indent text) = indented (outer ++ indent) text) ∧
    (∀ text : String, (lines (indented indent text)).length = (lines text).length) ∧
    (∀ (text : String) (i : Nat), (lines (indented indent text))[i]? = some "" ↔ (lines text)[i]? = some "") ∧
    (∀ text : String, outdented indent (indented indent text) = some text) ∧
    Function.Injective (indented indent) ∧
    ∀ (text : String) (isSingle : Bool) (outer : List Body.Around), ∃ above rest below,
      lines (Body.nested ⟨text, isSingle, indent⟩ outer) =
        above ++ (Body.totalIndent outer ++ "\x7b") ::
          (Body.ownLines ⟨text, isSingle, indent⟩).map (moved (Body.totalIndent outer ++ indent)) ++
        (Body.totalIndent outer ++ "\x7d" ++ rest) :: below := by
  refine ⟨indented_indented h, fun text => ?_, fun text i => ?_, outdented_indented h, indented_injective h,
    fun text isSingle outer => Body.exists_lines_nested h outer⟩
  · rw [lines_indented_of_not_mem h, List.length_map]
  · rw [lines_indented_of_not_mem h, List.getElem?_map]
    simp [moved_eq_empty_iff]

/-- The body of a loop, around the first branch of its one statement. -/
private def branchingLoop : Body.Around :=
  ⟨"if (b)", "\nelse z", false, "  ", by decide⟩

/-- An empty line, one of blanks and a line break at the end; a branch with an empty line in the body
    of a loop. -/
theorem indenting_loses_nothing_branch :
    '\n' ∉ "    ".toList ∧
    indented "  " (indented "    " "a;\n\n \nb;\n") = "      a;\n\n       \n      b;\n" ∧
    (lines (indented "    " "a;\n\n \nb;\n")).length = 5 ∧
    (lines (indented "    " "a;\n\n \nb;\n"))[1]? = some "" ∧
    (lines (indented "    " "a;\n\n \nb;\n"))[2]? ≠ some "" ∧
    outdented "    " (indented "    " "a;\n\n \nb;\n") = some "a;\n\n \nb;\n" ∧
    indented "    " "a" ≠ indented "    " " a" ∧
    ∃ above rest below,
      lines "\n\x7b\n  if (b)\n  \x7b\n      x = 1;\n\n      y;\n  \x7d\n  else z;\n\x7d" =
        above ++ "  \x7b" :: ["      x = 1;", "", "      y;"] ++ ("  \x7d" ++ rest) :: below := by
  have hindent : '\n' ∉ "    ".toList := by decide
  have hsplit : lines "a;\n\n \nb;\n" = ["a;", "", " ", "b;", ""] := by decide +kernel
  obtain ⟨htwice, hlength, hempty, hback, hinjective, hbodies⟩ := indenting_loses_nothing hindent
  refine ⟨hindent, ?_, ?_, ?_, ?_, hback _, fun h => absurd (hinjective h) (by decide), ?_⟩
  · rw [htwice]
    decide +kernel
  · rw [hlength, hsplit]
    rfl
  · rw [hempty, hsplit]
    rfl
  · rw [ne_eq, hempty, hsplit]
    decide
  · have hnested : Body.nested ⟨"x = 1;\n\ny", false, "    "⟩ [branchingLoop] =
        "\n\x7b\n  if (b)\n  \x7b\n      x = 1;\n\n      y;\n  \x7d\n  else z;\n\x7d" := by decide +kernel
    have hown : (Body.ownLines ⟨"x = 1;\n\ny", false, "    "⟩).map
        (moved (Body.totalIndent [branchingLoop] ++ "    ")) = ["      x = 1;", "", "      y;"] := by decide +kernel
    have hlines := hbodies "x = 1;\n\ny" false [branchingLoop]
    rw [hnested, hown] at hlines
    exact hlines

end ExprText
