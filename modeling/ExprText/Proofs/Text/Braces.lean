import ExprText.Proofs.Text.Ending

/-! # Braces at the end

Whether a text ends in a closing brace is decided by its last part, also after the parentheses around it are
taken off: these are around both parts only where one of them is empty. -/

namespace ExprText.Text

theorem closesBrace_append {a b : String} : ClosesBrace (a ++ b) ↔ ClosesBrace b ∨ b = "" ∧ ClosesBrace a := by
  unfold ClosesBrace
  rw [String.toList_append, List.getLast?_append]
  cases hb : b.toList.getLast? with
  | none =>
    have hempty : b = "" := by simpa using hb
    simp [hempty]
  | some c =>
    have hne : b ≠ "" := by
      rintro rfl
      cases hb
    simp [hne]

theorem not_closesBrace_paren (text : String) : ¬ClosesBrace (text ++ ")") := by
  rw [closesBrace_append]
  rintro (h | ⟨h, -⟩) <;> exact absurd h (by decide)

theorem isGroup_eq_false_of_last {text : String} (h : text.toList.getLast? ≠ some ')') :
    isGroup text = false := by
  rw [Bool.eq_false_iff]
  intro hgroup
  obtain ⟨inner, hinner⟩ := eq_cons_of_isGroup hgroup
  refine h ?_
  rw [hinner, ← List.cons_append, List.getLast?_append]
  rfl

theorem withoutParens_of_isGroup_eq_false {text : String} (h : isGroup text = false) :
    withoutParens text = text := by
  rw [withoutParens, if_neg (by simp [h])]

theorem ClosesBrace.withoutParens_eq {text : String} (h : ClosesBrace text) : withoutParens text = text := by
  refine withoutParens_of_isGroup_eq_false (isGroup_eq_false_of_last ?_)
  rw [h]
  decide

theorem closesBrace_join : ∀ texts : List String,
    ClosesBrace (join " + " texts) ↔ ∃ t ∈ texts.getLast?, ClosesBrace t
  | [] => by
    simp [join]
    decide
  | [t] => by simp [join]
  | t :: u :: rest => by
    have hword : ¬ClosesBrace (t ++ " + ") := by
      rw [closesBrace_append]
      rintro (h | ⟨h, -⟩) <;> exact absurd h (by decide)
    rw [join, closesBrace_append, List.getLast?_cons_cons, closesBrace_join (u :: rest)]
    simp [hword]

/-- Whether a text ends in no brace, with or without the parentheses around it. -/
structure Unbraced (text : String) : Prop where
  whole : ¬ClosesBrace text
  inner : ¬ClosesBrace (withoutParens text)

namespace Unbraced
variable {a b text : String}

theorem of_last {c : Char} (h : text.toList.getLast? = some c) (hc : c ≠ ')' ∧ c ≠ '\x7d') :
    Unbraced text := by
  have hwhole : ¬ClosesBrace text := by
    rw [ClosesBrace, h, Option.some.injEq]
    exact hc.2
  refine ⟨hwhole, ?_⟩
  rwa [withoutParens_of_isGroup_eq_false (isGroup_eq_false_of_last ?_)]
  rw [h, ne_eq, Option.some.injEq]
  exact hc.1

/-- The parenthesis at the end is not of a pair around both parts. -/
theorem append_paren (ha : Balanced a) (hane : a ≠ "") (hlast : b.toList.getLast? = some ')') :
    Unbraced (a ++ b) := by
  have hbne : b ≠ "" := by
    rintro rfl
    cases hlast
  have hwhole : ¬ClosesBrace (a ++ b) := by
    rw [closesBrace_append, ClosesBrace, hlast]
    simp [hbne]
  refine ⟨hwhole, ?_⟩
  rwa [withoutParens_of_isGroup_eq_false (ha.not_isGroup_append hane hbne)]

theorem of_free {text : String} (h : Free ['(', '\x7d'] text) : Unbraced text := by
  have hwhole : ¬ClosesBrace text := fun hlast => h _ (List.mem_of_getLast? hlast) (by decide)
  refine ⟨hwhole, ?_⟩
  rwa [withoutParens_of_isGroup_eq_false (isGroup_eq_false fun hhead => ?_)]
  exact h _ (List.mem_of_head? hhead) (by decide)

theorem of_word {word inner : String} {c : Char} (hhead : word.toList.head? = some c)
    (hc : c ≠ '(') : Unbraced (word ++ inner ++ ")") := by
  have hwhole : ¬ClosesBrace (word ++ inner ++ ")") := not_closesBrace_paren _
  refine ⟨hwhole, ?_⟩
  rwa [withoutParens_of_isGroup_eq_false (isGroup_eq_false ?_)]
  rw [String.append_assoc, String.toList_append, List.head?_append, hhead, Option.some_or, ne_eq,
    Option.some.injEq]
  exact hc

end Unbraced

theorem getLast?_withParens (text : String) : (withParens text).toList.getLast? = some ')' := by
  have hclose : ∀ inner : String, (inner ++ ")").toList.getLast? = some ')' := by simp
  unfold withParens
  split
  · next hgroup =>
    rw [← parens_withoutParens hgroup]
    exact hclose _
  · exact hclose _

theorem getLast?_quoted (quote : Char) (cs : List Char) :
    (quoted quote cs).toList.getLast? = some quote := by
  rw [quoted, String.toList_ofList, ← List.cons_append, List.getLast?_append]
  rfl

/-- What stands before the last part of a text. -/
structure Leads (front : String) : Prop where
  balanced : Balanced front
  nonempty : front ≠ ""
  unbraced : Unbraced front

theorem Leads.append_blank {a b : String} (ha : Balanced a) (hb : Balanced b)
    (hlast : b.toList.getLast? = some ' ') : Leads (a ++ b) := by
  have hblank : (a ++ b).toList.getLast? = some ' ' := by
    rw [String.toList_append, List.getLast?_append, hlast, Option.some_or]
  refine ⟨ha.append hb, ?_, .of_last hblank (by decide)⟩
  intro hempty
  rw [hempty] at hblank
  cases hblank

/-- A text with a blank at its end has no parentheses around it. -/
theorem Unbroken.append_blank {a b : String} (ha : Unbroken a) (hb : Unbroken b)
    (hlast : b.toList.getLast? = some ' ') : Unbroken (a ++ b) ∧ Unbroken (withoutParens (a ++ b)) := by
  have hboth := ha.append hb
  refine ⟨hboth, ?_⟩
  rwa [withoutParens_of_isGroup_eq_false (isGroup_eq_false_of_last ?_)]
  rw [String.toList_append, List.getLast?_append, hlast, Option.some_or]
  decide

/-- The last part of a text decides whether it ends in a brace. -/
theorem Leads.closesBrace_iff {front : String} (h : Leads front) (last : String) :
    (ClosesBrace (front ++ last) ↔ ClosesBrace last) ∧
      (ClosesBrace (withoutParens (front ++ last)) ↔ ClosesBrace last) := by
  by_cases hempty : last = ""
  · have hnone : ¬ClosesBrace last := by
      rw [hempty]
      decide
    rw [hempty, String.append_empty]
    rw [hempty] at hnone
    exact ⟨iff_of_false h.unbraced.whole hnone, iff_of_false h.unbraced.inner hnone⟩
  · have hwhole : ClosesBrace (front ++ last) ↔ ClosesBrace last := by simp [closesBrace_append, hempty]
    rw [withoutParens_of_isGroup_eq_false (h.balanced.not_isGroup_append h.nonempty hempty)]
    exact ⟨hwhole, hwhole⟩

end ExprText.Text
