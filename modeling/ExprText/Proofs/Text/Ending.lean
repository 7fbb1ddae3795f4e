import ExprText.Proofs.Text.Comment
import ExprText.Proofs.Text.Phrase

/-! # How statements end

A statement is given a semicolon unless it has one or ends in a closing brace. A colon or a comma at its end
and a comment in its last line would also do, but no text that is composed of names and literals ends in
these. At most one statement is a text in which no semicolon stands outside of all brackets but one at its
end. -/

namespace ExprText.Text

/-! ### Concluded texts -/

/-- Whether a text goes on after a character, if it does or does not before. Semicolons and closing
    parentheses are passed over, for these can be taken off. -/
def goesOn (before : Bool) (c : Char) : Bool :=
  if c = ';' ∨ c = ')' then before else c = ':' ∨ c = ','

/-- Whether a text does not end in a colon or a comma, nor does so without the semicolons and parentheses at
    its end. -/
def Ended (text : String) : Prop :=
  text.toList.foldl goesOn false = false

instance (text : String) : Decidable (Ended text) :=
  inferInstanceAs (Decidable (text.toList.foldl goesOn false = false))

/-- A text that leaves nothing open at its end, and has no comment there. -/
structure Concluded (text : String) : Prop where
  uncommented : Uncommented text
  ended : Ended text

instance (text : String) : Decidable (Concluded text) :=
  decidable_of_iff (Uncommented text ∧ Ended text) ⟨fun h => ⟨h.1, h.2⟩, fun h => ⟨h.1, h.2⟩⟩

/-- Whether a text ends in a closing brace. -/
def ClosesBrace (text : String) : Prop :=
  text.toList.getLast? = some '\x7d'

instance (text : String) : Decidable (ClosesBrace text) :=
  inferInstanceAs (Decidable (text.toList.getLast? = some '\x7d'))

namespace Ended
variable {a b text : String}

theorem of_free (h : Free [':', ','] text) : Ended text := by
  have hall : ∀ cs : List Char, (∀ c ∈ cs, c ∉ [':', ',']) → cs.foldl goesOn false = false := by
    intro cs
    induction cs with
    | nil => exact fun _ => rfl
    | cons c cs ih =>
      intro hcs
      obtain ⟨hc, hcs⟩ := List.forall_mem_cons.mp hcs
      have hstep : goesOn false c = false := by
        simp only [List.mem_cons, List.not_mem_nil, or_false, not_or] at hc
        simp [goesOn, hc]
      rw [List.foldl_cons, hstep, ih hcs]
  exact hall _ h

theorem append (ha : Ended a) (hb : Ended b) : Ended (a ++ b) := by
  rw [Ended, String.toList_append, List.foldl_append, ha, hb]

theorem join {sep : String} (hsep : Ended sep) : ∀ {texts : List String},
    (∀ t ∈ texts, Ended t) → Ended (join sep texts)
  | [], _ => rfl
  | [t], h => h t List.mem_cons_self
  | t :: u :: rest, h => by
    obtain ⟨ht, hrest⟩ := List.forall_mem_cons.mp h
    exact (ht.append hsep).append (Ended.join hsep hrest)

theorem indented (h : Ended text) (n : Nat) : Ended (indented (blanks n) text) := by
  have hread : (Text.indented (blanks n) text).toList.foldl goesOn false = text.toList.foldl goesOn false :=
    read_indented (fun b cs => cs.foldl goesOn b) goesOn (fun _ _ _ _ h => h)
      (fun b cs => by simp [goesOn]) n text (fun cs => by simp [goesOn])
  rw [Ended, hread]
  exact h

/-- What is closed is ended, whatever is in it. -/
theorem closed (text : String) {closing : String} (h : ∀ before, closing.toList.foldl goesOn before = false) :
    Ended (text ++ closing) := by
  rw [Ended, String.toList_append, List.foldl_append, h]

end Ended

theorem append_ne_empty {a b : String} (h : a ≠ "" ∨ b ≠ "") : a ++ b ≠ "" := by
  intro hempty
  obtain ⟨ha, hb⟩ := String.append_eq_empty_iff.mp hempty
  exact h.elim (absurd ha) (absurd hb)

theorem terminated_eq_ite {text : String} (h : text ≠ "") :
    terminated text = if isTerminated text = true then text else text ++ ";" := by
  simp [terminated, h]

theorem unterminated_append_mark {text : String} (h : text.toList.getLast? = some ';') :
    unterminated text ++ ";" = text := by
  obtain ⟨front, hfront⟩ := List.getLast?_eq_some_iff.mp h
  rw [unterminated, if_pos h, ← String.toList_inj]
  simp [hfront]

theorem ClosesBrace.terminated_eq {text : String} (h : ClosesBrace text) : terminated text = text := by
  have hlast : text.toList.getLast? = some '\x7d' := h
  rw [terminated, if_pos (by simp [isTerminated, hlast, terminators])]

theorem getLast?_append_ne {a b : String} {c : Char} (ha : a.toList.getLast? ≠ some c)
    (hb : b.toList.getLast? ≠ some c) : (a ++ b).toList.getLast? ≠ some c := by
  rw [String.toList_append, List.getLast?_append]
  cases hlast : b.toList.getLast? with
  | none => exact ha
  | some d => rwa [hlast] at hb

namespace Concluded
variable {a b text : String}

theorem of_free (h : Free ['/', ':', ','] text) : Concluded text where
  uncommented := uncommented_of_not_mem fun hmem => h _ hmem (by decide)
  ended := .of_free fun c hc hmem => h c hc (List.mem_cons_of_mem _ hmem)

theorem append (ha : Concluded a) (hb : Concluded b) : Concluded (a ++ b) :=
  ⟨ha.uncommented.append hb.uncommented, ha.ended.append hb.ended⟩

theorem quoted {quote : Char} (hquote : quote = '"' ∨ quote = '\x27') (cs : List Char) :
    Concluded (quoted quote cs) := by
  refine ⟨uncommented_quoted hquote cs, ?_⟩
  rw [Ended, Text.quoted, String.toList_ofList, ← List.cons_append, List.foldl_append, List.foldl_cons,
    List.foldl_nil]
  rcases hquote with rfl | rfl <;> rfl

theorem withoutParens (h : Concluded text) : Concluded (withoutParens text) := by
  unfold Text.withoutParens
  split
  · next hgroup =>
    obtain ⟨inner, hinner⟩ := eq_cons_of_isGroup hgroup
    have hended := h.ended
    rw [Ended, hinner, List.foldl_cons, List.foldl_append] at hended
    rw [hinner, List.tail_cons, List.dropLast_concat]
    refine ⟨h.uncommented.withoutParens hinner, ?_⟩
    rw [Ended, String.toList_ofList]
    exact hended
  · exact h

theorem unterminated (h : Concluded text) : Concluded (unterminated text) := by
  unfold Text.unterminated
  split
  · next hlast =>
    obtain ⟨front, hfront⟩ := List.getLast?_eq_some_iff.mp hlast
    have hended := h.ended
    rw [Ended, hfront, List.foldl_append] at hended
    rw [hfront, List.dropLast_concat]
    refine ⟨h.uncommented.dropLast hfront, ?_⟩
    rw [Ended, String.toList_ofList]
    exact hended
  · exact h

/-- A concluded text needs no semicolon if it has one or closes a brace, and only then. -/
theorem isTerminated_iff (h : Concluded text) :
    isTerminated text = true ↔ text.toList.getLast? = some ';' ∨ ClosesBrace text := by
  rw [h.uncommented.isTerminated, ClosesBrace]
  cases hlast : text.toList.getLast? with
  | none => simp
  | some c =>
    obtain ⟨front, hfront⟩ := List.getLast?_eq_some_iff.mp hlast
    have hended := h.ended
    rw [Ended, hfront, List.foldl_append, List.foldl_cons, List.foldl_nil] at hended
    -- Of the four characters after which no semicolon is put, an ended text can have two at its end.
    have hmark : c ≠ ':' ∧ c ≠ ',' := by
      constructor
      · rintro rfl
        simp [goesOn] at hended
      · rintro rfl
        simp [goesOn] at hended
    simp [terminators, hmark]

/-- A concluded text that has characters is followed by a semicolon unless it closes a brace. -/
theorem terminated_eq_iff (h : Concluded text) :
    terminated text = Text.unterminated text ++ ";" ↔ text ≠ "" ∧ ¬ClosesBrace text := by
  by_cases hempty : text = ""
  · subst hempty
    decide
  · have hdone := h.isTerminated_iff
    rw [terminated_eq_ite hempty]
    by_cases hmark : text.toList.getLast? = some ';'
    · have hbrace : ¬ClosesBrace text := by simp [ClosesBrace, hmark]
      rw [if_pos (hdone.mpr (.inl hmark)), unterminated_append_mark hmark]
      exact iff_of_true rfl ⟨hempty, hbrace⟩
    · rw [Text.unterminated, if_neg hmark]
      by_cases hbrace : ClosesBrace text
      · rw [if_pos (hdone.mpr (.inr hbrace))]
        exact iff_of_false (by simp [← String.toList_inj]) fun hboth => hboth.2 hbrace
      · rw [if_neg fun hterminated => (hdone.mp hterminated).elim hmark hbrace]
        exact iff_of_true rfl ⟨hempty, hbrace⟩

end Concluded

theorem Concluded.getLast?_terminated_ne {text : String} (h : Concluded text) :
    (terminated text).toList.getLast? ≠ some ')' := by
  by_cases hempty : text = ""
  · subst hempty
    decide
  · rw [terminated_eq_ite hempty]
    split
    · next hdone =>
      rcases h.isTerminated_iff.mp hdone with hlast | hlast
      · simp [hlast]
      · rw [hlast]
        decide
    · simp

theorem getLast?_append_mark (front : String) : (front ++ ";").toList.getLast? = some ';' := by
  simp

/-! ### Single statements -/

/-- Whether a text is balanced and no semicolon stands outside of its brackets and literals, but for one at
    its end. -/
def OneStatement (text : String) : Prop :=
  Unbroken (unterminated text)

instance (text : String) : Decidable (OneStatement text) :=
  inferInstanceAs (Decidable (Unbroken (unterminated text)))

theorem unterminated_append {b : String} (a : String) (hb : b ≠ "") :
    unterminated (a ++ b) = a ++ unterminated b := by
  have hlast : (a ++ b).toList.getLast? = b.toList.getLast? := by
    have hsome : b.toList.getLast?.isSome = true := by simpa using hb
    rw [String.toList_append, List.getLast?_append, Option.or_of_isSome hsome]
  have hne : b.toList ≠ [] := by simpa using hb
  unfold unterminated
  rw [hlast]
  split
  · rw [← String.toList_inj]
    simp [List.dropLast_append_of_ne_nil hne]
  · rfl

theorem Unbroken.oneStatement {text : String} (h : Unbroken text) : OneStatement text := by
  rw [OneStatement, h.unterminated_eq]
  exact h

/-- What stands before a statement leaves it one. -/
theorem Unbroken.oneStatement_append {a b : String} (ha : Unbroken a) (hb : OneStatement b) :
    OneStatement (a ++ b) := by
  by_cases hempty : b = ""
  · rw [hempty, String.append_empty]
    exact ha.oneStatement
  · rw [OneStatement, unterminated_append a hempty]
    exact ha.append hb

theorem oneStatement_mark {text : String} : OneStatement (text ++ ";") ↔ Unbroken text := by
  have hnone : unterminated ";" = "" := by decide
  rw [OneStatement, unterminated_append _ (by decide), hnone, String.append_empty]

/-- A semicolon at its end leaves a text one statement, and makes no other one. -/
theorem oneStatement_terminated {text : String} : OneStatement (terminated text) ↔ OneStatement text := by
  unfold terminated
  split
  · rfl
  · next hopen =>
    have hmark : text.toList.getLast? ≠ some ';' := by
      intro hlast
      exact hopen (by simp [isTerminated, hlast, terminators])
    rw [oneStatement_mark, OneStatement, unterminated, if_neg hmark]

theorem OneStatement.unbroken {text : String} (h : OneStatement text) (hbrace : ClosesBrace text) :
    Unbroken text := by
  have hlast : text.toList.getLast? = some '\x7d' := hbrace
  rw [OneStatement, unterminated, if_neg (by simp [hlast])] at h
  exact h

/-- Whether a semicolon outside of all brackets has some text after it. -/
def Several (text : String) : Prop :=
  ∃ a b, Balanced a ∧ Balanced b ∧ b ≠ "" ∧ text = a ++ ";" ++ b

namespace Several
variable {a b text : String}

theorem not_oneStatement (h : Several text) : ¬OneStatement text := by
  obtain ⟨a, b, ha, hb, hne, rfl⟩ := h
  have hbroken : Broken (a ++ ";" ++ unterminated b) := ⟨a, _, ha, hb.unterminated, rfl⟩
  intro hone
  rw [OneStatement, unterminated_append _ hne] at hone
  exact hone.whole hbroken.mem_outermost

theorem withoutParens_eq (h : Several text) : withoutParens text = text := by
  obtain ⟨a, b, ha, hb, -, rfl⟩ := h
  exact Broken.withoutParens_eq ⟨a, b, ha, hb, rfl⟩

theorem terminated (h : Several text) : Several (terminated text) := by
  unfold Text.terminated
  split
  · exact h
  · obtain ⟨a, b, ha, hb, hne, rfl⟩ := h
    have hmark : b ++ ";" ≠ "" := fun hempty => hne (String.append_eq_empty_iff.mp hempty).1
    exact ⟨a, b ++ ";", ha, hb.append (by decide), hmark, String.append_assoc⟩

theorem append_left (ha : Balanced a) (h : Several text) : Several (a ++ text) := by
  obtain ⟨front, back, hfront, hback, hne, rfl⟩ := h
  exact ⟨a ++ front, back, ha.append hfront, hback, hne, by simp only [String.append_assoc]⟩

theorem append_right (h : Several text) (hb : Balanced b) : Several (text ++ b) := by
  obtain ⟨front, back, hfront, hback, hne, rfl⟩ := h
  exact ⟨front, back ++ b, hfront, hback.append hb, append_ne_empty (.inl hne), String.append_assoc⟩

theorem ne_empty (h : Several text) : text ≠ "" := by
  obtain ⟨front, back, -, -, hne, rfl⟩ := h
  exact append_ne_empty (.inr hne)

end Several

end ExprText.Text
