import ExprText.Text.Group

/-! # Parenthesised texts

A text that a scan passes without leaving the parentheses around it stays what it is when it is put
in parentheses and taken out of them again. -/

namespace ExprText.Text

/-- Inside parentheses and outside quotes a scan comes out of `cs` as it went in, and no parenthesis
    in `cs` closes the one around it. -/
def Passed (cs : List Char) : Prop :=
  ∀ (depth : Nat) (escaped : Bool) (rest : List Char),
    (Scan.mk (depth + 1) none escaped).closesAtEnd (cs ++ rest) =
      (Scan.mk (depth + 1) none escaped).closesAtEnd rest

theorem Passed.append {cs ds : List Char} (hcs : Passed cs) (hds : Passed ds) : Passed (cs ++ ds) := by
  intro depth escaped rest
  rw [List.append_assoc, hcs, hds]

theorem passed_of_plain {cs : List Char} (h : ∀ c ∈ cs, c ≠ '"' ∧ c ≠ '\x27' ∧ c ≠ '(' ∧ c ≠ ')') :
    Passed cs := by
  intro depth escaped rest
  induction cs with
  | nil => rfl
  | cons c cs ih =>
    obtain ⟨h1, h2, h3, h4⟩ := h c List.mem_cons_self
    have hstep : (Scan.mk (depth + 1) none escaped).step c = Scan.mk (depth + 1) none escaped := by
      simp [Scan.step, h1, h2, h3, h4]
    rw [List.cons_append, Scan.closesAtEnd, if_neg (by simp [h4]), hstep]
    exact ih fun d hd => h d (List.mem_cons_of_mem _ hd)

theorem Passed.parens {cs : List Char} (h : Passed cs) : Passed ('(' :: (cs ++ [')'])) := by
  intro depth escaped rest
  have hopen : (Scan.mk (depth + 1) none escaped).step '(' = Scan.mk (depth + 2) none escaped := by
    simp [Scan.step]
  have hclose : (Scan.mk (depth + 2) none escaped).step ')' = Scan.mk (depth + 1) none escaped := by
    simp [Scan.step]
  rw [List.cons_append, Scan.closesAtEnd, if_neg (by simp), hopen, List.append_assoc, h,
    List.singleton_append, Scan.closesAtEnd, hclose, if_neg (by simp)]

theorem Passed.isGroup {text : String} (h : Passed text.toList) : isGroup ("(" ++ text ++ ")") = true := by
  have hlist : ("(" ++ text ++ ")").toList = '(' :: (text.toList ++ [')']) := by
    simp [String.toList_append]
  have hopen : ({} : Scan).step '(' = Scan.mk 1 none false := by simp [Scan.step]
  have hscan : ({} : Scan).closesAtEnd ('(' :: (text.toList ++ [')'])) = true := by
    rw [Scan.closesAtEnd, if_neg (by simp), hopen, h 0 false [')']]
    rfl
  have hlast : ('(' :: (text.toList ++ [')'])).getLast? = some ')' := by
    rw [← List.cons_append, List.getLast?_append]
    rfl
  simp [Text.isGroup, hlist, hscan, hlast]

theorem Passed.withoutParens {text : String} (h : Passed text.toList) :
    withoutParens ("(" ++ text ++ ")") = text := by
  have hlist : ("(" ++ text ++ ")").toList = '(' :: (text.toList ++ [')']) := by
    simp [String.toList_append]
  rw [Text.withoutParens, if_pos h.isGroup, hlist]
  simp

theorem isGroup_eq_false {text : String} (h : text.toList.head? ≠ some '(') : isGroup text = false := by
  simp [Text.isGroup, h]

theorem eq_cons_of_isGroup {text : String} (h : isGroup text = true) :
    ∃ inner, text.toList = '(' :: (inner ++ [')']) := by
  simp only [isGroup, Bool.and_eq_true, beq_iff_eq] at h
  obtain ⟨⟨hhead, hlast⟩, -⟩ := h
  obtain ⟨rest, hrest⟩ := List.head?_eq_some_iff.mp hhead
  rw [hrest] at hlast
  cases rest with
  | nil => cases hlast
  | cons d rest =>
    rw [List.getLast?_cons_cons] at hlast
    obtain ⟨inner, hinner⟩ := List.getLast?_eq_some_iff.mp hlast
    exact ⟨inner, by rw [hrest, hinner]⟩

end ExprText.Text
