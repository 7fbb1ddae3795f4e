import ExprText.Text.Group
import ExprText.Text.Literal

/-! # Scans of literals

A scan of program text is inside of a literal that one of the two quotes delimits, or outside of all; a
character is escaped inside of literals only. Blanks and line breaks mean nothing to a scan, unless they
are escaped. A literal that is written has no character that ends it, and no line break. -/

namespace ExprText.Text.Scan

/-- What holds of every scan from the start of a text on. -/
structure Fair (s : Scan) : Prop where
  escaped : s.quote = none → s.escaped = false
  quote : ∀ q, s.quote = some q → q = '"' ∨ q = '\x27'

theorem fair_start : Fair {} :=
  ⟨fun _ => rfl, fun q h => by cases h⟩

/-- In a literal a scan looks for its end only. -/
theorem step_quoted {s : Scan} {q : Char} (h : s.quote = some q) (c : Char) :
    (s.step c).depth = s.depth ∧
      ((s.step c).quote = some q ∨ (s.step c).quote = none ∧ (s.step c).escaped = false ∧ c = q) := by
  simp only [step, h]
  split
  · exact ⟨rfl, .inl rfl⟩
  · split
    · exact ⟨rfl, .inl rfl⟩
    · split
      · next hescaped _ hc => exact ⟨rfl, .inr ⟨rfl, by simpa using hescaped, hc⟩⟩
      · exact ⟨rfl, .inl h⟩

/-- Outside of literals a character starts one, or it is a parenthesis or nothing. -/
theorem step_plain {s : Scan} (h : s.quote = none) (c : Char) :
    (s.step c).escaped = s.escaped ∧
      (s.step c).quote = (if c = '"' ∨ c = '\x27' then some c else none) ∧
      (s.step c).depth = (if c = '(' then s.depth + 1 else if c = ')' then s.depth - 1 else s.depth) := by
  simp only [step, h]
  by_cases hq : c = '"' ∨ c = '\x27'
  · simp only [if_pos hq]
    refine ⟨trivial, trivial, ?_⟩
    rcases hq with rfl | rfl <;> rfl
  · simp only [if_neg hq]
    split
    · exact ⟨rfl, rfl, rfl⟩
    · split
      · exact ⟨rfl, rfl, rfl⟩
      · exact ⟨rfl, h, rfl⟩

theorem Fair.step {s : Scan} (h : s.Fair) (c : Char) : (s.step c).Fair := by
  cases hquote : s.quote with
  | some q =>
    obtain ⟨-, hq | ⟨hnone, hescaped, -⟩⟩ := step_quoted hquote c
    · refine ⟨fun hnone => ?_, fun q' hq' => ?_⟩
      · rw [hnone] at hq
        cases hq
      · rw [hq] at hq'
        cases hq'
        exact h.quote q hquote
    · refine ⟨fun _ => hescaped, fun q' hq' => ?_⟩
      rw [hnone] at hq'
      cases hq'
  | none =>
    obtain ⟨hescaped, hq, -⟩ := step_plain hquote c
    refine ⟨fun _ => by rw [hescaped, h.escaped hquote], fun q' hq' => ?_⟩
    rw [hq] at hq'
    split at hq'
    · cases hq'
      assumption
    · cases hq'

/-! ### Blanks -/

/-- A scan that no blank changes. -/
def Idle (s : Scan) : Prop :=
  s.step ' ' = s ∧ s.step '\n' = s

theorem Fair.idle {s : Scan} (h : s.Fair) (hs : s.escaped = false) : s.Idle := by
  obtain ⟨depth, quote, escaped⟩ := s
  cases hs
  cases quote with
  | none => exact ⟨rfl, rfl⟩
  | some q => rcases h.quote q rfl with rfl | rfl <;> exact ⟨rfl, rfl⟩

/-- Only a backslash escapes. -/
theorem Fair.escaped_step {s : Scan} (h : s.Fair) {c : Char} (hc : c ≠ '\\') : (s.step c).escaped = false := by
  cases hquote : s.quote with
  | none => rw [(step_plain hquote c).1, h.escaped hquote]
  | some q =>
    simp only [Scan.step, hquote, if_neg hc]
    split
    · rfl
    · next hs =>
      split
      · simpa using hs
      · simpa using hs

theorem Fair.step_idle {s : Scan} (h : s.Fair) {c : Char} (hc : c ≠ '\\') : (s.step c).Idle :=
  (h.step c).idle (h.escaped_step hc)

/-- A blank is read as a line break is. -/
theorem Fair.step_blank {s : Scan} (h : s.Fair) : s.step ' ' = s.step '\n' := by
  obtain ⟨depth, quote, escaped⟩ := s
  cases quote with
  | none => rfl
  | some q => rcases h.quote q rfl with rfl | rfl <;> cases escaped <;> rfl

end ExprText.Text.Scan

namespace ExprText.Text

/-! ### Literals -/

section Literals
variable {quote : Char}

theorem step_escape (depth : Nat) (d : Char) :
    ((Scan.mk depth (some quote) false).step '\\').step d = ⟨depth, some quote, false⟩ := by
  rfl

theorem step_inner {c : Char} (hslash : c ≠ '\\') (hc : c ≠ quote) (depth : Nat) :
    (Scan.mk depth (some quote) false).step c = ⟨depth, some quote, false⟩ := by
  simp [Scan.step, hslash, hc]

theorem Scan.closesAtEnd_cons_of_ne {s : Scan} {c : Char} {rest : List Char}
    (h : s.quote = none → c = ')' → (s.step c).depth ≠ 0) :
    s.closesAtEnd (c :: rest) = (s.step c).closesAtEnd rest := by
  rw [closesAtEnd, if_neg]
  rintro ⟨hquote, hc, hdepth⟩
  exact h hquote hc hdepth

theorem Scan.closesAtEnd_quoted {s : Scan} (h : s.quote = some quote) (c : Char) (rest : List Char) :
    s.closesAtEnd (c :: rest) = (s.step c).closesAtEnd rest :=
  closesAtEnd_cons_of_ne fun hnone => by rw [h] at hnone; cases hnone

end Literals

/-! ### Escapes -/

/-- The character that an escape stands for. -/
def unescaped? (c : Char) : Option Char :=
  if c = '\\' ∨ c = '"' ∨ c = '\x27' then some c
  else if c = 'n' then some '\n'
  else if c = 'r' then some '\r'
  else if c = 't' then some '\t'
  else if c = '0' then some '\x00'
  else none

section Escapes
variable {quote : Char} (hquote : quote = '"' ∨ quote = '\x27')
include hquote

/-- A character is written as itself, or as a backslash and what stands for it. -/
theorem escapeChar_cases (c : Char) :
    (escapeChar quote c = [c] ∧ c ≠ '\\' ∧ c ≠ quote ∧ c ≠ '\n') ∨
      ∃ d, escapeChar quote c = ['\\', d] ∧ unescaped? d = some c ∧ d ≠ '\n' := by
  unfold escapeChar
  split
  · next hc => exact .inr ⟨'\\', rfl, by rw [hc]; rfl, by decide⟩
  · next hslash =>
    split
    · next hc => exact .inr ⟨'n', rfl, by rw [hc]; rfl, by decide⟩
    · next hbreak =>
      split
      · next hc => exact .inr ⟨'r', rfl, by rw [hc]; rfl, by decide⟩
      · split
        · next hc => exact .inr ⟨'t', rfl, by rw [hc]; rfl, by decide⟩
        · split
          · next hc => exact .inr ⟨'0', rfl, by rw [hc]; rfl, by decide⟩
          · split
            · next hc =>
              subst hc
              rcases hquote with rfl | rfl
              · exact .inr ⟨'"', rfl, rfl, by decide⟩
              · exact .inr ⟨'\x27', rfl, rfl, by decide⟩
            · next hc => exact .inl ⟨rfl, hslash, hc, hbreak⟩

/-- The escapes of a literal leave no line break in it. -/
theorem newline_not_mem_escape (cs : List Char) : '\n' ∉ escape quote cs := by
  intro hmem
  obtain ⟨c, -, hc⟩ := List.mem_flatMap.mp hmem
  rcases escapeChar_cases hquote c with ⟨heq, -, -, hbreak⟩ | ⟨d, heq, -, hbreak⟩
  · rw [heq, List.mem_singleton] at hc
    exact hbreak hc.symm
  · rw [heq, List.mem_cons, List.mem_singleton] at hc
    rcases hc with hc | hc
    · cases hc
    · exact hbreak hc.symm

end Escapes

end ExprText.Text
