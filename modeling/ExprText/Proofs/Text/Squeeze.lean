import Mathlib.Data.List.Induction
import ExprText.Proofs.Text.Lines
import ExprText.Proofs.Text.Scan

/-! # Text without its layout

Two texts have the same words if they differ only in how much space stands where there is space, and in
space after the bracket that opens a list. To squeeze a text is to read it in one of three moods, by what
stood before. Texts with the same words are squeezed to the same text, and what a rendering asks about a
text it can ask about the squeezed text: whether there is one, how it ends, and whether it is a group. -/

namespace ExprText.Text

inductive Mood where
  /-- At the start of a text or of a group in it. -/
  | fresh
  /-- After a character that opens nothing. -/
  | word
  /-- After space or after the bracket that opens a list: more space does not count. -/
  | gap
deriving DecidableEq, Repr

def isBlank (c : Char) : Bool :=
  c == ' ' || c == '\n'

namespace Mood

/-- The mood after a character. A parenthesis after a word opens a list and any other a group. -/
def next (m : Mood) (c : Char) : Mood :=
  if isBlank c then .gap
  else if c = '[' then .gap
  else if c = '(' then if m = .word then .gap else .fresh
  else .word

/-- What is left of a character. -/
def kept (m : Mood) (c : Char) : List Char :=
  if isBlank c then if m = .gap then [] else [' '] else [c]

end Mood

def squeeze (m : Mood) : List Char → List Char
  | [] => []
  | c :: cs => m.kept c ++ squeeze (m.next c) cs

/-- A text without its blanks and line breaks. -/
def dense (text : String) : String :=
  String.ofList (text.toList.filter (!isBlank ·))

open Mood

/-! ### Squeezing -/

theorem isBlank_cases {c : Char} (h : isBlank c = true) : c = ' ' ∨ c = '\n' := by
  simpa [isBlank] using h

theorem next_blank {m : Mood} {c : Char} (h : isBlank c = true) : m.next c = .gap := by
  simp [next, h]

theorem kept_blank {m : Mood} {c : Char} (h : isBlank c = true) :
    m.kept c = if m = .gap then [] else [' '] := by
  simp [kept, h]

theorem kept_solid {m : Mood} {c : Char} (h : isBlank c = false) : m.kept c = [c] := by
  simp [kept, h]

theorem squeeze_append (m : Mood) (cs ds : List Char) :
    squeeze m (cs ++ ds) = squeeze m cs ++ squeeze (cs.foldl next m) ds := by
  induction cs generalizing m with
  | nil => rfl
  | cons c cs ih => rw [List.cons_append, squeeze, squeeze, ih, List.foldl_cons, List.append_assoc]

/-- A squeezed text leaves the mood that the text leaves. -/
theorem foldl_next_squeeze (m : Mood) (cs : List Char) : (squeeze m cs).foldl next m = cs.foldl next m := by
  induction cs generalizing m with
  | nil => rfl
  | cons c cs ih =>
    rw [squeeze, List.foldl_append, List.foldl_cons]
    have hkept : (m.kept c).foldl next m = m.next c := by
      cases hc : isBlank c with
      | false => rw [kept_solid hc, List.foldl_cons, List.foldl_nil]
      | true =>
        rw [kept_blank hc, next_blank hc]
        split
        · next hgap => exact hgap
        · rfl
    rw [hkept, ih]

/-- To squeeze from a fresh start is to squeeze by half: what is dropped there is dropped in any mood. -/
theorem squeeze_squeeze {m k : Mood} (h : k = .fresh ∨ m = k) (cs : List Char) :
    squeeze m (squeeze k cs) = squeeze m cs := by
  induction cs generalizing m k with
  | nil => rfl
  | cons c cs ih =>
    cases hc : isBlank c with
    | true =>
      have hrest : squeeze .gap (squeeze .gap cs) = squeeze .gap cs := ih (.inr rfl)
      rw [squeeze, squeeze, kept_blank hc, kept_blank hc, next_blank hc, next_blank hc]
      by_cases hk : k = .gap
      · rw [if_pos hk]
        rcases h with h | h
        · rw [h] at hk
          cases hk
        · rw [if_pos (h.trans hk), h.trans hk]
          exact hrest
      · rw [if_neg hk, List.singleton_append, squeeze, kept_blank rfl, next_blank rfl, hrest]
    | false =>
      have hnext : k.next c = .fresh ∨ m.next c = k.next c := by
        rcases h with rfl | rfl
        · by_cases hparen : c = '('
          · left
            subst hparen
            rfl
          · right
            simp [next, hc, hparen]
        · exact .inr rfl
      rw [squeeze, kept_solid hc, List.singleton_append, squeeze, squeeze, kept_solid hc, ih hnext]

/-! ### The same words -/

/-- Whether two texts are squeezed to the same text in the given mood. -/
def Same (m : Mood) (cs ds : List Char) : Prop :=
  squeeze m cs = squeeze m ds

instance (m : Mood) (cs ds : List Char) : Decidable (Same m cs ds) :=
  inferInstanceAs (Decidable (squeeze m cs = squeeze m ds))

namespace Same
variable {m : Mood} {as bs cs ds : List Char}

theorem mood (h : Same m as bs) : as.foldl next m = bs.foldl next m := by
  rw [← foldl_next_squeeze, h, foldl_next_squeeze]

theorem append (h : Same m as bs) (h' : Same (as.foldl next m) cs ds) : Same m (as ++ cs) (bs ++ ds) := by
  rw [Same, squeeze_append, squeeze_append, h, h', h.mood]

theorem of_fresh (h : Same .fresh as bs) (m : Mood) : Same m as bs := by
  rw [Same, ← squeeze_squeeze (.inl rfl) as, ← squeeze_squeeze (.inl rfl) bs, h]

end Same

/-- Whether two texts have the same words. -/
def SameWords (a b : String) : Prop :=
  Same .fresh a.toList b.toList

instance (a b : String) : Decidable (SameWords a b) :=
  inferInstanceAs (Decidable (Same .fresh a.toList b.toList))

theorem SameWords.refl (a : String) : SameWords a a :=
  rfl

theorem SameWords.append {a b c d : String} (h : SameWords a b) (h' : SameWords c d) :
    SameWords (a ++ c) (b ++ d) := by
  rw [SameWords, String.toList_append, String.toList_append]
  exact Same.append h (h'.of_fresh _)

theorem SameWords.join (sep : String) {xs ys : List String} (h : List.Forall₂ SameWords xs ys) :
    SameWords (join sep xs) (join sep ys) := by
  induction h with
  | nil => exact .refl ""
  | cons hx hrest ih =>
    cases hrest with
    | nil => exact hx
    | cons hy hrest => exact (hx.append (.refl sep)).append ih

theorem SameWords.dense {a b : String} (h : SameWords a b) : dense a = dense b := by
  have hfilter : ∀ (cs : List Char) (m : Mood),
      (squeeze m cs).filter (!isBlank ·) = cs.filter (!isBlank ·) := by
    intro cs
    induction cs with
    | nil => exact fun _ => rfl
    | cons c cs ih =>
      intro m
      rw [squeeze, List.filter_append, ih]
      cases hc : isBlank c with
      | false => simp [kept_solid hc, hc]
      | true =>
        have hblank : isBlank ' ' = true := rfl
        rw [kept_blank hc]
        split <;> simp [hc, hblank]
  rw [Text.dense, Text.dense, ← hfilter a.toList .fresh, h, hfilter]

/-- After space, the blanks before the lines of a text do not count. -/
theorem squeeze_indented (n : Nat) (text : String) :
    squeeze .gap (indented (blanks n) text).toList = squeeze .gap text.toList :=
  read_indented squeeze next (fun m c cs ds h => by rw [squeeze, squeeze, h])
    (fun m cs => by rw [next_blank rfl]; rfl) n text (fun _ => rfl)

/-! ### How a text starts and ends -/

theorem squeeze_eq_nil {m : Mood} (hm : m ≠ .gap) {cs : List Char} : squeeze m cs = [] ↔ cs = [] := by
  cases cs with
  | nil => simp [squeeze]
  | cons c cs =>
    have hkept : m.kept c ≠ [] := by
      cases hc : isBlank c with
      | false => simp [kept_solid hc]
      | true => simp [kept_blank hc, hm]
    simp [squeeze, hkept]

/-- Where space does not count, the last character that counts is space itself or opens something. -/
theorem getLast?_of_gap {cs : List Char} (h : cs.foldl next .fresh = .gap) :
    ∃ c, (squeeze .fresh cs).getLast? = some c ∧ (c = ' ' ∨ c = '[' ∨ c = '(') := by
  induction cs using List.reverseRecOn with
  | nil => cases h
  | append_singleton cs c ih =>
    rw [List.foldl_append, List.foldl_cons, List.foldl_nil] at h
    rw [squeeze_append, squeeze, squeeze, List.append_nil]
    cases hc : isBlank c with
    | true =>
      rw [kept_blank hc]
      split
      · next hgap =>
        rw [List.append_nil]
        exact ih hgap
      · exact ⟨' ', by simp, .inl rfl⟩
    | false =>
      rw [kept_solid hc]
      refine ⟨c, by simp, .inr ?_⟩
      by_cases hsquare : c = '['
      · exact .inl hsquare
      · by_cases hparen : c = '('
        · exact .inr hparen
        · simp [next, hc, hsquare, hparen] at h

theorem getLast?_squeeze {c : Char} (hc : isBlank c = false) (hsquare : c ≠ '[') (hparen : c ≠ '(')
    (cs : List Char) : (squeeze .fresh cs).getLast? = some c ↔ cs.getLast? = some c := by
  rcases List.eq_nil_or_concat cs with rfl | ⟨cs, d, rfl⟩
  · rfl
  · rw [List.concat_eq_append, squeeze_append, squeeze, squeeze, List.append_nil]
    cases hd : isBlank d with
    | false => simp [kept_solid hd]
    | true =>
      have hne : d ≠ c := by
        rintro rfl
        rw [hc] at hd
        cases hd
      have hblank : ' ' ≠ c := by
        rintro rfl
        cases hc
      rw [kept_blank hd]
      split
      · next hgap =>
        obtain ⟨e, he, hcases⟩ := getLast?_of_gap hgap
        rw [List.append_nil, he]
        simp only [Option.some.injEq, List.getLast?_append, List.getLast?_singleton, Option.some_or, hne,
          iff_false]
        rintro rfl
        rcases hcases with rfl | rfl | rfl
        · exact hblank rfl
        · exact hsquare rfl
        · exact hparen rfl
      · simp [hne, hblank]

theorem Same.dropLast {c : Char} (hc : isBlank c = false) {cs ds : List Char}
    (h : Same .fresh (cs ++ [c]) (ds ++ [c])) : Same .fresh cs ds := by
  have hlast : ∀ m, squeeze m [c] = [c] := fun m => by rw [squeeze, kept_solid hc, squeeze, List.append_nil]
  rw [Same, squeeze_append, squeeze_append, hlast, hlast] at h
  exact List.append_cancel_right h

theorem Same.tail {cs ds : List Char} (h : Same .fresh ('(' :: cs) ('(' :: ds)) : Same .fresh cs ds :=
  (List.cons.inj h).2

/-! ### Groups -/

/-- A scan for the end of a group passes over the space that does not count. -/
theorem closesAtEnd_squeeze : ∀ (cs : List Char) (m : Mood) (s : Scan), s.Fair → (m = .gap → s.Idle) →
    s.closesAtEnd (squeeze m cs) = s.closesAtEnd cs
  | [], _, _, _, _ => rfl
  | c :: cs, m, s, hs, hidle => by
    cases hc : isBlank c with
    | true =>
      have hrest := closesAtEnd_squeeze cs .gap (s.step '\n') (hs.step _) fun _ => hs.step_idle (by decide)
      have hstep : s.step c = s.step '\n' := by
        rcases isBlank_cases hc with rfl | rfl
        · exact hs.step_blank
        · rfl
      have hread : s.closesAtEnd (c :: cs) = (s.step '\n').closesAtEnd cs := by
        have hclose : c ≠ ')' := by
          rintro rfl
          cases hc
        rw [Scan.closesAtEnd, if_neg fun h => hclose h.2.1, hstep]
      rw [squeeze, kept_blank hc, next_blank hc, hread]
      split
      · next hgap =>
        rw [(hidle hgap).2] at hrest
        rw [List.nil_append, hrest, (hidle hgap).2]
      · rw [List.singleton_append, Scan.closesAtEnd, if_neg (by simp), hs.step_blank, hrest]
    | false =>
      rw [squeeze, kept_solid hc, List.singleton_append, Scan.closesAtEnd, Scan.closesAtEnd]
      split
      · next hclose =>
        obtain ⟨-, rfl, -⟩ := hclose
        have hempty : squeeze .word cs = [] ↔ cs = [] := squeeze_eq_nil (by decide)
        cases cs with
        | nil => rfl
        | cons d cs =>
          have hne : squeeze .word (d :: cs) ≠ [] := fun h => by cases hempty.mp h
          simp only [List.isEmpty_cons]
          exact List.isEmpty_eq_false_iff.mpr hne
      · refine closesAtEnd_squeeze cs _ _ (hs.step c) fun hgap => hs.step_idle ?_
        rintro rfl
        simp [next, isBlank] at hgap

theorem SameWords.isGroup {a b : String} (h : SameWords a b) : isGroup a = isGroup b := by
  have hgroup : ∀ text : String, Text.isGroup text =
      ((squeeze .fresh text.toList).head? == some '(' &&
        (squeeze .fresh text.toList).getLast? == some ')' &&
        ({} : Scan).closesAtEnd (squeeze .fresh text.toList)) := by
    intro text
    have hlast := getLast?_squeeze (c := ')') rfl (by decide) (by decide) text.toList
    have hhead : (squeeze .fresh text.toList).head? = some '(' ↔ text.toList.head? = some '(' := by
      cases text.toList with
      | nil => simp [squeeze]
      | cons c cs =>
        cases hc : isBlank c with
        | false => simp [squeeze, kept_solid hc]
        | true =>
          have hne : c ≠ '(' := by
            rintro rfl
            cases hc
          simp [squeeze, kept_blank hc, hne]
    rw [closesAtEnd_squeeze _ _ _ Scan.fair_start (fun h => by cases h)]
    rw [Text.isGroup, Bool.eq_iff_iff]
    simp only [Bool.and_eq_true, beq_iff_eq, hlast, hhead]
  rw [hgroup, hgroup, h]

end ExprText.Text
