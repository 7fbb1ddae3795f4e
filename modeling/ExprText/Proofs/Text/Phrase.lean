import Mathlib.Data.List.Infix
import ExprText.Proofs.Text.Nesting
import ExprText.Render.Body

/-! # Phrases

The characters of a text that stand outside of its literals and of all its brackets. A phrase is a text
that can be a single expression: no semicolon is among these characters, and it does not begin as a
statement does. What stands in brackets never matters, so a phrase is made from a phrase by all that is
written after it, as long as that does not continue its first word to the head of a statement. -/

namespace ExprText.Text

/-! ### Outermost characters -/

/-- The characters that a reader passes while it is outside of literals and of all brackets. -/
def Nesting.outside : Nesting → List Char → List Char
  | _, [] => []
  | n, c :: cs =>
    if n.scan.quote = none ∧ n.due = some [] then c :: (n.step c).outside cs else (n.step c).outside cs

/-- The characters of a text outside of its literals and brackets, with those that open them. -/
def outermost (text : String) : List Char :=
  Nesting.outside {} text.toList

namespace Nesting

theorem outside_append : ∀ (cs ds : List Char) (n : Nesting),
    n.outside (cs ++ ds) = n.outside cs ++ (cs.foldl step n).outside ds
  | [], _, _ => rfl
  | c :: cs, ds, n => by
    rw [List.cons_append, outside, outside, outside_append cs ds, List.foldl_cons]
    split <;> rfl

theorem mem_of_mem_outside {c : Char} : ∀ {cs : List Char} {n : Nesting}, c ∈ n.outside cs → c ∈ cs
  | [], _, h => by cases h
  | d :: cs, n, h => by
    rw [outside] at h
    split at h
    · rcases List.mem_cons.mp h with rfl | h
      · exact List.mem_cons_self
      · exact List.mem_cons_of_mem _ (mem_of_mem_outside h)
    · exact List.mem_cons_of_mem _ (mem_of_mem_outside h)

/-- Inside of brackets that it does not close a reader passes nothing that is outside. -/
theorem outside_inside {d : Char} {due : List Char} (depth : Nat) : ∀ {cs : List Char} {n : Nesting},
    n.Sound → (cs.foldl step n).due ≠ none → (n.inside depth (d :: due)).outside cs = []
  | [], _, _, _ => rfl
  | c :: cs, n, hn, h => by
    have hdue : (n.inside depth (d :: due)).due ≠ some [] := by
      rw [inside]
      cases n.due <;> simp
    rw [outside, if_neg fun hout => hdue hout.2, step_inside hn (foldl_due_isSome cs h)]
    exact outside_inside depth (hn.step c) h

end Nesting

open Nesting

theorem mem_of_mem_outermost {c : Char} {text : String} (h : c ∈ outermost text) : c ∈ text.toList :=
  mem_of_mem_outside h

theorem Balanced.outermost_append {a : String} (h : Balanced a) (b : String) :
    outermost (a ++ b) = outermost a ++ outermost b := by
  rw [outermost, String.toList_append, outside_append, h.foldl_start]
  rfl

/-- Of a balanced text in brackets nothing is outside. -/
theorem Balanced.outermost_within {opening text closing : String} {d : Char} {due : List Char}
    (h : Balanced text) (hopen : (opening.toList.foldl step {}).scan.quote = none)
    (hdue : (opening.toList.foldl step {}).due = some (d :: due)) :
    outermost (opening ++ text ++ closing) = outermost (opening ++ closing) := by
  have hescaped := (sound_start.foldl opening.toList).fair.escaped hopen
  rcases hn : opening.toList.foldl step {} with ⟨⟨depth, quote, escaped⟩, due'⟩
  rw [hn] at hopen hdue hescaped
  cases hopen
  cases hdue
  cases hescaped
  have hsome : (text.toList.foldl step {}).due ≠ none := by
    rw [h.foldl_start]
    exact Option.some_ne_none _
  have hinner := @outside_inside d due depth _ _ sound_start hsome
  have hstart : ({} : Nesting).inside depth (d :: due) = ⟨⟨depth, none, false⟩, some (d :: due)⟩ := by
    simp [inside]
  rw [hstart] at hinner
  simp only [outermost, String.toList_append, outside_append, List.foldl_append, hn, hinner, h.foldl,
    List.append_nil]

theorem outermost_quoted {quote : Char} (hquote : quote = '"' ∨ quote = '\x27') (cs : List Char) :
    outermost (quoted quote cs) = [quote] := by
  have hchar : ∀ c, (⟨⟨0, some quote, false⟩, some []⟩ : Nesting).outside (escapeChar quote c) = [] := by
    intro c
    rcases escapeChar_cases hquote c with ⟨heq, -, -, -⟩ | ⟨d, heq, -, -⟩
    · simp [heq, outside]
    · simp [heq, outside, step, Scan.step]
  have hinner : ∀ cs : List Char,
      (⟨⟨0, some quote, false⟩, some []⟩ : Nesting).outside (escape quote cs ++ [quote]) = [] := by
    intro cs
    induction cs with
    | nil => simp [escape, outside]
    | cons c cs ih =>
      rw [escape, List.flatMap_cons, List.append_assoc, outside_append, hchar, foldl_escapeChar hquote]
      exact ih
  have hopen : ({} : Nesting).step quote = ⟨⟨0, some quote, false⟩, some []⟩ := by
    rcases hquote with rfl | rfl <;> rfl
  rw [outermost, quoted, String.toList_ofList, outside, if_pos ⟨rfl, rfl⟩, hopen, hinner]

/-! ### Unbroken texts -/

/-- A balanced text that no semicolon breaks into statements. -/
structure Unbroken (text : String) : Prop where
  balanced : Balanced text
  whole : ';' ∉ outermost text

instance (text : String) : Decidable (Unbroken text) :=
  decidable_of_iff (Balanced text ∧ ';' ∉ outermost text) ⟨fun h => ⟨h.1, h.2⟩, fun h => ⟨h.1, h.2⟩⟩

namespace Unbroken

theorem of_free {text : String} (h : Balanced text) (hfree : Free [';'] text) : Unbroken text :=
  ⟨h, fun hmem => hfree _ (mem_of_mem_outermost hmem) List.mem_cons_self⟩

theorem append {a b : String} (ha : Unbroken a) (hb : Unbroken b) : Unbroken (a ++ b) := by
  refine ⟨ha.balanced.append hb.balanced, ?_⟩
  rw [ha.balanced.outermost_append, List.mem_append, not_or]
  exact ⟨ha.whole, hb.whole⟩

theorem of_append {a b : String} (ha : Balanced a) (hb : Balanced b) (h : Unbroken (a ++ b)) : Unbroken b := by
  refine ⟨hb, fun hmem => h.whole ?_⟩
  rw [ha.outermost_append]
  exact List.mem_append_right _ hmem

theorem join {sep : String} (hsep : Unbroken sep) : ∀ {texts : List String},
    (∀ t ∈ texts, Unbroken t) → Unbroken (join sep texts)
  | [], _ => ⟨balanced_of_foldl rfl, by simp [Text.join, outermost, outside]⟩
  | [t], h => h t List.mem_cons_self
  | t :: u :: rest, h => by
    obtain ⟨ht, hrest⟩ := List.forall_mem_cons.mp h
    exact (ht.append hsep).append (Unbroken.join hsep hrest)

theorem within {opening text closing : String} {d : Char} {due : List Char} (h : Balanced text)
    (hopen : (opening.toList.foldl step {}).scan.quote = none)
    (hdue : (opening.toList.foldl step {}).due = some (d :: due)) (hboth : Unbroken (opening ++ closing)) :
    Unbroken (opening ++ text ++ closing) := by
  refine ⟨h.within hopen hboth.balanced, ?_⟩
  rw [h.outermost_within hopen hdue]
  exact hboth.whole

theorem parens {text : String} (h : Balanced text) : Unbroken ("(" ++ text ++ ")") :=
  within h rfl rfl (by decide)

theorem braces {text : String} (h : Balanced text) : Unbroken (Body.braces text) :=
  within h rfl rfl (by decide)

theorem quoted {quote : Char} (hquote : quote = '"' ∨ quote = '\x27') (cs : List Char) :
    Unbroken (quoted quote cs) := by
  refine ⟨balanced_quoted hquote cs, ?_⟩
  rw [outermost_quoted hquote]
  rcases hquote with rfl | rfl <;> decide

end Unbroken

/-! ### Broken texts -/

/-- Whether a semicolon breaks a text into balanced parts. -/
def Broken (text : String) : Prop :=
  ∃ a b, Balanced a ∧ Balanced b ∧ text = a ++ ";" ++ b

theorem Broken.mem_outermost {text : String} (h : Broken text) : ';' ∈ outermost text := by
  obtain ⟨a, b, ha, -, rfl⟩ := h
  have hmark : Balanced ";" := by decide
  rw [(ha.append hmark).outermost_append, ha.outermost_append]
  refine List.mem_append_left _ (List.mem_append_right _ ?_)
  decide

/-! ### Heads of statements -/

/-- What a conditional and a loop that are laid out as statements start with. -/
def statementHeads : List String :=
  ["if (", "while (true)"]

/-- Whether a text starts with the head of a statement. -/
def Headed (text : String) : Prop :=
  ∃ w ∈ statementHeads, w.toList <+: text.toList

instance (text : String) : Decidable (Headed text) :=
  inferInstanceAs (Decidable (∃ w ∈ statementHeads, w.toList <+: text.toList))

/-- Whether no head of a statement can go on with `text`, whatever follows it. -/
def Breaks (text : String) : Prop :=
  ∀ w ∈ statementHeads, ∀ v ∈ w.toList.tails, v ≠ [] → ¬v <+: text.toList ∧ ¬text.toList <+: v

instance (text : String) : Decidable (Breaks text) :=
  inferInstanceAs (Decidable (∀ w ∈ statementHeads, ∀ v ∈ w.toList.tails, v ≠ [] →
    ¬v <+: text.toList ∧ ¬text.toList <+: v))

/-- Whether a text starts in a way in which no head of a statement goes on. -/
def Follows (text : String) : Prop :=
  ∃ start rest, text = start ++ rest ∧ Breaks start

theorem Breaks.follows {start : String} (h : Breaks start) (rest : String) : Follows (start ++ rest) :=
  ⟨start, rest, rfl, h⟩

theorem Follows.not_prefix {text : String} (h : Follows text) {w : String} (hw : w ∈ statementHeads)
    {v : List Char} (hv : v <:+ w.toList) (hne : v ≠ []) : ¬v <+: text.toList := by
  obtain ⟨start, rest, rfl, hstart⟩ := h
  obtain ⟨hover, hunder⟩ := hstart w hw v ((List.mem_tails _ _).mpr hv) hne
  intro hpre
  rw [String.toList_append] at hpre
  rcases List.prefix_or_prefix_of_prefix hpre (List.prefix_append _ _) with h | h
  · exact hover h
  · exact hunder h

theorem Follows.head?_ne {text : String} (h : Follows text) : text.toList.head? ≠ some '(' := by
  have hif : "if (" ∈ statementHeads := List.mem_cons_self
  intro hhead
  obtain ⟨rest, hrest⟩ := List.head?_eq_some_iff.mp hhead
  refine h.not_prefix hif (v := ['(']) ⟨['i', 'f', ' '], rfl⟩ (List.cons_ne_nil _ _) ?_
  rw [hrest]
  exact ⟨rest, rfl⟩

theorem Follows.ne_empty {text : String} (h : Follows text) : text ≠ "" := by
  obtain ⟨start, rest, rfl, hstart⟩ := h
  intro hempty
  have hnil : start = "" := (String.append_eq_empty_iff.mp hempty).1
  rw [hnil] at hstart
  exact absurd hstart (by decide)

/-- A text starts with a head that its first part has, or that its first part begins. -/
theorem headed_append_cases {a b : String} (h : Headed (a ++ b)) : Headed a ∨
    ∃ w ∈ statementHeads, ∃ c v, w.toList = a.toList ++ c :: v ∧ c :: v <+: b.toList := by
  obtain ⟨w, hw, hpre⟩ := h
  rw [String.toList_append] at hpre
  rcases List.prefix_or_prefix_of_prefix hpre (List.prefix_append _ _) with h | ⟨v, hv⟩
  · exact .inl ⟨w, hw, h⟩
  · rw [← hv, List.prefix_append_right_inj] at hpre
    cases v with
    | nil =>
      rw [List.append_nil] at hv
      exact .inl ⟨w, hw, hv ▸ List.prefix_refl _⟩
    | cons c v => exact .inr ⟨w, hw, c, v, hv.symm, hpre⟩

theorem not_headed_append {a b : String} (ha : ¬Headed a) (hb : Follows b) : ¬Headed (a ++ b) := by
  intro h
  rcases headed_append_cases h with h | ⟨w, hw, c, v, hv, hpre⟩
  · exact ha h
  · exact hb.not_prefix hw ⟨_, hv.symm⟩ (List.cons_ne_nil c v) hpre

theorem not_headed_of_free {text : String} (h : Free ['('] text) : ¬Headed text := by
  have hall : ∀ w ∈ statementHeads, '(' ∈ w.toList := by decide
  rintro ⟨w, hw, hpre⟩
  exact h _ (hpre.subset (hall w hw)) List.mem_cons_self

theorem not_headed_of_head {text : String} {c : Char} (h : text.toList.head? = some c)
    (hc : c ≠ 'i' ∧ c ≠ 'w') : ¬Headed text := by
  have hall : ∀ w ∈ statementHeads, w.toList.head? = some 'i' ∨ w.toList.head? = some 'w' := by decide
  rintro ⟨w, hw, rest, hrest⟩
  rw [← hrest, List.head?_append] at h
  rcases hall w hw with hw | hw
  · rw [hw] at h
    exact hc.1 (Option.some.inj h).symm
  · rw [hw] at h
    exact hc.2 (Option.some.inj h).symm

/-- A name without blanks does not make the head of a statement with a bracket right after it. -/
theorem not_headed_call {name rest : String} {c : Char} (hname : Free [' ', '('] name)
    (hrest : rest.toList.head? = some c) (hc : c = '(' ∨ c = '<') : ¬Headed (name ++ rest) := by
  -- There is a blank before the bracket in every head.
  have hall : ∀ w ∈ statementHeads, ∀ v ∈ w.toList.tails, v.head? = some '(' ∨ v.head? = some '<' →
      ' ' ∈ w.toList.take (w.toList.length - v.length) := by
    decide
  intro h
  rcases headed_append_cases h with h | ⟨w, hw, d, v, hv, after, hafter⟩
  · exact not_headed_of_free (fun d hd hmem => hname d hd (List.mem_cons_of_mem _ hmem)) h
  · have hd : d = c := by
      rw [← hafter, List.cons_append, List.head?_cons, Option.some.injEq] at hrest
      exact hrest
    have hblank := hall w hw (d :: v) ((List.mem_tails _ _).mpr ⟨_, hv.symm⟩) (by simpa [hd] using hc)
    rw [hv, List.length_append, Nat.add_sub_cancel, List.take_left] at hblank
    exact hname _ hblank List.mem_cons_self

/-! ### Phrases -/

/-- An unbroken text that is not laid out as a statement. -/
structure Phrase (text : String) : Prop extends Unbroken text where
  unheaded : ¬Headed text

instance (text : String) : Decidable (Phrase text) :=
  decidable_of_iff (Unbroken text ∧ ¬Headed text) ⟨fun h => ⟨h.1, h.2⟩, fun h => ⟨h.1, h.2⟩⟩

/-- A phrase with and without the parentheses around it. -/
structure Portable (text : String) : Prop extends Phrase text where
  inner : Phrase (withoutParens text)

/-- No parentheses are around a broken text. -/
theorem Broken.withoutParens_eq {text : String} (h : Broken text) : withoutParens text = text := by
  obtain ⟨a, b, ha, hb, rfl⟩ := h
  have hgroup : isGroup (a ++ ";" ++ b) = false := by
    have hmark : Balanced ";" := by decide
    by_cases hempty : a = ""
    · subst hempty
      exact isGroup_eq_false (by simp)
    · rw [String.append_assoc]
      exact ha.not_isGroup_append hempty (by simp [← String.toList_inj])
  rw [withoutParens, hgroup, if_neg Bool.false_ne_true]

theorem Phrase.portable {text : String} (h : Phrase text) (hgroup : isGroup text = false) : Portable text :=
  ⟨h, by rwa [withoutParens, if_neg (by simp [hgroup])]⟩

/-- What is written after a phrase leaves it one. -/
theorem Phrase.followed {a b : String} (ha : Phrase a) (hb : Unbroken b) (hfollows : Follows b) :
    Portable (a ++ b) := by
  have hphrase : Phrase (a ++ b) :=
    ⟨ha.toUnbroken.append hb, not_headed_append ha.unheaded hfollows⟩
  refine hphrase.portable ?_
  by_cases hempty : a = ""
  · rw [hempty, String.empty_append]
    exact isGroup_eq_false hfollows.head?_ne
  · exact ha.balanced.not_isGroup_append hempty hfollows.ne_empty

theorem Phrase.joined {a word b : String} (ha : Phrase a) (hword : Unbroken word) (hbreaks : Breaks word)
    (hb : Unbroken b) : Portable (a ++ word ++ b) := by
  rw [String.append_assoc]
  exact ha.followed (hword.append hb) (hbreaks.follows b)

/-- A text that starts with a mark or a word of its own. -/
theorem Unbroken.portable {text : String} {c : Char} (h : Unbroken text)
    (hhead : text.toList.head? = some c) (hc : c ≠ 'i' ∧ c ≠ 'w' ∧ c ≠ '(') : Portable text := by
  have hphrase : Phrase text := ⟨h, not_headed_of_head hhead ⟨hc.1, hc.2.1⟩⟩
  refine hphrase.portable (isGroup_eq_false ?_)
  rw [hhead]
  exact fun heq => hc.2.2 (Option.some.inj heq)

theorem Phrase.of_free {text : String} (h : Free (';' :: nestingMarks) text) : Portable text := by
  have hmarks : Free nestingMarks text := fun c hc hmem => h c hc (List.mem_cons_of_mem _ hmem)
  have hparen : ∀ marks ⊆ ';' :: nestingMarks, Free marks text := fun marks hsub c hc hmem => h c hc (hsub hmem)
  have hphrase : Phrase text :=
    ⟨.of_free (balanced_of_free hmarks) (hparen _ (by decide)), not_headed_of_free (hparen _ (by decide))⟩
  refine hphrase.portable (isGroup_eq_false fun hhead => ?_)
  exact h '(' (List.mem_of_head? hhead) (by decide)

theorem withoutParens_parens {text : String} (h : Balanced text) :
    withoutParens ("(" ++ text ++ ")") = text := by
  rw [withoutParens, if_pos h.isGroup]
  simp

theorem parens_withoutParens {text : String} (h : isGroup text = true) :
    "(" ++ withoutParens text ++ ")" = text := by
  obtain ⟨inner, hinner⟩ := eq_cons_of_isGroup h
  rw [withoutParens, if_pos h, ← String.toList_inj]
  simp [hinner]

/-- In parentheses every balanced text is a phrase. -/
theorem Balanced.phrase_parens {text : String} (h : Balanced text) : Phrase ("(" ++ text ++ ")") :=
  ⟨.parens h, not_headed_of_head (c := '(') (by simp) (by decide)⟩

theorem Balanced.phrase_withParens {text : String} (h : Balanced text) : Phrase (withParens text) := by
  unfold Text.withParens
  split
  · next hgroup =>
    rw [← parens_withoutParens hgroup]
    exact h.withoutParens.phrase_parens
  · exact h.phrase_parens

theorem Phrase.parens {text : String} (h : Phrase text) : Portable ("(" ++ text ++ ")") :=
  ⟨h.balanced.phrase_parens, by rwa [withoutParens_parens h.balanced]⟩

theorem Unbroken.getLast?_ne {text : String} (h : Unbroken text) : text.toList.getLast? ≠ some ';' := by
  intro hlast
  have hfront := h.balanced.unterminated
  rw [unterminated, if_pos hlast] at hfront
  have htext : text = String.ofList text.toList.dropLast ++ ";" := by
    obtain ⟨front, hcs⟩ := List.getLast?_eq_some_iff.mp hlast
    rw [← String.toList_inj, hcs]
    simp
  have hwhole := h.whole
  rw [htext, hfront.outermost_append] at hwhole
  exact hwhole (List.mem_append_right _ List.mem_cons_self)

theorem Unbroken.unterminated_eq {text : String} (h : Unbroken text) : unterminated text = text := by
  rw [unterminated, if_neg h.getLast?_ne]

/-- The semicolon that is added to an unbroken text is the one that is taken off. -/
theorem Unbroken.unterminated_terminated {text : String} (h : Unbroken text) :
    unterminated (terminated text) = text := by
  unfold terminated
  split
  · exact h.unterminated_eq
  · simp [unterminated]

end ExprText.Text
