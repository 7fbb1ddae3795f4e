import ExprText.Proofs.Brackets
import ExprText.Proofs.Text.Phrase

/-! # Parts of texts

What the renderers of several nodes write: lists in brackets, wrappers, types and names. Lists and wrappers
are unbroken whatever stands in their brackets, and types are phrases if they are spelled with names. -/

namespace ExprText

open Text Render

/-! ### Layouts -/

theorem Text.Unbroken.argumentList {settings : Settings} {opening closing : String} {d : Char} {due : List Char}
    (hopen : (opening.toList.foldl Nesting.step {}).scan.quote = none)
    (hdue : (opening.toList.foldl Nesting.step {}).due = some (d :: due))
    (hboth : Unbroken (opening ++ closing)) {texts : List String} (h : ∀ t ∈ texts, Balanced t) :
    Unbroken (settings.argumentList opening closing texts) := by
  have hone : Balanced (Text.join ", " texts) := Balanced.join (by decide) h
  have hmany : Balanced ("\n" ++ Text.join ",\n" (texts.map (indented settings.indent))) :=
    Balanced.append (by decide) (balanced_lines h _)
  unfold Settings.argumentList
  dsimp only
  split
  · exact .within hone hopen hdue hboth
  · have hlines := Unbroken.within hmany hopen hdue hboth
    rwa [← String.append_assoc] at hlines

theorem Text.Unbroken.parameterList {settings : Settings} {texts : List String} (h : ∀ t ∈ texts, Balanced t) :
    Unbroken (settings.argumentList "(" ")" texts) :=
  .argumentList rfl rfl (by decide) h

theorem Text.Unbroken.indexList {settings : Settings} {texts : List String} (h : ∀ t ∈ texts, Balanced t) :
    Unbroken (settings.argumentList "[" "]" texts) :=
  .argumentList rfl rfl (by decide) h

theorem argumentList_eq_append (settings : Settings) (opening closing : String) (texts : List String) :
    ∃ rest, settings.argumentList opening closing texts = opening ++ rest := by
  unfold Settings.argumentList
  dsimp only
  split
  · exact ⟨_, String.append_assoc⟩
  · exact ⟨_, by simp only [String.append_assoc]; rfl⟩

theorem Text.Unbroken.arrayText {settings : Settings} {array : String} (harray : Unbroken array)
    {items : List String} (h : ∀ t ∈ items, Balanced t) : Unbroken (arrayText settings array items) := by
  have hone : Balanced (Text.join ", " items) := Balanced.join (by decide) h
  unfold Render.arrayText
  dsimp only
  split
  · have hitems : Unbroken (" \x7b " ++ Text.join ", " items ++ " \x7d") := .within hone rfl rfl (by decide)
    simpa only [String.append_assoc] using harray.append hitems
  · have hbreak : Unbroken "\n" := by decide
    exact (harray.append hbreak).append (.braces (balanced_lines h _))

theorem unbroken_blanks (n : Nat) : Unbroken (blanks n) := by
  have hfree : Free (';' :: nestingMarks) (blanks n) := by
    refine free_ofList.mpr fun c hc => ?_
    rw [List.eq_of_mem_replicate hc]
    decide
  exact (Phrase.of_free hfree).toUnbroken

theorem Text.Unbroken.checkedText {text : String} (h : Balanced text) (n : Nat) :
    Unbroken (checkedText (blanks n) text) := by
  unfold Render.checkedText
  dsimp only
  split
  · have hword : Unbroken "checked\n" := by decide
    exact hword.append (.braces (h.withoutParens.indented n))
  · exact .within h.withoutParens rfl rfl (by decide)

theorem checkedText_head (indent text : String) : (checkedText indent text).toList.head? = some 'c' := by
  unfold Render.checkedText
  dsimp only
  split <;> simp

theorem Text.Balanced.terminated {text : String} (h : Balanced text) : Balanced (terminated text) := by
  unfold Text.terminated
  split
  · exact h
  · exact h.append (by decide)

theorem Text.Unbroken.bracketed {text : String} (h : Balanced text) (isSingle : Bool) (n : Nat) :
    Unbroken (Body.mk text isSingle (blanks n)).bracketed := by
  unfold Body.bracketed
  split
  · decide
  · have hbreak : Unbroken "\n" := by decide
    exact hbreak.append (.braces (h.terminated.indented n))

/-! ### Types -/

section Types
variable {marks : List Char}

theorem Text.Free.join {sep : String} (hsep : Free marks sep) : ∀ {texts : List String},
    (∀ t ∈ texts, Free marks t) → Free marks (join sep texts)
  | [], _ => fun c hc => by cases hc
  | [t], h => h t List.mem_cons_self
  | t :: u :: rest, h => by
    obtain ⟨ht, hrest⟩ := List.forall_mem_cons.mp h
    exact (ht.append hsep).append (Text.Free.join hsep hrest)

/-- The texts that stand between the names of a type. -/
def typeWords : List String :=
  [".", "<", ", ", ">", "?", "void", "[", ",", "]"] ++ Ty.keywords.map Prod.snd

theorem Ty.free_namedDisplay (hwords : ∀ w ∈ typeWords, Free marks w) (q : Bool) {ns : Option String}
    {name : String} {args : List String}
    (hns : ∀ w ∈ ns.toList, Free marks w) (hname : Free marks name) (hargs : ∀ w ∈ args, Free marks w) :
    Free marks (Ty.namedDisplay q ns name args) := by
  have hword : ∀ w ∈ [".", "<", ", ", ">"], Free marks w := fun w hw =>
    hwords w (List.mem_append_left _ (by revert w; decide))
  have hwith : ∀ base, Free marks base →
      Free marks (if args.isEmpty then base else base ++ "<" ++ Text.join ", " args ++ ">") := by
    intro base hbase
    split
    · exact hbase
    · have hlist := Free.join (hword ", " (by decide)) hargs
      exact ((hbase.append (hword "<" (by decide))).append hlist).append (hword ">" (by decide))
  unfold Ty.namedDisplay
  cases ns with
  | none => exact hwith name hname
  | some ns =>
    cases q with
    | false => exact hwith name hname
    | true => exact hwith _ (((hns ns List.mem_cons_self).append (hword "." (by decide))).append hname)

mutual

/-- A type whose names have none of some marks is shown without them. -/
theorem Ty.free_display (hwords : ∀ w ∈ typeWords, Free marks w) (q : Bool) : ∀ ty : Ty,
    (∀ w ∈ ty.spellings, Free marks w) → Free marks (ty.display q)
  | .void, _ => hwords "void" (by decide)
  | .named ns name args, h => by
    obtain ⟨hns, hrest⟩ := List.forall_mem_append.mp h
    obtain ⟨hname, hargs⟩ := List.forall_mem_cons.mp hrest
    have hall := Ty.free_displayAll hwords q args hargs
    have hnamed := Ty.free_namedDisplay hwords q hns hname hall
    rw [Ty.display]
    split
    · next keyword hkeyword => exact hwords _ (List.mem_append_right _ (Name.mem_of_keywordOf hkeyword))
    · split
      · next inner heq =>
        rw [heq] at hall hnamed
        split
        · exact (hall inner List.mem_cons_self).append (hwords "?" (by decide))
        · exact hnamed
      · exact hnamed
  | .array element rank, h => by
    have hcommas : Free marks (String.ofList (List.replicate (rank - 1) ',')) := by
      refine free_ofList.mpr fun c hc => ?_
      rw [List.eq_of_mem_replicate hc]
      exact hwords "," (by decide) ',' (by decide)
    have hbrackets := ((hwords "[" (by decide)).append hcommas).append (hwords "]" (by decide))
    exact (Ty.free_display hwords q element h).append hbrackets
  | .nullable inner, h => (Ty.free_display hwords q inner h).append (hwords "?" (by decide))
  | .param name, h => h name List.mem_cons_self
  | .byRef inner, h => Ty.free_display hwords q inner h

theorem Ty.free_displayAll (hwords : ∀ w ∈ typeWords, Free marks w) (q : Bool) : ∀ tys : List Ty,
    (∀ w ∈ Ty.spellingsOfAll tys, Free marks w) → ∀ w ∈ Ty.displayAll q tys, Free marks w
  | [], _ => by simp [Ty.displayAll]
  | ty :: tys, h => by
    obtain ⟨hty, htys⟩ := List.forall_mem_append.mp h
    rw [Ty.displayAll, List.forall_mem_cons]
    exact ⟨Ty.free_display hwords q ty hty, Ty.free_displayAll hwords q tys htys⟩

end

end Types

/-! ### Names -/

/-- What no name has that stands in a text of statements. -/
def phraseMarks : List Char :=
  ';' :: ' ' :: nestingMarks

/-- Whether a text can be a name. -/
def IsName (w : String) : Prop :=
  w ≠ "" ∧ Free phraseMarks w

instance (w : String) : Decidable (IsName w) :=
  inferInstanceAs (Decidable (w ≠ "" ∧ Free phraseMarks w))

theorem Text.Free.mono {marks marks' : List Char} {text : String} (h : Free marks text)
    (hsub : marks' ⊆ marks) : Free marks' text :=
  fun c hc hmem => h c hc (hsub hmem)

theorem Text.Portable.of_free {text : String} (h : Free phraseMarks text) : Portable text :=
  Phrase.of_free (h.mono (by decide))

theorem phrase_display {ty : Ty} (h : ∀ w ∈ ty.spellings, IsName w) (q : Bool) : Phrase (ty.display q) := by
  have hfree : Free [';', '('] (ty.display q) :=
    Ty.free_display (by decide +kernel) q ty fun w hw => (h w hw).2.mono (by decide)
  have hbalanced : Balanced (ty.display q) :=
    Comparison.display (C := Comparison.balanced {} q) q ty fun w hw =>
      balanced_of_free ((h w hw).2.mono (by decide))
  exact ⟨.of_free hbalanced (hfree.mono (by decide)), not_headed_of_free (hfree.mono (by decide))⟩

theorem punctuation_phraseMarks : Punctuation phraseMarks := by decide

/-- A table that has given legible names answers by them. -/
theorem NameTable.Legible.free_answer {t : NameTable} (h : t.Legible phraseMarks) {e : Expr}
    (hspelled : ∀ w ∈ e.spellings, IsName w) {r : NameRequest} (hr : r ∈ e.requests) :
    Free phraseMarks (t.answer r).1 ∧ (t.answer r).2.Legible phraseMarks := by
  refine h.answer punctuation_phraseMarks fun w hw => (hspelled w ?_).2
  exact List.mem_append_right _ (List.mem_flatMap.mpr ⟨r, hr, hw⟩)

end ExprText
