import ExprText.Proofs.Text.Phrase

/-! # How texts start

The first characters of a text tell whether it can stand behind a sign or before a dot as it is: a text that
starts with a sign of its own or with a conversion cannot. A text that starts with parentheses is no
conversion if nothing but a dot, an index or a sign behind the operand follows them. -/

namespace ExprText.Text

open Nesting

/-- The signs of the operators that are written before their operands. -/
def signs : List Char :=
  ['-', '+', '~', '!']

/-- Whether a text starts with a letter or a mark that neither a sign nor a conversion starts with. -/
def StartsPlain (text : String) : Prop :=
  ∃ c, text.toList.head? = some c ∧ c ∉ '(' :: signs

/-- What can follow the text of an operand or a receiver. -/
def continuations : List String :=
  [".", "[", "\n", "++", "--"]

/-- Whether a text goes on with an operand or a receiver that stands before it. -/
def Continues (text : String) : Prop :=
  text = "" ∨ ∃ w ∈ continuations, w.toList <+: text.toList

/-- Whether a text starts with a conversion: what stands in its parentheses is followed by an operand. -/
def StartsCast (text : String) : Prop :=
  ∃ name rest, Balanced name ∧ ¬Continues rest ∧ text = "(" ++ name ++ ")" ++ rest

/-- Whether a text starts with a prefix operator: a sign or a conversion. -/
def StartsPrefixed (text : String) : Prop :=
  (∃ c ∈ signs, text.toList.head? = some c) ∨ StartsCast text

/-- Whether a text starts with parentheses that are no conversion. -/
def StartsGrouped (text : String) : Prop :=
  ∃ inner rest, Balanced inner ∧ Continues rest ∧ text = "(" ++ inner ++ ")" ++ rest

/-! ### First characters -/

theorem head?_append {a : String} (h : a ≠ "") (b : String) : (a ++ b).toList.head? = a.toList.head? := by
  have hne : a.toList ≠ [] := fun hnil => h (String.toList_eq_nil_iff.mp hnil)
  rw [String.toList_append, List.head?_append_of_ne_nil _ hne]

theorem StartsPlain.append {a : String} (h : StartsPlain a) (b : String) : StartsPlain (a ++ b) := by
  obtain ⟨c, hhead, hc⟩ := h
  refine ⟨c, ?_, hc⟩
  rw [String.toList_append, List.head?_append, hhead, Option.some_or]

theorem StartsPlain.ne_empty {text : String} (h : StartsPlain text) : text ≠ "" := by
  rintro rfl
  obtain ⟨c, hhead, -⟩ := h
  cases hhead

theorem StartsPlain.head?_ne {text : String} (h : StartsPlain text) {c : Char} (hc : c ∈ '(' :: signs) :
    text.toList.head? ≠ some c := by
  obtain ⟨d, hhead, hd⟩ := h
  rw [hhead]
  rintro ⟨⟩
  exact hd hc

theorem startsPlain_of_free {text : String} (hne : text ≠ "") (h : Free ('(' :: signs) text) :
    StartsPlain text := by
  cases hcs : text.toList with
  | nil => exact absurd (String.toList_eq_nil_iff.mp hcs) hne
  | cons c cs => exact ⟨c, by rw [hcs]; rfl, h c (by simp [hcs])⟩

/-! ### What follows -/

theorem Continues.of_mem {w : String} (hw : w ∈ continuations) (rest : String) : Continues (w ++ rest) :=
  .inr ⟨w, hw, by rw [String.toList_append]; exact List.prefix_append _ _⟩

theorem Continues.append {a b : String} (ha : Continues a) (hb : Continues b) : Continues (a ++ b) := by
  rcases ha with rfl | ⟨w, hw, hpre⟩
  · rwa [String.empty_append]
  · refine .inr ⟨w, hw, hpre.trans ?_⟩
    rw [String.toList_append]
    exact List.prefix_append _ _

theorem StartsGrouped.append {a b : String} (ha : StartsGrouped a) (hb : Continues b) :
    StartsGrouped (a ++ b) := by
  obtain ⟨inner, rest, hinner, hrest, rfl⟩ := ha
  exact ⟨inner, rest ++ b, hinner, hrest.append hb, by simp only [String.append_assoc]⟩

/-! ### Conversions -/

/-- A balanced text has no closing parenthesis behind a balanced part of it. -/
theorem Balanced.not_closed {text : String} (h : Balanced text) {front : String} (hfront : Balanced front)
    {rest : List Char} : text.toList ≠ front.toList ++ ')' :: rest := by
  intro heq
  have hend := h.foldl_start
  rw [heq, List.foldl_append, hfront.foldl_start, List.foldl_cons] at hend
  have hsome : (({} : Nesting).step ')').due ≠ none := by
    refine foldl_due_isSome rest ?_
    rw [hend]
    exact Option.some_ne_none _
  exact hsome rfl

/-- The parenthesis that a text starts with is closed at one place. -/
theorem eq_of_parens_eq {a b x y : String} (ha : Balanced a) (hb : Balanced b)
    (h : "(" ++ a ++ ")" ++ x = "(" ++ b ++ ")" ++ y) : a = b ∧ x = y := by
  have hlist : a.toList ++ ')' :: x.toList = b.toList ++ ')' :: y.toList := by
    have hchars := congrArg String.toList h
    simpa only [String.toList_append, List.append_assoc, List.cons_append, List.nil_append, List.cons.injEq,
      true_and, String.reduceToList] using hchars
  rcases List.append_eq_append_iff.mp hlist with ⟨rest, hrest, htail⟩ | ⟨rest, hrest, htail⟩
  · cases rest with
    | nil => exact ⟨by simpa [← String.toList_inj] using hrest.symm, by simpa [← String.toList_inj] using htail⟩
    | cons c rest =>
      rw [List.cons_append, List.cons.injEq] at htail
      exact absurd (htail.1 ▸ hrest) (hb.not_closed ha)
  · cases rest with
    | nil =>
      exact ⟨by simpa [← String.toList_inj] using hrest, by simpa [← String.toList_inj] using htail.symm⟩
    | cons c rest =>
      rw [List.cons_append, List.cons.injEq] at htail
      exact absurd (htail.1 ▸ hrest) (ha.not_closed hb)

theorem StartsGrouped.not_startsCast {text : String} (h : StartsGrouped text) : ¬StartsCast text := by
  rintro ⟨name, rest, hname, hrest, rfl⟩
  obtain ⟨inner, rest', hinner, hrest', heq⟩ := h
  obtain ⟨-, rfl⟩ := eq_of_parens_eq hname hinner heq
  exact hrest hrest'

theorem StartsCast.head?_eq {text : String} (h : StartsCast text) : text.toList.head? = some '(' := by
  obtain ⟨name, rest, -, -, rfl⟩ := h
  simp

/-- What starts with a conversion is no group. -/
theorem StartsCast.withParens_eq {text : String} (h : StartsCast text) :
    withParens text = "(" ++ text ++ ")" := by
  obtain ⟨name, rest, hname, hrest, rfl⟩ := h
  have hne : rest ≠ "" := fun hempty => hrest (.inl hempty)
  have hgroup := hname.parens.not_isGroup_append (by simp [← String.toList_inj]) hne
  rw [withParens, hgroup, if_neg Bool.false_ne_true]

theorem withParens_of_head?_ne {text : String} (h : text.toList.head? ≠ some '(') :
    withParens text = "(" ++ text ++ ")" := by
  rw [withParens, isGroup_eq_false h, if_neg Bool.false_ne_true]

theorem StartsPrefixed.withParens_eq {text : String} (h : StartsPrefixed text) :
    withParens text = "(" ++ text ++ ")" := by
  rcases h with ⟨c, hc, hhead⟩ | hcast
  · refine withParens_of_head?_ne ?_
    rw [hhead]
    rintro ⟨⟩
    exact absurd hc (by decide)
  · exact hcast.withParens_eq

/-- Parentheses are put around a text once. -/
theorem Balanced.exists_withParens {text : String} (h : Balanced text) :
    ∃ inner, Balanced inner ∧ withParens text = "(" ++ inner ++ ")" := by
  unfold withParens
  split
  · next hgroup => exact ⟨_, h.withoutParens, (parens_withoutParens hgroup).symm⟩
  · exact ⟨text, h, rfl⟩

theorem Balanced.withParens_withParens {text : String} (h : Balanced text) :
    withParens (withParens text) = withParens text := by
  obtain ⟨inner, hinner, heq⟩ := h.exists_withParens
  rw [heq, withParens, if_pos hinner.isGroup]

end ExprText.Text
