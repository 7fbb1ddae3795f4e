import ExprText.Proofs.Graph
import ExprText.Proofs.Names.Table
import ExprText.Render.Leaf

/-! # The letters of names

A text is made of the names that its graph is spelled with, of numbers and of names that were generated
from others. A generated name takes its letters from the names it is made from and adds none but letters
and numbers. So where no name of a graph has one of some punctuation marks, no name in its text has. -/

namespace ExprText

namespace Text

/-- Whether a text has none of the given marks. -/
def Free (marks : List Char) (text : String) : Prop :=
  ∀ c ∈ text.toList, c ∉ marks

instance (marks : List Char) (text : String) : Decidable (Free marks text) :=
  List.decidableBAll (fun c => c ∉ marks) text.toList

/-- Whether no mark is a letter or a digit. -/
def Symbols (marks : List Char) : Prop :=
  ∀ c ∈ marks, 0 < c.toNat ∧ c.toNat < 0x80 ∧ c.isAlphanum = false

instance (marks : List Char) : Decidable (Symbols marks) :=
  List.decidableBAll (fun c : Char => 0 < c.toNat ∧ c.toNat < 0x80 ∧ c.isAlphanum = false) marks

/-- What numbers and words are written with. -/
def isPlain (c : Char) : Bool :=
  c.isAlphanum || c == '-' || c == '.'

/-- Whether no mark is a letter or a sign of a number. -/
def Punctuation (marks : List Char) : Prop :=
  ∀ c ∈ marks, 0 < c.toNat ∧ c.toNat < 0x80 ∧ isPlain c = false

instance (marks : List Char) : Decidable (Punctuation marks) :=
  List.decidableBAll (fun c : Char => 0 < c.toNat ∧ c.toNat < 0x80 ∧ isPlain c = false) marks

variable {marks : List Char}

theorem Punctuation.symbols (hm : Punctuation marks) : Symbols marks := by
  intro c hc
  obtain ⟨hpos, hlt, hplain⟩ := hm c hc
  simp only [isPlain, Bool.or_eq_false_iff] at hplain
  exact ⟨hpos, hlt, hplain.1.1⟩

theorem Free.append {a b : String} (ha : Free marks a) (hb : Free marks b) : Free marks (a ++ b) := by
  intro c hc
  rw [String.toList_append] at hc
  rcases List.mem_append.mp hc with h | h
  · exact ha c h
  · exact hb c h

theorem free_ofList {cs : List Char} : Free marks (String.ofList cs) ↔ ∀ c ∈ cs, c ∉ marks := by
  rw [Free, String.toList_ofList]

namespace Symbols
variable (hm : Symbols marks)
include hm

theorem not_mem {c : Char} (hc : c.isAlphanum = true) : c ∉ marks := by
  intro h
  rw [(hm c h).2.2] at hc
  cases hc

theorem free {text : String} (h : text.toList.all Char.isAlphanum = true) : Free marks text :=
  fun c hc => hm.not_mem (List.all_eq_true.mp h c hc)

theorem free_nat (n : Nat) : Free marks (toString n) := by
  intro c hc
  rw [Nat.toString_eq_repr, Nat.toList_repr] at hc
  have hdigit := Nat.isDigit_of_mem_toDigits (by decide) (by decide) hc
  exact hm.not_mem (by simp [Char.isAlphanum, hdigit])

/-- A character beyond ASCII is no mark, and neither is the one that stands for a code point without a
    character. -/
theorem ofNat_not_mem {n : Nat} (hn : 0x80 ≤ n) : Char.ofNat n ∉ marks := by
  intro h
  obtain ⟨hpos, hlt, -⟩ := hm _ h
  by_cases hv : n.isValidChar
  · have hcode : Char.ofNat n = Char.ofNatAux n hv := dif_pos hv
    rw [hcode] at hlt
    exact absurd hlt (Nat.not_lt.mpr hn)
  · have hnone : Char.ofNat n = '\x00' := dif_neg hv
    rw [hnone] at hpos
    exact absurd hpos (by decide)

/-! ### Lower case -/

theorem toLower_not_mem {c : Char} (hc : c ∉ marks) (hascii : c.toNat < 0x80) : c.toLower ∉ marks := by
  have hall : ∀ n < 0x80, (Char.ofNat n).toLower = Char.ofNat n ∨ (Char.ofNat n).toLower.isAlphanum = true := by
    decide
  have h := hall c.toNat hascii
  rw [Char.ofNat_toNat] at h
  rcases h with h | h
  · rw [h]
    exact hc
  · exact hm.not_mem h

theorem lowerCase_not_mem {c : Char} (hc : c ∉ marks) : ∀ d ∈ lowerCase c, d ∉ marks := by
  -- The lower-case form of a capital beyond ASCII is a letter, be it beyond ASCII or not.
  have hruns : ∀ r ∈ capitalRuns, (0x80 : Int) ≤ r.first + r.shift ∨
      r.first = r.last ∧ (Char.ofNat (r.first + r.shift).toNat).isAlphanum = true := by
    decide +kernel
  intro d hd
  unfold lowerCase at hd
  split at hd
  · obtain rfl := List.mem_singleton.mp hd
    exact hm.toLower_not_mem hc ‹_›
  · split at hd
    · rcases List.mem_cons.mp hd with rfl | hd
      · exact hm.not_mem rfl
      · obtain rfl := List.mem_singleton.mp hd
        exact hm.ofNat_not_mem (by decide)
    · split at hd
      · next r hfind =>
        obtain rfl := List.mem_singleton.mp hd
        have hin := List.find?_some hfind
        simp only [CapitalRun.contains, Bool.and_eq_true, decide_eq_true_eq] at hin
        rcases hruns r (List.mem_of_find?_eq_some hfind) with h | ⟨h, hplain⟩
        · exact hm.ofNat_not_mem (by omega)
        · have hcode : c.toNat = r.first := by omega
          rw [hcode]
          exact hm.not_mem hplain
      · obtain rfl := List.mem_singleton.mp hd
        exact hc

theorem free_lowerFirst {text : String} (h : Free marks text) : Free marks (lowerFirst text) := by
  unfold lowerFirst
  split
  · exact hm.free rfl
  · next c rest htext =>
    rw [Free, htext] at h
    rw [free_ofList]
    intro d hd
    rcases List.mem_append.mp hd with hd | hd
    · exact hm.lowerCase_not_mem (h c List.mem_cons_self) d hd
    · exact h d (List.mem_cons_of_mem _ hd)

end Symbols

/-! ### Numbers -/

theorem Symbols.free_positional (hm : Symbols marks) (hdot : '.' ∉ marks) (n : Nat) (power : Int) :
    Free marks (Decimal.positional n power) := by
  have hdigits : ∀ c ∈ Nat.toDigits 10 n, c ∉ marks := by
    have h := hm.free_nat n
    rwa [Free, Nat.toString_eq_repr, Nat.toList_repr] at h
  have hzeros : ∀ k, ∀ c ∈ List.replicate k '0', c ∉ marks := by
    intro k c hc
    rw [List.eq_of_mem_replicate hc]
    exact hm.not_mem rfl
  unfold Decimal.positional
  dsimp only
  split
  · rw [free_ofList]
    intro c hc
    rcases List.mem_append.mp hc with hc | hc
    · exact hdigits c hc
    · exact hzeros _ c hc
  · have hpadded : ∀ k, ∀ c ∈ List.replicate k '0' ++ Nat.toDigits 10 n, c ∉ marks := by
      intro k c hc
      rcases List.mem_append.mp hc with hc | hc
      · exact hzeros _ c hc
      · exact hdigits c hc
    rw [free_ofList]
    intro c hc
    rcases List.mem_append.mp hc with hc | hc
    · exact hpadded _ c (List.mem_of_mem_take hc)
    · rcases List.mem_cons.mp hc with rfl | hc
      · exact hdot
      · exact hpadded _ c (List.mem_of_mem_drop hc)

theorem positional_ne_empty (n : Nat) (power : Int) : Decimal.positional n power ≠ "" := by
  have hdigits : Nat.toDigits 10 n ≠ [] := Nat.toDigits_ne_nil
  unfold Decimal.positional
  dsimp only
  split <;> simp [hdigits]

/-- A finite number is a magnitude of digits and a point, with a sign before it if it is negative. -/
theorem exists_magnitude (negative : Bool) (significand : Nat) (exponent : Int) (atBinade : Bool) :
    ∃ magnitude, magnitude ≠ "" ∧ (∀ marks, Symbols marks → '.' ∉ marks → Free marks magnitude) ∧
      Decimal.finiteText negative significand exponent atBinade =
        (if negative then "-" else "") ++ magnitude := by
  refine ⟨if significand = 0 then "0" else
    Decimal.positional (Decimal.shortest significand exponent atBinade).1
      (Decimal.shortest significand exponent atBinade).2, ?_, fun marks hm hdot => ?_, ?_⟩
  · split
    · decide
    · exact positional_ne_empty _ _
  · split
    · exact hm.free rfl
    · exact hm.free_positional hdot _ _
  · cases negative with
    | false => exact String.empty_append.symm
    | true => rfl

namespace Punctuation
variable (hm : Punctuation marks)
include hm

theorem not_mem {c : Char} (hc : isPlain c = true) : c ∉ marks := by
  intro h
  rw [(hm c h).2.2] at hc
  cases hc

theorem free {text : String} (h : text.toList.all isPlain = true) : Free marks text :=
  fun c hc => hm.not_mem (List.all_eq_true.mp h c hc)

theorem free_int (n : Int) : Free marks (toString n) := by
  cases n with
  | ofNat n => exact hm.symbols.free_nat n
  | negSucc n => exact Free.append (hm.free rfl) (hm.symbols.free_nat (n + 1))

theorem free_floatText (format : Decimal.Format) {keyword suffix : String} (bits : Nat)
    (hkeyword : keyword.toList.all isPlain = true) (hsuffix : suffix.toList.all isPlain = true) :
    Free marks (Render.floatText format keyword suffix bits) := by
  unfold Render.floatText
  split
  · exact (hm.free hkeyword).append (hm.free rfl)
  · exact (hm.free hkeyword).append (hm.free rfl)
  · exact (hm.free hkeyword).append (hm.free rfl)
  · obtain ⟨magnitude, -, hmagnitude, heq⟩ := exists_magnitude _ _ _ _
    have hfree : Free marks magnitude := hmagnitude marks hm.symbols (hm.not_mem rfl)
    refine Free.append ?_ (hm.free hsuffix)
    rw [heq]
    split
    · exact Free.append (hm.free rfl) hfree
    · exact Free.append (hm.free rfl) hfree

end Punctuation

end Text

/-! ### Spellings -/

namespace Ty

mutual

/-- The names that a type is spelled with. -/
def spellings : Ty → List String
  | .void => []
  | .named ns name args => ns.toList ++ name :: spellingsOfAll args
  | .array element _ => spellings element
  | .nullable inner => spellings inner
  | .param name => [name]
  | .byRef inner => spellings inner

def spellingsOfAll : List Ty → List String
  | [] => []
  | t :: ts => spellings t ++ spellingsOfAll ts

end

end Ty

/-- The names from which the answer to a question is made. -/
def NameRequest.spellings : NameRequest → List String
  | .variable v => v.name.toList ++ v.ty.spellings
  | .captured object => object.ty.spellings
  | .capturedMember object member => member :: object.ty.spellings

def Constant.spellings : Constant → List String
  | .decimal digits => [digits]
  | .type ty => ty.spellings
  | .enum ty member => member :: ty.spellings
  | _ => []

def Method.spellings (m : Method) : List String :=
  m.name :: m.declaringType.spellings ++ m.genericArgs.flatMap Ty.spellings

/-- The names that a node brings into its text by itself, apart from those it asks for. -/
def Expr.ownSpellings : Expr → List String
  | .constant _ value _ => value.spellings
  | .unary _ _ _ ty => ty.spellings
  | .call _ _ method _ => method.spellings
  | .new _ ty _ _ => ty.spellings
  | .newArray _ element _ => element.spellings
  | .member _ _ target => target.name :: target.declaringType.spellings
  | .default _ ty => ty.spellings
  | _ => []

/-- The names, digits and members that a node is spelled with. -/
def Expr.spellings (e : Expr) : List String :=
  e.ownSpellings ++ e.requests.flatMap NameRequest.spellings

/-! ### Generated names -/

open Text

section Generated
variable {marks : List Char} (hm : Symbols marks)
include hm

namespace Name

theorem free_avoidKeyword {name : String} (h : Free marks name) : Free marks (avoidKeyword name) := by
  unfold avoidKeyword
  split
  · exact h.append (hm.free rfl)
  · exact h

omit hm in
theorem mem_of_mem_bracketed {cs part : List Char} (h : bracketed cs = some part) :
    ∀ c ∈ part, c ∈ cs := by
  unfold bracketed at h
  split at h
  · cases h
  · next rest hdrop =>
    split at h
    · cases h
      intro c hc
      have hrest := (List.takeWhile_sublist _).subset hc
      have hmem : c ∈ cs.dropWhile (· != '<') := by
        rw [hdrop]
        exact List.mem_cons_of_mem _ hrest
      exact (List.dropWhile_sublist _).subset hmem
    · cases h

omit hm in
theorem mem_of_mem_afterUnderscores : ∀ {cs part : List Char}, afterUnderscores cs = some part →
    ∀ c ∈ part, c ∈ cs
  | [], _, h => by cases h
  | d :: rest, part, h => by
    intro c hc
    rw [afterUnderscores] at h
    split at h
    · next tail htail =>
      cases h
      exact List.mem_cons_of_mem _ (mem_of_mem_afterUnderscores htail c hc)
    · split at h
      · cases h
        exact List.mem_cons_of_mem _ (List.mem_of_mem_tail hc)
      · cases h

omit hm in
theorem eq_of_nonempty? {part : Option (List Char)} {cs : List Char} (h : nonempty? part = some cs) :
    part = some cs := by
  unfold nonempty? at h
  split at h
  · exact h
  · cases h

theorem free_surrogate? {name part : String} (hname : Free marks name)
    (h : surrogate? name = some part) : Free marks part := by
  obtain ⟨cs, hcs, rfl⟩ := Option.map_eq_some_iff.mp h
  refine free_avoidKeyword hm (free_ofList.mpr fun c hc => hname c ?_)
  rcases Option.or_eq_some_iff.mp hcs with hcs | ⟨-, hcs⟩
  · exact mem_of_mem_bracketed (eq_of_nonempty? hcs) c hc
  · exact mem_of_mem_afterUnderscores (eq_of_nonempty? hcs) c hc

omit hm in
theorem mem_of_keywordOf {ns : Option String} {name keyword : String} {args : List Ty}
    (h : Ty.keywordOf ns name args = some keyword) : keyword ∈ Ty.keywords.map Prod.snd := by
  unfold Ty.keywordOf at h
  split at h
  · obtain ⟨before, after, heq, -⟩ := List.lookup_eq_some_iff.mp h
    rw [heq]
    simp
  · cases h

theorem free_baseOf {ty : Ty} (h : ∀ w ∈ ty.spellings, Free marks w) : Free marks (baseOf ty) := by
  fun_induction baseOf ty with
  | case1 => exact hm.free rfl
  | case2 ns name args keyword hkeyword =>
    have hall : ∀ k ∈ Ty.keywords.map Prod.snd, k.toList.all Char.isAlphanum = true := by decide +kernel
    exact hm.free (hall _ (mem_of_keywordOf hkeyword))
  | case3 ns name args =>
    have hname : Free marks name :=
      h name (List.mem_append_right _ List.mem_cons_self)
    refine hm.free_lowerFirst ?_
    cases hpart : surrogate? name with
    | none => exact hname
    | some part => exact free_surrogate? hm hname hpart
  | case4 element rank ih => exact (ih h).append (hm.free rfl)
  | case5 inner ih => exact ih h
  | case6 inner ih => exact ih h
  | case7 name => exact hm.free_lowerFirst (h name List.mem_cons_self)

theorem free_ofTy {ty : Ty} (h : ∀ w ∈ ty.spellings, Free marks w) : Free marks (ofTy ty) :=
  free_avoidKeyword hm (free_baseOf hm h)

theorem free_readable {name : String} {ty : Ty} (hname : Free marks name)
    (hty : ∀ w ∈ ty.spellings, Free marks w) : Free marks (readable name ty) := by
  unfold readable
  cases hpart : surrogate? name with
  | none => exact free_ofTy hm hty
  | some part => exact free_surrogate? hm hname hpart

end Name

theorem NameRequest.free_base {r : NameRequest} (h : ∀ w ∈ r.spellings, Free marks w) :
    Free marks r.base := by
  cases r with
  | «variable» v =>
    obtain ⟨hname, hty⟩ := List.forall_mem_append.mp h
    simp only [base]
    cases hv : v.name with
    | none => exact Name.free_ofTy hm hty
    | some name =>
      rw [hv] at hname
      exact Name.free_readable hm (hname name List.mem_cons_self) hty
  | captured object => exact Name.free_ofTy hm h
  | capturedMember object member =>
    obtain ⟨hmember, hty⟩ := List.forall_mem_cons.mp h
    exact Name.free_readable hm hmember hty

end Generated

theorem NameRequest.mem_spellings_of_explicit? {r : NameRequest} {name : String} (h : r.explicit? = some name) :
    name ∈ r.spellings := by
  cases r with
  | «variable» v =>
    have hv : v.name = some name := (Option.filter_eq_some_iff.mp h).1
    exact List.mem_append_left _ (by simp [hv])
  | captured object => cases h
  | capturedMember object member =>
    simp only [NameRequest.explicit?] at h
    split at h
    · cases h
    · cases h
      exact List.mem_cons_self

namespace NameTable

/-- Whether all names that a table has given have a property. -/
def Gave (P : String → Prop) (t : NameTable) : Prop :=
  ∀ key name, t.assigned.lookup key = some name → P name

theorem Gave.cons {P : String → Prop} {t : NameTable} (h : t.Gave P) {name : String} (hname : P name)
    (key : NameKey) (taken : List String) : Gave P { assigned := (key, name) :: t.assigned, taken } := by
  intro k n hk
  rw [lookup_cons_eq] at hk
  split at hk
  · cases hk
    exact hname
  · exact h k n hk

/-- A table answers by names with a property, if the names have it that are made or brought along. -/
theorem Gave.answer {P : String → Prop} {t : NameTable} (h : t.Gave P) {r : NameRequest}
    (hmade : P (freeName t.taken r.base)) (hown : ∀ name, r.explicit? = some name → P name) :
    P (t.answer r).1 ∧ (t.answer r).2.Gave P := by
  cases hex : r.explicit? with
  | none =>
    cases hknown : t.assigned.lookup r.key with
    | some given =>
      rw [answer_generated_known hex hknown]
      exact ⟨h _ _ hknown, h⟩
    | none =>
      rw [answer_generated_new hex hknown]
      exact ⟨hmade, h.cons hmade _ _⟩
  | some n =>
    have hname := hown n hex
    cases r with
    | «variable» v =>
      cases hknown : t.assigned.lookup (.variable v.id) with
      | some given =>
        rw [answer_variable_known hex hknown]
        exact ⟨h _ _ hknown, h⟩
      | none =>
        rw [answer_variable_new hex hknown]
        exact ⟨hname, h.cons hname _ _⟩
    | captured object => cases hex
    | capturedMember object member =>
      rw [answer_member hex]
      exact ⟨hname, h⟩

/-! ### Marks in names -/

/-- Whether all names that a table has given are free of some marks. -/
def Legible (marks : List Char) : NameTable → Prop :=
  Gave (Free marks)

theorem free_freeName {marks : List Char} (hm : Punctuation marks) {taken : List String} {base : String}
    (h : Free marks base) : Free marks (freeName taken base) := by
  rcases (freeName_cases taken base).2 with heq | ⟨n, heq⟩
  · rw [heq]
    exact h
  · rw [heq]
    exact h.append (hm.free_int n)

/-- A table answers questions about legible names by legible names. -/
theorem Legible.answer {marks : List Char} (hm : Punctuation marks) {t : NameTable} (h : t.Legible marks)
    {r : NameRequest} (hr : ∀ w ∈ r.spellings, Free marks w) :
    Free marks (t.answer r).1 ∧ (t.answer r).2.Legible marks :=
  Gave.answer h (free_freeName hm (r.free_base hm.symbols hr))
    fun name hname => hr name (NameRequest.mem_spellings_of_explicit? hname)

end NameTable

/-! ### Names are not empty -/

namespace Name

theorem avoidKeyword_ne_empty {name : String} (h : name ≠ "") : avoidKeyword name ≠ "" := by
  unfold avoidKeyword
  split
  · simp [h]
  · exact h

theorem surrogate?_ne_empty {name part : String} (h : surrogate? name = some part) : part ≠ "" := by
  have hnonempty : ∀ {chars : Option (List Char)}, nonempty? chars ≠ some [] := by
    intro chars hchars
    unfold nonempty? at hchars
    split at hchars <;> cases hchars
  obtain ⟨cs, hcs, rfl⟩ := Option.map_eq_some_iff.mp h
  refine avoidKeyword_ne_empty ?_
  rw [Ne, String.ofList_eq_empty_iff]
  rintro rfl
  rcases Option.or_eq_some_iff.mp hcs with hcs | ⟨-, hcs⟩
  · exact hnonempty hcs
  · exact hnonempty hcs

theorem lowerFirst_ne_empty {text : String} (h : text ≠ "") : lowerFirst text ≠ "" := by
  unfold lowerFirst
  split
  · next hnil => exact absurd (String.toList_eq_nil_iff.mp hnil) h
  · next c rest _ =>
    have hlower : lowerCase c ≠ [] := by
      unfold lowerCase
      split
      · simp
      · split
        · simp
        · split <;> simp
    simp [hlower]

theorem baseOf_ne_empty {ty : Ty} (h : ∀ w ∈ ty.spellings, w ≠ "") : baseOf ty ≠ "" := by
  fun_induction baseOf ty with
  | case1 => decide
  | case2 ns name args keyword hkeyword =>
    have hall : ∀ k ∈ Ty.keywords.map Prod.snd, k ≠ "" := by decide +kernel
    exact hall _ (mem_of_keywordOf hkeyword)
  | case3 ns name args =>
    refine lowerFirst_ne_empty ?_
    cases hpart : surrogate? name with
    | none => exact h name (List.mem_append_right _ List.mem_cons_self)
    | some part => exact surrogate?_ne_empty hpart
  | case4 element rank ih => simp [ih h]
  | case5 inner ih => exact ih h
  | case6 inner ih => exact ih h
  | case7 name => exact lowerFirst_ne_empty (h name List.mem_cons_self)

theorem readable_ne_empty {name : String} {ty : Ty} (hty : ∀ w ∈ ty.spellings, w ≠ "") :
    readable name ty ≠ "" := by
  unfold readable
  cases hpart : surrogate? name with
  | none => exact avoidKeyword_ne_empty (baseOf_ne_empty hty)
  | some part => exact surrogate?_ne_empty hpart

end Name

theorem NameRequest.base_ne_empty {r : NameRequest} (h : ∀ w ∈ r.spellings, w ≠ "") : r.base ≠ "" := by
  cases r with
  | «variable» v =>
    obtain ⟨-, hty⟩ := List.forall_mem_append.mp h
    simp only [base]
    cases v.name with
    | none => exact Name.avoidKeyword_ne_empty (Name.baseOf_ne_empty hty)
    | some name => exact Name.readable_ne_empty hty
  | captured object => exact Name.avoidKeyword_ne_empty (Name.baseOf_ne_empty h)
  | capturedMember object member =>
    obtain ⟨-, hty⟩ := List.forall_mem_cons.mp h
    exact Name.readable_ne_empty hty

end ExprText
