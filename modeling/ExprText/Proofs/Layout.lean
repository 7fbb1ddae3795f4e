import ExprText.Proofs.Group
import ExprText.Proofs.Parallel.Run
import ExprText.Proofs.Text.Comment
import ExprText.Proofs.Text.Squeeze

/-! # Layout

The widths of lines and of indents decide where a text has line breaks and how many blanks it has. A
graph that is rendered under two settings has texts with the same words as long as no node is laid out by
the number of its lines, and these texts are equal once their blanks and line breaks are deleted. -/

namespace ExprText

open Text Render

/-! ### Lists -/

namespace Text

/-- The items of a list have the same words on one line and on lines of their own. -/
theorem same_join {xs ys : List String} (h : List.Forall₂ SameWords xs ys) (n : Nat) :
    Same .gap (join ", " xs).toList (join ",\n" (ys.map (indented (blanks n)))).toList := by
  have hindented : ∀ {x y : String}, SameWords x y →
      Same .gap x.toList (indented (blanks n) y).toList := by
    intro x y hxy
    rw [Same, squeeze_indented]
    exact hxy.of_fresh .gap
  induction h with
  | nil => rfl
  | cons hx hrest ih =>
    cases hrest with
    | nil => exact hindented hx
    | cons hy hrest =>
      have hcomma : ∀ m, Same m ", ".toList ",\n".toList := fun m => by cases m <;> decide
      have hgap : ∀ m, ", ".toList.foldl Mood.next m = .gap := fun m => by cases m <;> rfl
      simp only [join, List.map_cons, String.toList_append] at ih ⊢
      refine ((hindented hx).append (hcomma _)).append ?_
      rw [List.foldl_append, hgap]
      exact ih

theorem SameWords.around {opening opening' closing closing' x y : String} (hopen : SameWords opening opening')
    (hgap : opening.toList.foldl Mood.next .fresh = .gap) (hxy : Same .gap x.toList y.toList)
    (hclose : SameWords closing closing') : SameWords (opening ++ x ++ closing) (opening' ++ y ++ closing') := by
  have hinner : SameWords (opening ++ x) (opening' ++ y) := by
    rw [SameWords, String.toList_append, String.toList_append]
    refine Same.append hopen ?_
    rw [hgap]
    exact hxy
  exact hinner.append hclose

theorem uncommented_lines {s : Settings} {texts : List String} (h : ∀ t ∈ texts, Uncommented t) :
    slashesApart .gap (join ",\n" (texts.map (indented s.indent))).toList = true := by
  induction texts with
  | nil => rfl
  | cons t texts ih =>
    obtain ⟨ht, htexts⟩ := List.forall_mem_cons.mp h
    have hfirst := ht.indented s.indentWidth
    cases texts with
    | nil => exact hfirst
    | cons u texts =>
      have hcomma : ∀ z, slashesApart z ",\n".toList = true := fun z => by cases z <;> rfl
      have hgap : ∀ z, ",\n".toList.foldl Zone.next z = .gap := fun z => by cases z <;> rfl
      simp only [List.map_cons, join, String.toList_append] at ih ⊢
      refine slashesApart_append.mpr ⟨slashesApart_append.mpr ⟨hfirst, hcomma _⟩, ?_⟩
      rw [List.foldl_append, hgap]
      exact ih htexts

end Text

/-- Arguments have the words that they have on one line. -/
theorem sameWords_argumentList {xs ys : List String} (h : List.Forall₂ SameWords xs ys) (s : Settings)
    {w opening closing : String} (hgap : (w ++ opening).toList.foldl Mood.next .fresh = .gap) :
    SameWords (w ++ opening ++ join ", " xs ++ closing) (w ++ s.argumentList opening closing ys) := by
  have hone : Same .gap (join ", " xs).toList (join ", " ys).toList := (SameWords.join ", " h).of_fresh .gap
  have hmany : Same .gap (join ", " xs).toList
      ("\n" ++ join ",\n" (ys.map (indented s.indent))).toList := by
    rw [String.toList_append]
    exact same_join h s.indentWidth
  unfold Settings.argumentList
  dsimp only
  split
  · have hlist := (SameWords.refl (w ++ opening)).around hgap hone (.refl closing)
    simpa only [String.append_assoc] using hlist
  · have hlist := (SameWords.refl (w ++ opening)).around hgap hmany (.refl closing)
    simpa only [String.append_assoc] using hlist

/-- The items of an array have the words that they have on one line. -/
theorem sameWords_arrayText {xs ys : List String} (h : List.Forall₂ SameWords xs ys) (s : Settings) (w : String) :
    SameWords (w ++ " \x7b " ++ join ", " xs ++ " \x7d") (arrayText s w ys) := by
  unfold arrayText
  dsimp only
  split
  · exact ((SameWords.refl _).append (.join ", " h)).append (.refl _)
  · have hbreak : SameWords " \x7b " ("\n" ++ "\x7b\n") := by decide
    have hopen : SameWords (w ++ " \x7b ") (w ++ ("\n" ++ "\x7b\n")) := (SameWords.refl w).append hbreak
    have hgap : (w ++ " \x7b ").toList.foldl Mood.next .fresh = .gap := by
      rw [String.toList_append, List.foldl_append]
      rfl
    have hclose : SameWords " \x7d" "\n\x7d" := by decide
    have hlist := hopen.around hgap (same_join h s.indentWidth) hclose
    simpa only [Body.braces, Settings.indent, String.append_assoc] using hlist

theorem uncommented_argumentList {texts : List String} (h : ∀ t ∈ texts, Uncommented t) (s : Settings)
    {opening closing : String} (hopen : Uncommented opening) (hclose : Uncommented closing) :
    Uncommented (s.argumentList opening closing texts) := by
  unfold Settings.argumentList
  dsimp only
  split
  · exact (hopen.append (.join (by decide) h)).append hclose
  · refine Uncommented.around (hopen.append (by decide)) ?_ (uncommented_lines h) hclose
    rw [String.toList_append, List.foldl_append]
    rfl

theorem uncommented_arrayText {items : List String} (h : ∀ t ∈ items, Uncommented t) (s : Settings)
    {w : String} (hw : Uncommented w) : Uncommented (arrayText s w items) := by
  unfold arrayText
  dsimp only
  split
  · exact ((hw.append (by decide)).append (.join (by decide) h)).append (by decide)
  · have hbreak : Uncommented "\n" := by decide
    exact (hw.append hbreak).append (.around (by decide) rfl (uncommented_lines h) (by decide))

/-! ### Texts in two layouts -/

/-- Two layouts of one text. -/
structure LaidOut (a b : String) : Prop where
  words : SameWords a b
  left : Uncommented a
  right : Uncommented b

namespace LaidOut
variable {a b c d : String}

theorem refl (h : Uncommented a) : LaidOut a a :=
  ⟨.refl a, h, h⟩

theorem append (h : LaidOut a b) (h' : LaidOut c d) : LaidOut (a ++ c) (b ++ d) :=
  ⟨h.words.append h'.words, h.left.append h'.left, h.right.append h'.right⟩

theorem all {xs ys : List String} (h : List.Forall₂ LaidOut xs ys) :
    List.Forall₂ SameWords xs ys ∧ (∀ x ∈ xs, Uncommented x) ∧ ∀ y ∈ ys, Uncommented y := by
  induction h with
  | nil => exact ⟨.nil, fun x hx => (List.not_mem_nil hx).elim, fun y hy => (List.not_mem_nil hy).elim⟩
  | cons hx _ ih =>
    obtain ⟨hwords, hleft, hright⟩ := ih
    exact ⟨.cons hx.words hwords, List.forall_mem_cons.mpr ⟨hx.left, hleft⟩,
      List.forall_mem_cons.mpr ⟨hx.right, hright⟩⟩

theorem argumentList {xs ys : List String} (h : List.Forall₂ LaidOut xs ys) (s t : Settings)
    {w opening closing : String} (hw : Uncommented w)
    (hgap : (w ++ opening).toList.foldl Mood.next .fresh = .gap) (hopen : Uncommented opening)
    (hclose : Uncommented closing) :
    LaidOut (w ++ s.argumentList opening closing xs) (w ++ t.argumentList opening closing ys) := by
  obtain ⟨hwords, hleft, hright⟩ := all h
  have hself : List.Forall₂ SameWords xs xs := List.forall₂_same.mpr fun x _ => .refl x
  exact ⟨Eq.trans (Eq.symm (sameWords_argumentList hself s hgap)) (sameWords_argumentList hwords t hgap), hw.append (uncommented_argumentList hleft s hopen hclose),
    hw.append (uncommented_argumentList hright t hopen hclose)⟩

theorem arrayText {xs ys : List String} (h : List.Forall₂ LaidOut xs ys) (s t : Settings) {w : String}
    (hw : Uncommented w) : LaidOut (Render.arrayText s w xs) (Render.arrayText t w ys) := by
  obtain ⟨hwords, hleft, hright⟩ := all h
  have hself : List.Forall₂ SameWords xs xs := List.forall₂_same.mpr fun x _ => .refl x
  exact ⟨Eq.trans (Eq.symm (sameWords_arrayText hself s w)) (sameWords_arrayText hwords t w), uncommented_arrayText hleft s hw, uncommented_arrayText hright t hw⟩

theorem braces (h : LaidOut a b) (n k : Nat) :
    LaidOut (Body.braces (indented (blanks n) a)) (Body.braces (indented (blanks k) b)) := by
  have hsame : Same .gap (indented (blanks n) a).toList (indented (blanks k) b).toList := by
    rw [Same, squeeze_indented, squeeze_indented]
    exact h.words.of_fresh .gap
  exact ⟨(SameWords.refl _).around rfl hsame (.refl _),
    .around (by decide) rfl (h.left.indented n) (by decide), .around (by decide) rfl (h.right.indented k) (by decide)⟩

theorem newline (n k : Nat) : LaidOut ("\n" ++ blanks n) ("\n" ++ blanks k) := by
  have hblanks : ∀ n, squeeze .gap (blanks n).toList = [] := by
    intro n
    rw [blanks, String.toList_ofList]
    induction n with
    | zero => rfl
    | succ n ih => exact ih
  have hfree : ∀ n, Uncommented ("\n" ++ blanks n) := by
    intro n
    have hbreak : Uncommented "\n" := by decide
    refine hbreak.append (uncommented_of_not_mem fun hmem => ?_)
    rw [blanks, String.toList_ofList] at hmem
    cases List.eq_of_mem_replicate hmem
  refine ⟨?_, hfree n, hfree k⟩
  rw [SameWords, String.toList_append, String.toList_append]
  refine Same.append rfl ?_
  exact (hblanks n).trans (hblanks k).symm

theorem isEmpty (h : LaidOut a b) : a.isEmpty = b.isEmpty := by
  have hempty : ∀ text : String, text.isEmpty = (squeeze .fresh text.toList).isEmpty := by
    intro text
    rw [Bool.eq_iff_iff, List.isEmpty_iff, squeeze_eq_nil (by decide)]
    simp
  rw [hempty, hempty, h.words]

theorem last {c : Char} (h : LaidOut a b) (hc : isBlank c = false) (hsquare : c ≠ '[') (hparen : c ≠ '(') :
    a.toList.getLast? = some c ↔ b.toList.getLast? = some c := by
  rw [← getLast?_squeeze hc hsquare hparen, ← getLast?_squeeze hc hsquare hparen b.toList, h.words]

theorem isTerminated (h : LaidOut a b) : isTerminated a = isTerminated b := by
  have hlast : ∀ text : String, text.toList.getLast?.any terminators.contains = true ↔
      ∃ c ∈ terminators, text.toList.getLast? = some c := by
    intro text
    simp [Option.any_eq_true, and_comm]
  have hsolid : ∀ c ∈ terminators, isBlank c = false ∧ c ≠ '[' ∧ c ≠ '(' := by
    simp [terminators, isBlank]
  rw [h.left.isTerminated, h.right.isTerminated, Bool.eq_iff_iff, hlast, hlast]
  refine exists_congr fun c => and_congr_right fun hc => ?_
  obtain ⟨hblank, hsquare, hparen⟩ := hsolid c hc
  exact h.last hblank hsquare hparen

theorem withoutParens (h : LaidOut a b) : LaidOut (withoutParens a) (withoutParens b) := by
  unfold Text.withoutParens
  rw [h.words.isGroup]
  split
  · next hb =>
    have ha := h.words.isGroup.trans hb
    obtain ⟨x, hx⟩ := eq_cons_of_isGroup ha
    obtain ⟨y, hy⟩ := eq_cons_of_isGroup hb
    have hwords := h.words
    rw [SameWords, hx, hy] at hwords
    have hinner : SameWords (String.ofList x) (String.ofList y) := by
      rw [SameWords, String.toList_ofList, String.toList_ofList]
      exact hwords.tail.dropLast rfl
    rw [hx, hy, List.tail_cons, List.tail_cons, List.dropLast_concat, List.dropLast_concat]
    exact ⟨hinner, h.left.withoutParens hx, h.right.withoutParens hy⟩
  · exact h

theorem unterminated (h : LaidOut a b) : LaidOut (unterminated a) (unterminated b) := by
  have hlast : a.toList.getLast? = some ';' ↔ b.toList.getLast? = some ';' :=
    h.last rfl (by decide) (by decide)
  unfold Text.unterminated
  split
  · next ha =>
    have hb := hlast.mp ha
    obtain ⟨x, hx⟩ := List.getLast?_eq_some_iff.mp ha
    obtain ⟨y, hy⟩ := List.getLast?_eq_some_iff.mp hb
    have hwords := h.words
    rw [SameWords, hx, hy] at hwords
    have hfront : SameWords (String.ofList x) (String.ofList y) := by
      rw [SameWords, String.toList_ofList, String.toList_ofList]
      exact hwords.dropLast rfl
    rw [if_pos hb, hx, hy, List.dropLast_concat, List.dropLast_concat]
    exact ⟨hfront, h.left.dropLast hx, h.right.dropLast hy⟩
  · next ha => rwa [if_neg (fun hb => ha (hlast.mpr hb))]

end LaidOut

/-! ### Comparison -/

/-- Whether a text ends in a character after which a parenthesis opens a list. -/
def endsInWord (text : String) : Bool :=
  text.toList.getLast?.any fun c => !isBlank c && c != '(' && c != '['

theorem foldl_next_of_endsInWord {text : String} (h : endsInWord text = true) :
    text.toList.foldl Mood.next .fresh = .word := by
  obtain ⟨c, hlast, hc⟩ := (Option.any_eq_true _ _).mp h
  obtain ⟨front, hfront⟩ := List.getLast?_eq_some_iff.mp hlast
  simp only [Bool.and_eq_true, Bool.not_eq_true', bne_iff_ne, ne_eq] at hc
  obtain ⟨⟨hblank, hparen⟩, hsquare⟩ := hc
  rw [hfront, List.foldl_append, List.foldl_cons, List.foldl_nil]
  simp [Mood.next, hblank, hparen, hsquare]

/-- The marks that a name must not have for the layout to leave its words alone. -/
def layoutMarks : List Char :=
  [' ', '\n', '/', '(', '[']

theorem endsInWord_of_free {text : String} (hne : text ≠ "") (h : Free layoutMarks text) :
    endsInWord text = true := by
  have hlist : text.toList ≠ [] := by simpa using hne
  have hlast := h _ (List.getLast_mem hlist)
  rw [endsInWord, List.getLast?_eq_some_getLast hlist, Option.any_some]
  simp only [layoutMarks, List.mem_cons, List.not_mem_nil, or_false, not_or] at hlast
  simp [isBlank, hlast]

theorem uncommented_of_free {text : String} (h : Free layoutMarks text) : Uncommented text :=
  uncommented_of_not_mem fun hmem => h '/' hmem (by decide)

/-- The renderings of a graph under settings that differ in their widths. -/
def Comparison.layout (s t : Settings) (hgenerics : s.explicitGenerics = t.explicitGenerics)
    (qualified : Bool) : Comparison where
  left := { settings := s, qualified }
  right := { settings := t, qualified }
  qualified
  marks := layoutMarks
  Beside := LaidOut
  Head w := Uncommented w ∧ endsInWord w = true
  left_standard := registry_standard s qualified
  right_standard := registry_standard t qualified
  left_names := typeName_display s qualified
  right_names := typeName_display t qualified
  generics := hgenerics
  punctuation := by decide
  free h := .refl (uncommented_of_free h)
  fixed := by
    have hall : ∀ w ∈ vocabulary, Uncommented w := by decide +kernel
    exact fun w hw => .refl (hall w hw)
  literal hquote cs := .refl (uncommented_quoted hquote cs)
  head h := .refl h.1
  headed := by decide +kernel
  rank n := by
    have hslash : '/' ∉ (Ty.rankBrackets n).toList := by
      intro hmem
      simp only [Ty.rankBrackets, String.toList_append, String.toList_ofList, List.mem_append] at hmem
      rcases hmem with (hmem | hmem) | hmem
      · revert hmem
        decide
      · cases List.eq_of_mem_replicate hmem
      · revert hmem
        decide
    refine ⟨uncommented_of_not_mem hslash, ?_⟩
    rw [endsInWord, Ty.rankBrackets, String.toList_append, List.getLast?_append]
    rfl
  append_head := by
    rintro a w ha ⟨hw, hends⟩
    refine ⟨ha.left.append hw, ?_⟩
    obtain ⟨c, hlast, hc⟩ := (Option.any_eq_true _ _).mp hends
    rw [endsInWord, String.toList_append, List.getLast?_append, hlast]
    exact hc
  append h h' := h.append h'
  parens h := (LaidOut.append (.refl (by decide)) h).append (.refl (by decide))
  braces h := h.braces _ _
  newline := .newline _ _
  arguments := by
    rintro w xs ys ⟨hw, hends⟩ h
    refine LaidOut.argumentList h s t hw ?_ (by decide) (by decide)
    rw [String.toList_append, List.foldl_append, foldl_next_of_endsInWord hends]
    rfl
  indices := by
    intro xs ys h
    have hlist : LaidOut ("" ++ s.argumentList "[" "]" xs) ("" ++ t.argumentList "[" "]" ys) :=
      LaidOut.argumentList h s t (by decide) rfl (by decide) (by decide)
    simpa only [String.empty_append] using hlist
  array hw h := .arrayText h s t hw.left
  isEmpty h := h.isEmpty
  isGroup h := h.words.isGroup
  isTerminated h := h.isTerminated
  withoutParens h := h.withoutParens
  unterminated h := h.unterminated
  gap := .inr ⟨⟨by decide, by decide, by decide⟩, ⟨by decide, by decide, by decide⟩⟩
  checked hexact a b h := by
    have hbreaks : LaidOut "\n" "\n\n" := ⟨by decide, by decide, by decide⟩
    exact absurd (hexact _ _ hbreaks) (by decide)

/-! ### Renderings -/

/-- Whether a node of this kind checks for overflow. -/
def Kind.isChecked : Kind → Bool
  | .binary op => op.isChecked
  | .unary op => op.isChecked
  | _ => false

theorem chainHasChecked_of_kinds {e : Expr} (h : ∀ x ∈ e.nodes, x.kind.isChecked = false) :
    chainHasChecked e = false := by
  fun_induction chainHasChecked e with
  | case1 id op left right ty ihl ihr =>
    rw [Expr.nodes, List.forall_mem_cons, List.forall_mem_append] at h
    obtain ⟨hop, hleft, hright⟩ := h
    have hop : op.isChecked = false := hop
    simp [hop, ihl hleft, ihr hright]
  | case2 id op operand ty ih =>
    rw [Expr.nodes, List.forall_mem_cons] at h
    obtain ⟨hop, hoperand⟩ := h
    have hop : op.isChecked = false := hop
    simp [hop, ih hoperand]
  | case3 => rfl

/-- Settings that agree on the options for names change nothing but blanks and line breaks: under both a
    graph is refused for the same reason, or its texts are equal once these are deleted. The graph must
    have no overflow checks and no lambda with a statement other than a block or a loop as its body: these
    are laid out by the number of their lines. -/
theorem layout_changes_blanks_only (root : Expr) (hext : ∀ e ∈ root.nodes, e.kind ≠ .extension)
    (hchecked : ∀ e ∈ root.nodes, e.kind.isChecked = false)
    (hlambda : ∀ e ∈ root.nodes, e.kind = .lambda → ∀ body ∈ e.children,
      body.ty.isVoid = false ∨ body.kind = .block ∨ body.kind = .loop ∨ body.isEmpty = true)
    (hspelled : ∀ e ∈ root.nodes, ∀ w ∈ e.spellings, w ≠ "" ∧ Free layoutMarks w) (s t : Settings)
    (hgenerics : s.explicitGenerics = t.explicitGenerics) (qualified : Bool) :
    (∃ fault, root.render { settings := s, qualified } = .error fault ∧
      root.render { settings := t, qualified } = .error fault) ∨
    ∃ a b, root.render { settings := s, qualified } = .ok a ∧
      root.render { settings := t, qualified } = .ok b ∧ dense a = dense b := by
  have hsuits : (Comparison.layout s t hgenerics qualified).Suits root := by
    refine ⟨hext, fun e he w hw => ?_, .inr fun e he => ?_⟩
    · obtain ⟨hne, hfree⟩ := hspelled e he w hw
      exact ⟨hfree, uncommented_of_free hfree, endsInWord_of_free hne hfree⟩
    · have hchain : chainHasChecked e = false :=
        chainHasChecked_of_kinds fun x hx => hchecked x (Expr.nodes_trans root he hx)
      cases e with
      | lambda id params body ty =>
        rcases hlambda _ he rfl body List.mem_cons_self with h | h | h | h
        · exact .inr (.inr (.inr h))
        · exact .inl h
        · exact .inr (.inl h)
        · exact .inr (.inr (.inl h))
      | _ => exact hchain
  have hends : Comparison.Ends LaidOut (root.render { settings := s, qualified })
      (root.render { settings := t, qualified }) := (Parallel.textOf hsuits).2
  cases hs : root.render { settings := s, qualified } with
  | error fault =>
    cases ht : root.render { settings := t, qualified } with
    | error fault' =>
      rw [hs, ht] at hends
      cases hends
      exact .inl ⟨fault, rfl, rfl⟩
    | ok b =>
      rw [hs, ht] at hends
      exact hends.elim
  | ok a =>
    cases ht : root.render { settings := t, qualified } with
    | error fault =>
      rw [hs, ht] at hends
      exact hends.elim
    | ok b =>
      rw [hs, ht] at hends
      exact .inr ⟨a, b, rfl, rfl, hends.words.dense⟩

section Widths

private def first : Variable := ⟨0, some "first", .string⟩

private def second : Variable := ⟨1, some "second", .string⟩

private def joined : Method :=
  (((Method.new .onInstance .string "Join").returns .string).param "other" .string).param "rest"
    (.array .string 1)

/-- A call with an array among its arguments. -/
private def joining : Expr :=
  .lambda 0 [first, second]
    (.call 1 (some (.variable 2 first)) joined
      [.variable 3 second, .newArray 4 .string [.variable 5 first, .constant 6 (.string "// a") .string]])
    (.delegate [.string, .string] .string)

private def narrow : Settings := { lineWidth := 4, indentWidth := 2 }

/-- On narrow lines the arguments and the items of the array stand on lines of their own. -/
theorem layout_changes_blanks_only_narrow :
    (∀ e ∈ joining.nodes, e.kind ≠ .extension) ∧ (∀ e ∈ joining.nodes, e.kind.isChecked = false) ∧
    (∀ e ∈ joining.nodes, e.kind = .lambda → ∀ body ∈ e.children,
      body.ty.isVoid = false ∨ body.kind = .block ∨ body.kind = .loop ∨ body.isEmpty = true) ∧
    (∀ e ∈ joining.nodes, ∀ w ∈ e.spellings, w ≠ "" ∧ Free layoutMarks w) ∧
    ∃ a b, joining.render {} = .ok a ∧ joining.render { settings := narrow } = .ok b ∧ a ≠ b ∧
      dense a = dense b := by
  have hext : ∀ e ∈ joining.nodes, e.kind ≠ .extension := by decide +kernel
  have hchecked : ∀ e ∈ joining.nodes, e.kind.isChecked = false := by decide +kernel
  have hlambda : ∀ e ∈ joining.nodes, e.kind = .lambda → ∀ body ∈ e.children,
      body.ty.isVoid = false ∨ body.kind = .block ∨ body.kind = .loop ∨ body.isEmpty = true := by
    decide +kernel
  have hspelled : ∀ e ∈ joining.nodes, ∀ w ∈ e.spellings, w ≠ "" ∧ Free layoutMarks w := by
    decide +kernel
  have hok : (joining.render {}).toOption.isSome = true := by decide +kernel
  have hdiffer : (joining.render {}).toOption ≠ (joining.render { settings := narrow }).toOption := by
    decide +kernel
  refine ⟨hext, hchecked, hlambda, hspelled, ?_⟩
  rcases layout_changes_blanks_only joining hext hchecked hlambda hspelled {} narrow rfl false with
    ⟨fault, hfault, -⟩ | ⟨a, b, ha, hb, hdense⟩
  · rw [hfault] at hok
    cases hok
  · refine ⟨a, b, ha, hb, ?_, hdense⟩
    rintro rfl
    rw [ha, hb] at hdiffer
    exact hdiffer rfl

end Widths

end ExprText
