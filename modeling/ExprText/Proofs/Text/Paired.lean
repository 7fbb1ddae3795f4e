import ExprText.Proofs.Group
import ExprText.Proofs.Text.Scan
import Mathlib.Data.List.Infix

/-! # Paired parentheses

What a group is, said without a scan: a text in parentheses around a text whose own parentheses are paired.
Only the characters outside of literals count. Of these no front closes more parentheses than it opens, and
the whole closes as many as it opens. So putting a paired text in parentheses makes a group of it, and taking
them off again gives the text back, cut at characters that take one byte each. -/

namespace ExprText.Text

/-! ### Outside of literals -/

/-- The characters outside of literals, read from inside of the literal with the given quote or from outside
    of all; none if a literal is left open. A literal ends at the next quote like its first that is not escaped
    by a backslash. -/
def unquoted? : Option Char → List Char → Option (List Char)
  | none, [] => some []
  | none, c :: cs =>
    if c = '"' ∨ c = '\x27' then unquoted? (some c) cs else (unquoted? none cs).map (c :: ·)
  | some _, [] => none
  | some _, ['\\'] => none
  | some quote, '\\' :: _ :: cs => unquoted? (some quote) cs
  | some quote, c :: cs => if c = quote then unquoted? none cs else unquoted? (some quote) cs

/-- Whether characters close what they and so many parentheses before them open: no front closes more than
    are open, and the whole leaves none open. -/
def Closes (depth : Nat) (cs : List Char) : Prop :=
  (∀ front, front <+: cs → front.count ')' ≤ depth + front.count '(') ∧
    depth + cs.count '(' = cs.count ')'

instance (depth : Nat) (cs : List Char) : Decidable (Closes depth cs) :=
  decidable_of_iff ((∀ front ∈ cs.inits, front.count ')' ≤ depth + front.count '(') ∧
    depth + cs.count '(' = cs.count ')') (by simp only [Closes, List.mem_inits])

/-- Whether all literals of a text are closed and the parentheses outside of them are paired. -/
def Paired (text : String) : Prop :=
  ∃ plain, unquoted? none text.toList = some plain ∧ Closes 0 plain

instance (text : String) : Decidable (Paired text) :=
  decidable_of_iff (∃ plain ∈ unquoted? none text.toList, Closes 0 plain) Iff.rfl

/-! ### Closing what is open -/

section Closes
variable {depth later : Nat} {c : Char} {cs : List Char}

theorem closes_nil : Closes depth [] ↔ depth = 0 := by
  simp [Closes]

theorem count_cons_eq (d : Char) : (c :: cs).count d = [c].count d + cs.count d := by
  rw [← List.count_append, List.singleton_append]

/-- The first character changes how many are open before the others. -/
theorem closes_cons (h : depth + [c].count '(' = later + [c].count ')') :
    Closes depth (c :: cs) ↔ Closes later cs := by
  have hall : depth + (c :: cs).count '(' = (c :: cs).count ')' ↔ later + cs.count '(' = cs.count ')' := by
    rw [count_cons_eq '(', count_cons_eq ')']
    omega
  have hfront : ∀ front : List Char, (c :: front).count ')' ≤ depth + (c :: front).count '(' ↔
      front.count ')' ≤ later + front.count '(' := by
    intro front
    rw [count_cons_eq '(', count_cons_eq ')']
    omega
  rw [Closes, Closes, hall]
  refine and_congr_left fun _ => ⟨fun hclosed front hbefore => ?_, fun hclosed front hbefore => ?_⟩
  · exact (hfront front).mp (hclosed (c :: front) (List.cons_prefix_cons.mpr ⟨rfl, hbefore⟩))
  · cases front with
    | nil => simp
    | cons d front =>
      obtain ⟨rfl, hshorter⟩ := List.cons_prefix_cons.mp hbefore
      exact (hfront front).mpr (hclosed front hshorter)

theorem not_closes_close : ¬Closes 0 (')' :: cs) := by
  rintro ⟨hfront, -⟩
  have := hfront [')'] ⟨cs, rfl⟩
  simp at this

end Closes

/-! ### Scans up to the last parenthesis -/

/-- In a literal a scan passes a backslash and what stands after it. -/
theorem closesAtEnd_escaped (depth : Nat) (quote d : Char) (rest : List Char) :
    (Scan.mk depth (some quote) false).closesAtEnd ('\\' :: d :: rest) =
      (Scan.mk depth (some quote) false).closesAtEnd rest := by
  rw [Scan.closesAtEnd_quoted rfl, Scan.closesAtEnd_quoted rfl, step_escape]

theorem ne_backslash {c : Char} {cs : List Char} (hlast : c = '\\' → cs = [] → False)
    (hescape : ∀ d ds, c = '\\' → cs = d :: ds → False) : c ≠ '\\' := by
  intro hc
  cases cs with
  | nil => exact hlast hc rfl
  | cons d ds => exact hescape d ds hc rfl

/-- A scan inside of one parenthesis finds it closed by the last character exactly if what stands before that
    closes all that is open inside. -/
theorem closesAtEnd_concat_iff (quote : Option Char) (cs : List Char) (depth : Nat) :
    (Scan.mk (depth + 1) quote false).closesAtEnd (cs ++ [')']) = true ↔
      ∃ plain, unquoted? quote cs = some plain ∧ Closes depth plain := by
  fun_induction unquoted? quote cs generalizing depth with
  | case1 =>
    have hlast : (Scan.mk (depth + 1) none false).closesAtEnd [')'] = true ↔ depth = 0 := by
      simp [Scan.closesAtEnd, Scan.step]
    simpa [closes_nil] using hlast
  | case2 c cs hc ih =>
    have hne : c ≠ ')' := by rcases hc with rfl | rfl <;> decide
    have hstep : (Scan.mk (depth + 1) none false).step c = ⟨depth + 1, some c, false⟩ := by
      simp [Scan.step, hc]
    rw [List.cons_append, Scan.closesAtEnd_cons_of_ne fun _ h => absurd h hne, hstep, ih]
  | case3 c cs hc ih =>
    have hplain : (∃ plain, (unquoted? none cs).map (c :: ·) = some plain ∧ Closes depth plain) ↔
        ∃ plain, unquoted? none cs = some plain ∧ Closes depth (c :: plain) := by
      constructor
      · rintro ⟨_, hmap, hcloses⟩
        obtain ⟨plain, hplain, rfl⟩ := Option.map_eq_some_iff.mp hmap
        exact ⟨plain, hplain, hcloses⟩
      · rintro ⟨plain, hplain, hcloses⟩
        exact ⟨c :: plain, by rw [hplain, Option.map_some], hcloses⟩
    rw [hplain, List.cons_append]
    by_cases hopen : c = '('
    · subst hopen
      have hstep : (Scan.mk (depth + 1) none false).step '(' = ⟨depth + 1 + 1, none, false⟩ := rfl
      rw [Scan.closesAtEnd_cons_of_ne fun _ h => absurd h (by decide), hstep, ih]
      have hcount : depth + ['('].count '(' = depth + 1 + ['('].count ')' := rfl
      simp only [closes_cons hcount]
    · by_cases hclose : c = ')'
      · subst hclose
        cases depth with
        | zero =>
          have hnot : ¬(Scan.mk (0 + 1) none false).closesAtEnd (')' :: (cs ++ [')'])) = true := by
            simp [Scan.closesAtEnd, Scan.step]
          refine iff_of_false hnot ?_
          rintro ⟨_, -, hcloses⟩
          exact not_closes_close hcloses
        | succ depth =>
          have hstep : (Scan.mk (depth + 1 + 1) none false).step ')' = ⟨depth + 1, none, false⟩ := rfl
          rw [Scan.closesAtEnd_cons_of_ne fun _ _ => by rw [hstep]; exact Nat.succ_ne_zero depth, hstep, ih]
          have hcount : depth + 1 + [')'].count '(' = depth + [')'].count ')' := rfl
          simp only [closes_cons hcount]
      · have hstep : (Scan.mk (depth + 1) none false).step c = ⟨depth + 1, none, false⟩ := by
          simp [Scan.step, hc, hopen, hclose]
        have hcount : depth + [c].count '(' = depth + [c].count ')' := by
          rw [List.count_singleton, List.count_singleton, if_neg (by simpa using hopen),
            if_neg (by simpa using hclose)]
        rw [Scan.closesAtEnd_cons_of_ne fun _ h => absurd h hclose, hstep, ih]
        simp only [closes_cons hcount]
  | case4 quote =>
    simp [Scan.closesAtEnd]
  | case5 quote =>
    simp [closesAtEnd_escaped, Scan.closesAtEnd]
  | case6 quote escaped cs ih =>
    rw [List.cons_append, List.cons_append, closesAtEnd_escaped, ih]
  | case7 c cs hlast hescape ih =>
    have hstep : (Scan.mk (depth + 1) (some c) false).step c = ⟨depth + 1, none, false⟩ := by
      simp [Scan.step, ne_backslash hlast hescape]
    rw [List.cons_append, Scan.closesAtEnd_quoted rfl, hstep, ih]
  | case8 quote c cs hlast hescape hc ih =>
    rw [List.cons_append, Scan.closesAtEnd_quoted rfl, step_inner (ne_backslash hlast hescape) hc, ih]

/-! ### Groups -/

/-- A group is a paired text in parentheses. -/
theorem isGroup_iff_exists_paired {text : String} :
    isGroup text = true ↔ ∃ inner, text = "(" ++ inner ++ ")" ∧ Paired inner := by
  have hlist : ∀ inner : String, ("(" ++ inner ++ ")").toList = '(' :: (inner.toList ++ [')']) := by
    simp [String.toList_append]
  have hscan : ∀ cs : List Char, ({} : Scan).closesAtEnd ('(' :: (cs ++ [')'])) = true ↔
      ∃ plain, unquoted? none cs = some plain ∧ Closes 0 plain := by
    intro cs
    rw [Scan.closesAtEnd_cons_of_ne fun _ h => absurd h (by decide)]
    exact closesAtEnd_concat_iff none cs 0
  constructor
  · intro hgroup
    obtain ⟨cs, hcs⟩ := eq_cons_of_isGroup hgroup
    refine ⟨String.ofList cs, ?_, ?_⟩
    · rw [← String.toList_inj, hcs, hlist, String.toList_ofList]
    · simp only [isGroup, Bool.and_eq_true, hcs, hscan] at hgroup
      rw [Paired, String.toList_ofList]
      exact hgroup.2
  · rintro ⟨inner, rfl, hpaired⟩
    have hlast : ('(' :: (inner.toList ++ [')'])).getLast? = some ')' := by
      rw [← List.cons_append, List.getLast?_concat]
    simp only [isGroup, Bool.and_eq_true, hlist, hscan, hlast, List.head?_cons, beq_self_eq_true, true_and]
    exact hpaired

/-- One byte from either end of a text in parentheses a character ends, and what lies between are the bytes of
    the text. -/
theorem parens_bytes (inner : String) :
    (⟨1⟩ : String.Pos.Raw).IsValid ("(" ++ inner ++ ")") ∧
      (⟨("(" ++ inner ++ ")").utf8ByteSize - 1⟩ : String.Pos.Raw).IsValid ("(" ++ inner ++ ")") ∧
      ("(" ++ inner ++ ")").toByteArray.extract 1 (("(" ++ inner ++ ")").utf8ByteSize - 1) =
        inner.toByteArray := by
  have hopen : "(".utf8ByteSize = 1 := rfl
  have hclose : ")".utf8ByteSize = 1 := rfl
  have hsize : ("(" ++ inner ++ ")").utf8ByteSize - 1 = ("(" ++ inner).utf8ByteSize := by
    rw [String.utf8ByteSize_append, hclose, Nat.add_sub_cancel]
  rw [hsize]
  refine ⟨?_, ?_, ?_⟩
  · exact String.Pos.Raw.isValid_iff_exists_append.mpr ⟨"(", inner ++ ")", String.append_assoc, rfl⟩
  · exact String.Pos.Raw.isValid_iff_exists_append.mpr ⟨"(" ++ inner, ")", rfl, rfl⟩
  · rw [String.toByteArray_append, ← String.size_toByteArray, ByteArray.extract_append_size_left,
      String.toByteArray_append]
    exact ByteArray.extract_append_eq_right rfl ByteArray.size_append

/-- A text is a group exactly if it is a paired text in parentheses. A paired text is a group once it was put
    in parentheses, which are put around it once and give it back when they are taken off. Taking them off
    cuts a text where a character ends. -/
theorem group_iff_paired_in_parens (text : String) :
    (isGroup text = true ↔ ∃ inner, text = "(" ++ inner ++ ")" ∧ Paired inner) ∧
    (Paired text → isGroup (withParens text) = true ∧ withParens (withParens text) = withParens text ∧
      (isGroup text = false → withoutParens (withParens text) = text)) ∧
    (isGroup text = true → (⟨1⟩ : String.Pos.Raw).IsValid text ∧
      (⟨text.utf8ByteSize - 1⟩ : String.Pos.Raw).IsValid text ∧
      (withoutParens text).toByteArray = text.toByteArray.extract 1 (text.utf8ByteSize - 1)) ∧
    (isGroup text = false → withoutParens text = text) := by
  have hinner : ∀ inner : String, isGroup ("(" ++ inner ++ ")") = true →
      withoutParens ("(" ++ inner ++ ")") = inner := by
    intro inner hgroup
    rw [withoutParens, if_pos hgroup]
    simp [String.toList_append]
  refine ⟨isGroup_iff_exists_paired, fun hpaired => ?_, fun hgroup => ?_, fun hplain => ?_⟩
  · have hparens : isGroup ("(" ++ text ++ ")") = true := isGroup_iff_exists_paired.mpr ⟨text, rfl, hpaired⟩
    have hgroup : isGroup (withParens text) = true := by
      unfold withParens
      split
      · assumption
      · exact hparens
    refine ⟨hgroup, by rw [withParens, if_pos hgroup], fun hplain => ?_⟩
    rw [withParens, if_neg (by simp [hplain]), hinner text hparens]
  · obtain ⟨inner, rfl, -⟩ := isGroup_iff_exists_paired.mp hgroup
    rw [hinner inner hgroup]
    obtain ⟨hfirst, hlast, hbytes⟩ := parens_bytes inner
    exact ⟨hfirst, hlast, hbytes.symm⟩
  · rw [withoutParens, if_neg (by simp [hplain])]

section Product

/-- Two sums in parentheses, with parentheses, quotes and a backslash in their literals. -/
private def product : String :=
  "(é + ')') * (\"\\\\\\\"(\" + b)"

theorem group_iff_paired_in_parens_product :
    Paired product ∧ isGroup product = false ∧ isGroup (withParens product) = true ∧
      withParens (withParens product) = withParens product ∧ withoutParens (withParens product) = product ∧
      withoutParens product = product ∧
      product.toByteArray =
        (withParens product).toByteArray.extract 1 ((withParens product).utf8ByteSize - 1) := by
  have hpaired : Paired product := by decide +kernel
  have hplain : isGroup product = false := by decide +kernel
  obtain ⟨-, hparens, -, hkept⟩ := group_iff_paired_in_parens product
  obtain ⟨hgroup, hagain, hback⟩ := hparens hpaired
  obtain ⟨-, -, hcut, -⟩ := group_iff_paired_in_parens (withParens product)
  obtain ⟨-, -, hbytes⟩ := hcut hgroup
  rw [hback hplain] at hbytes
  exact ⟨hpaired, hplain, hgroup, hagain, hback hplain, hkept hplain, hbytes⟩

end Product

end ExprText.Text
