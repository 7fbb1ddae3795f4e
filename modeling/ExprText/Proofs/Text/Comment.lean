import ExprText.Proofs.Text.Lines
import ExprText.Proofs.Text.Scan
import ExprText.Text.Statement

/-! # Text without comments

Rendered text has no comment lines, but this does not follow from its words alone: what is no comment at
the end of a line may be one at the start. In code a slash is an operator, with a blank before it; in
literals there can be any. A text in which slashes stand nowhere else has no comments, whatever its lines
are joined with. -/

namespace ExprText.Text

inductive Zone where
  /-- After a character of code. -/
  | code
  /-- After a blank, or at the start of a line. -/
  | gap
  /-- After a quote in the line. -/
  | literal
deriving DecidableEq, Repr

namespace Zone

def next (z : Zone) (c : Char) : Zone :=
  if c = '\n' then .gap
  else if z = .literal ∨ c = '"' ∨ c = '\x27' then .literal
  else if c = ' ' then .gap
  else .code

/-- Whether what may stand in one zone may stand in another. -/
def Within (z k : Zone) : Prop :=
  z = .code ∨ k = .literal ∨ z = k

theorem Within.next {z k : Zone} (h : z.Within k) (c : Char) : (z.next c).Within (k.next c) := by
  unfold Zone.next
  by_cases hbreak : c = '\n'
  · simp [hbreak, Within]
  · rcases h with rfl | rfl | rfl
    · by_cases hquote : c = '"' ∨ c = '\x27'
      · simp [hbreak, hquote, Within]
      · by_cases hblank : c = ' '
        · cases k <;> simp [hblank, Within]
        · simp [hbreak, hquote, hblank, Within]
    · simp [hbreak, Within]
    · exact .inr (.inr rfl)

end Zone

/-- Whether slashes stand only where a comment cannot start. -/
def slashesApart (z : Zone) : List Char → Bool
  | [] => true
  | c :: cs => (c != '/' || z != .code) && slashesApart (z.next c) cs

/-- Whether a text makes no comments, wherever it is put. -/
def Uncommented (text : String) : Prop :=
  slashesApart .code text.toList = true

instance (text : String) : Decidable (Uncommented text) :=
  inferInstanceAs (Decidable (slashesApart .code text.toList = true))

theorem slashesApart_cons {z : Zone} {c : Char} {cs : List Char} : slashesApart z (c :: cs) = true ↔
    (c ≠ '/' ∨ z ≠ .code) ∧ slashesApart (z.next c) cs = true := by
  simp [slashesApart]

theorem slashesApart_append {cs ds : List Char} : ∀ {z : Zone}, slashesApart z (cs ++ ds) = true ↔
    slashesApart z cs = true ∧ slashesApart (cs.foldl Zone.next z) ds = true := by
  induction cs with
  | nil => simp [slashesApart]
  | cons c cs ih =>
    intro z
    rw [List.cons_append, slashesApart_cons, slashesApart_cons, ih, List.foldl_cons, and_assoc]

theorem slashesApart_within {z k : Zone} (h : z.Within k) : ∀ {cs : List Char},
    slashesApart z cs = true → slashesApart k cs = true
  | [], _ => rfl
  | c :: cs, hcs => by
    obtain ⟨hc, hcs⟩ := slashesApart_cons.mp hcs
    refine slashesApart_cons.mpr ⟨?_, slashesApart_within (h.next c) hcs⟩
    rcases hc with hc | hz
    · exact .inl hc
    · rcases h with rfl | rfl | rfl
      · exact absurd rfl hz
      · exact .inr (by decide)
      · exact .inr hz

theorem Uncommented.within {text : String} (h : Uncommented text) (z : Zone) :
    slashesApart z text.toList = true :=
  slashesApart_within (.inl rfl) h

theorem Uncommented.append {a b : String} (ha : Uncommented a) (hb : Uncommented b) : Uncommented (a ++ b) := by
  rw [Uncommented, String.toList_append]
  exact slashesApart_append.mpr ⟨ha, hb.within _⟩

theorem Uncommented.join {sep : String} (hsep : Uncommented sep) : ∀ {texts : List String},
    (∀ t ∈ texts, Uncommented t) → Uncommented (join sep texts)
  | [], _ => rfl
  | [t], h => h t List.mem_cons_self
  | t :: u :: rest, h => by
    obtain ⟨ht, hrest⟩ := List.forall_mem_cons.mp h
    exact (ht.append hsep).append (Uncommented.join hsep hrest)

theorem uncommented_of_not_mem {text : String} (h : '/' ∉ text.toList) : Uncommented text := by
  have hall : ∀ (cs : List Char) (z : Zone), '/' ∉ cs → slashesApart z cs = true := by
    intro cs
    induction cs with
    | nil => exact fun _ _ => rfl
    | cons c cs ih =>
      intro z hcs
      obtain ⟨hc, hcs⟩ := List.ne_and_not_mem_of_not_mem_cons hcs
      exact slashesApart_cons.mpr ⟨.inl hc.symm, ih _ hcs⟩
  exact hall _ _ h

theorem uncommented_quoted {quote : Char} (hquote : quote = '"' ∨ quote = '\x27') (cs : List Char) :
    Uncommented (quoted quote cs) := by
  have hliteral : ∀ ds : List Char, '\n' ∉ ds → slashesApart .literal ds = true := by
    intro ds
    induction ds with
    | nil => exact fun _ => rfl
    | cons d ds ih =>
      intro hds
      obtain ⟨hd, hds⟩ := List.ne_and_not_mem_of_not_mem_cons hds
      have hnext : Zone.literal.next d = .literal := by simp [Zone.next, hd.symm]
      exact slashesApart_cons.mpr ⟨.inr (by decide), by rw [hnext, ih hds]⟩
  have hopen : Zone.code.next quote = .literal := by rcases hquote with rfl | rfl <;> rfl
  have hslash : quote ≠ '/' := by rcases hquote with rfl | rfl <;> decide
  have hbreak : quote ≠ '\n' := by rcases hquote with rfl | rfl <;> decide
  rw [Uncommented, quoted, String.toList_ofList]
  refine slashesApart_cons.mpr ⟨.inl hslash, ?_⟩
  rw [hopen]
  refine hliteral _ fun h => ?_
  rcases List.mem_append.mp h with h | h
  · exact newline_not_mem_escape hquote cs h
  · exact hbreak (List.mem_singleton.mp h).symm

/-- Blanks before the lines of a text leave the slashes where they were. -/
theorem Uncommented.indented {text : String} (h : Uncommented text) (n : Nat) :
    slashesApart .gap (indented (blanks n) text).toList = true := by
  have hread := read_indented slashesApart Zone.next (fun z c cs ds h => by rw [slashesApart, slashesApart, h])
    (fun z cs => by simp [slashesApart, Zone.next]) n text (s := .gap) (fun cs => rfl)
  rw [hread]
  exact h.within .gap

theorem Uncommented.around {opening closing text : String} (hopen : Uncommented opening)
    (hgap : opening.toList.foldl Zone.next .code = .gap) (h : slashesApart .gap text.toList = true)
    (hclose : Uncommented closing) : Uncommented (opening ++ text ++ closing) := by
  have hinner : Uncommented (opening ++ text) := by
    rw [Uncommented, String.toList_append]
    refine slashesApart_append.mpr ⟨hopen, ?_⟩
    rw [hgap]
    exact h
  exact hinner.append hclose

/-! ### Texts taken apart -/

theorem Uncommented.withoutParens {text : String} {inner : List Char} (h : Uncommented text)
    (htext : text.toList = '(' :: (inner ++ [')'])) : Uncommented (String.ofList inner) := by
  rw [Uncommented, htext] at h
  rw [Uncommented, String.toList_ofList]
  exact (slashesApart_append.mp (slashesApart_cons.mp h).2).1

theorem Uncommented.dropLast {text : String} {front : List Char} {c : Char} (h : Uncommented text)
    (htext : text.toList = front ++ [c]) : Uncommented (String.ofList front) := by
  rw [Uncommented, htext] at h
  rw [Uncommented, String.toList_ofList]
  exact (slashesApart_append.mp h).1

/-! ### Comment lines -/

theorem splitLines_head {cs line : List Char} {c : Char} {lines : List (List Char)}
    (h : splitLines cs = (c :: line) :: lines) : ∃ rest, cs = c :: rest := by
  cases cs with
  | nil => cases h
  | cons d cs =>
    rw [splitLines] at h
    split at h
    · cases h
    · split at h <;> cases h <;> exact ⟨_, rfl⟩

theorem isComment_cons {c : Char} {cs : List Char} (h : isComment (String.ofList (c :: cs)) = true) :
    (isWhiteSpace c = true ∧ isComment (String.ofList cs) = true) ∨ (c = '/' ∧ ∃ rest, cs = '/' :: rest) := by
  rw [isComment, trimStart, String.toList_ofList, List.dropWhile_cons] at h
  split at h
  · next hc =>
    refine .inl ⟨hc, ?_⟩
    rw [isComment, trimStart, String.toList_ofList]
    exact h
  · obtain ⟨rest, hrest⟩ := List.isPrefixOf_iff_prefix.mp h
    cases hrest
    exact .inr ⟨rfl, _, rfl⟩

/-- A text that begins with neither white space nor a slash is no comment. -/
theorem not_isComment_of_head {text : String} {c : Char} (hhead : text.toList.head? = some c)
    (hc : isWhiteSpace c = false ∧ c ≠ '/') : isComment text = false := by
  obtain ⟨cs, hcs⟩ := List.head?_eq_some_iff.mp hhead
  rw [Bool.eq_false_iff, ← String.ofList_toList (s := text), hcs]
  intro hcomment
  rcases isComment_cons hcomment with ⟨hspace, -⟩ | ⟨hslash, -⟩
  · rw [hc.1] at hspace
    cases hspace
  · exact hc.2 hslash

/-- No line is a comment, unless a literal of the line before it reaches into the first. -/
theorem not_isComment_of_slashesApart : ∀ {cs : List Char} {z : Zone} {first : List Char}
    {rest : List (List Char)}, slashesApart z cs = true → splitLines cs = first :: rest →
    (z ≠ .literal → isComment (String.ofList first) = false) ∧
      ∀ line ∈ rest, isComment (String.ofList line) = false
  | [], _, _, _, _, hlines => by
    cases hlines
    exact ⟨fun _ => rfl, fun line hline => by cases hline⟩
  | c :: cs, z, first, rest, h, hlines => by
    obtain ⟨hc, h⟩ := slashesApart_cons.mp h
    obtain ⟨line, lines, hcs⟩ := List.exists_cons_of_ne_nil (splitLines_ne_nil cs)
    obtain ⟨hfirst, hrest⟩ := not_isComment_of_slashesApart h hcs
    rw [splitLines, hcs] at hlines
    split at hlines
    · next hbreak =>
      cases hlines
      subst hbreak
      refine ⟨fun _ => rfl, List.forall_mem_cons.mpr ⟨hfirst ?_, hrest⟩⟩
      simp [Zone.next]
    · next hbreak =>
      cases hlines
      refine ⟨fun hz => Bool.eq_false_iff.mpr fun hcomment => ?_, hrest⟩
      rcases isComment_cons hcomment with ⟨hspace, hline⟩ | ⟨rfl, tail, rfl⟩
      · have hquote : ¬(z = .literal ∨ c = '"' ∨ c = '\x27') := by
          rintro (hz' | rfl | rfl)
          · exact hz hz'
          · cases hspace
          · cases hspace
        have hnext : z.next c ≠ .literal := by
          rw [Zone.next, if_neg hbreak, if_neg hquote]
          split <;> decide
        rw [hfirst hnext] at hline
        cases hline
      · obtain ⟨more, rfl⟩ := splitLines_head hcs
        have hnext : z.next '/' = .code := by simp [Zone.next, hz]
        rw [hnext] at h
        cases h

theorem Uncommented.lines {text : String} (h : Uncommented text) : ∀ line ∈ lines text, isComment line = false := by
  obtain ⟨first, rest, hlines⟩ := List.exists_cons_of_ne_nil (splitLines_ne_nil text.toList)
  obtain ⟨hfirst, hrest⟩ := not_isComment_of_slashesApart h hlines
  intro line hline
  rw [Text.lines, hlines] at hline
  obtain ⟨cs, hcs, rfl⟩ := List.mem_map.mp hline
  rcases List.mem_cons.mp hcs with rfl | hcs
  · exact hfirst (by decide)
  · exact hrest cs hcs

/-- Whether a text without comments ends as a statement does is decided by its last character. -/
theorem Uncommented.isTerminated {text : String} (h : Uncommented text) :
    isTerminated text = text.toList.getLast?.any terminators.contains := by
  have hline : (Text.lines text).getLast?.any isComment = false := by
    cases hlast : (Text.lines text).getLast? with
    | none => rfl
    | some line => exact h.lines line (List.mem_of_getLast? hlast)
  rw [Text.isTerminated, hline, Bool.or_false]

end ExprText.Text
