import ExprText.Proofs.Composed.Expressed
import ExprText.Proofs.Layout
import ExprText.Proofs.Text.Ending

/-! # Ends of rendered texts

Where the names of a tree are identifiers, all texts of its nodes are concluded. So the last character of a
statement decides whether its block ends it by a semicolon, and a statement stands on lines of its own in the
text of its block. -/

namespace ExprText

open Text Render RenderM Session

/-! ### Layouts -/

/-- What no identifier has. -/
def wordMarks : List Char :=
  '/' :: ':' :: ',' :: phraseMarks

/-- Whether a text can be an identifier. -/
def IsIdentifier (w : String) : Prop :=
  w ≠ "" ∧ Free wordMarks w

instance (w : String) : Decidable (IsIdentifier w) :=
  inferInstanceAs (Decidable (w ≠ "" ∧ Free wordMarks w))

theorem IsIdentifier.isName {w : String} (h : IsIdentifier w) : IsName w :=
  ⟨h.1, h.2.mono (by decide)⟩

theorem concluded_of_wordMarks {w : String} (h : Free wordMarks w) : Concluded w :=
  .of_free (h.mono (by decide))

section Layouts
variable {settings : Settings} {texts : List String} (h : ∀ t ∈ texts, Concluded t)
include h

theorem ended_lines : Ended (join ",\n" (texts.map (indented settings.indent))) := by
  refine Ended.join (by decide) fun t ht => ?_
  obtain ⟨u, hu, rfl⟩ := List.mem_map.mp ht
  exact (h u hu).ended.indented _

theorem concluded_argumentList {opening closing : String} (hopen : Concluded opening)
    (hclose : Concluded closing) : Concluded (settings.argumentList opening closing texts) := by
  refine ⟨uncommented_argumentList (fun t ht => (h t ht).uncommented) settings hopen.uncommented
    hclose.uncommented, ?_⟩
  have hone : Ended (join ", " texts) := Ended.join (by decide) fun t ht => (h t ht).ended
  have hbreak : Ended "\n" := by decide
  unfold Settings.argumentList
  dsimp only
  split
  · exact (hopen.ended.append hone).append hclose.ended
  · exact ((hopen.ended.append hbreak).append (ended_lines h)).append hclose.ended

theorem concluded_arrayText {array : String} (harray : Concluded array) :
    Concluded (arrayText settings array texts) := by
  refine ⟨uncommented_arrayText (fun t ht => (h t ht).uncommented) settings harray.uncommented, ?_⟩
  unfold arrayText
  dsimp only
  split
  · exact .closed _ (by decide)
  · rw [Body.braces, ← String.append_assoc]
    exact .closed _ (by decide)

end Layouts

theorem concluded_braces {text : String} (h : Concluded text) (n : Nat) :
    Concluded (Body.braces (indented (blanks n) text)) := by
  exact ⟨.around (by decide) rfl (h.uncommented.indented n) (by decide), .closed _ (by decide)⟩

theorem concluded_checkedText {text : String} (h : Concluded text) (n : Nat) :
    Concluded (checkedText (blanks n) text) := by
  have hword : Concluded "checked\n" := by decide
  have hopen : Concluded "checked(" := by decide
  have hclose : Concluded ")" := by decide
  unfold checkedText
  dsimp only
  split
  · exact hword.append (concluded_braces h.withoutParens n)
  · exact (hopen.append h.withoutParens).append hclose

theorem forall_concluded {xs ys : List String}
    (h : List.Forall₂ (fun a b => a = b ∧ Concluded a) xs ys) : xs = ys ∧ ∀ t ∈ xs, Concluded t := by
  induction h with
  | nil => exact ⟨rfl, fun t ht => by cases ht⟩
  | cons hx _ ih =>
    obtain ⟨rfl, hx⟩ := hx
    obtain ⟨rfl, hxs⟩ := ih
    exact ⟨rfl, List.forall_mem_cons.mpr ⟨hx, hxs⟩⟩

/-- A rendering beside itself, all texts of which are concluded. -/
def Comparison.concluded (settings : Settings) (qualified : Bool) : Comparison where
  left := { settings, qualified }
  right := { settings, qualified }
  qualified
  marks := wordMarks
  Beside a b := a = b ∧ Concluded a
  Head := Concluded
  left_standard := registry_standard settings qualified
  right_standard := registry_standard settings qualified
  left_names := typeName_display settings qualified
  right_names := typeName_display settings qualified
  generics := explicitGenerics_env settings qualified
  punctuation := by decide
  free h := ⟨rfl, concluded_of_wordMarks h⟩
  fixed := by
    have hall : ∀ w ∈ vocabulary, Concluded w := by decide +kernel
    exact fun w hw => ⟨rfl, hall w hw⟩
  literal hquote cs := ⟨rfl, .quoted hquote cs⟩
  head h := ⟨rfl, h⟩
  headed := by decide +kernel
  rank n := by
    have hslash : Free ['/'] (Ty.rankBrackets n) := by
      have hbracket : ∀ w ∈ ["[", "]"], Free ['/'] w := by decide
      refine ((hbracket "[" (by decide)).append (free_ofList.mpr fun c hc => ?_)).append (hbracket "]" (by decide))
      rw [List.eq_of_mem_replicate hc]
      decide
    exact ⟨uncommented_of_not_mem fun hmem => hslash _ hmem (by decide), .closed _ (by decide)⟩
  append_head ha hw := ha.2.append hw
  append := by
    rintro a _ c _ ⟨rfl, ha⟩ ⟨rfl, hc⟩
    exact ⟨rfl, ha.append hc⟩
  parens := by
    rintro a _ ⟨rfl, ha⟩
    have hopen : Concluded "(" := by decide
    have hclose : Concluded ")" := by decide
    exact ⟨rfl, (hopen.append ha).append hclose⟩
  braces := by
    rintro a _ ⟨rfl, ha⟩
    exact ⟨rfl, concluded_braces ha _⟩
  newline := by
    have hbreak : Concluded "\n" := by decide
    refine ⟨rfl, hbreak.append (.of_free (free_ofList.mpr fun c hc => ?_))⟩
    rw [List.eq_of_mem_replicate hc]
    decide
  arguments := by
    intro w xs ys hw h
    obtain ⟨rfl, hxs⟩ := forall_concluded h
    exact ⟨rfl, hw.append (concluded_argumentList hxs (by decide) (by decide))⟩
  indices := by
    intro xs ys h
    obtain ⟨rfl, hxs⟩ := forall_concluded h
    exact ⟨rfl, concluded_argumentList hxs (by decide) (by decide)⟩
  array := by
    intro w xs ys hw h
    obtain ⟨rfl, hxs⟩ := forall_concluded h
    exact ⟨rfl, concluded_arrayText hxs hw.2⟩
  -- The texts are equal, so whatever is looked up in them is.
  isEmpty h := by rw [h.1]
  isGroup h := by rw [h.1]
  isTerminated h := by rw [h.1]
  withoutParens := by
    rintro a _ ⟨rfl, ha⟩
    exact ⟨rfl, ha.withoutParens⟩
  unterminated := by
    rintro a _ ⟨rfl, ha⟩
    exact ⟨rfl, ha.unterminated⟩
  gap := .inl fun _ _ h => h.1
  checked := by
    rintro - a _ ⟨rfl, ha⟩
    exact ⟨rfl, concluded_checkedText ha _⟩

/-! ### Finished renderings -/

/-- What is known at the end of a rendering of a tree that is spelled with identifiers. -/
structure Session.Concludes (root : Expr) (settings : Settings) (qualified : Bool) (s : Session) : Prop
    extends s.Finishes root settings qualified where
  given : ∀ path e, root.Reaches path e → s.memo.lookup (e.place path) = some (s.textAt path e)
  concluded : ∀ path e, root.Reaches path e → Concluded (s.textAt path e)

theorem concludes_textOf {root : Expr} (htree : root.IsTree) (hext : ∀ e ∈ root.nodes, e.kind ≠ .extension)
    (hspelled : ∀ e ∈ root.nodes, ∀ w ∈ e.spellings, IsIdentifier w) {settings : Settings} {qualified : Bool}
    {text : String} {s : Session}
    (hrun : (RenderM.textOf root).runOn { settings, qualified } (.start root) = (.ok text, s)) :
    s.Concludes root settings qualified := by
  have hexact : (Comparison.concluded settings qualified).Exact := fun _ _ h => h.1
  have hsuits : (Comparison.concluded settings qualified).Suits root :=
    ⟨hext, fun e he w hw => ⟨(hspelled e he w hw).2, concluded_of_wordMarks (hspelled e he w hw).2⟩,
      .inl hexact⟩
  have hboth : (Comparison.concluded settings qualified).Sessions root []
      ((RenderM.textOf root).runOn { settings, qualified } (.start root)).2
      ((RenderM.textOf root).runOn { settings, qualified } (.start root)).2 := (Parallel.textOf hsuits).1
  rw [hrun] at hboth
  have hgiven : ∀ path e, root.Reaches path e → s.memo.lookup (e.place path) = some (s.textAt path e) := by
    intro path e he
    obtain ⟨given, hgiven⟩ := exists_remembered htree hext (by simp) hrun he
    rw [textAt, hgiven, Option.getD_some]
  refine ⟨finishes_textOf htree hext (fun e he w hw => (hspelled e he w hw).isName) hrun, hgiven,
    fun path e he => ?_⟩
  have hmemo := hboth.memo (e.place path)
  rw [hgiven path e he] at hmemo
  cases hmemo with
  | some h => exact h.2

/-! ### Lines of blocks -/

/-- The text of a statement under the given nodes, as its block writes it. -/
def Session.statementAt (s : Session) (path : List Expr) (c : Expr) : String :=
  strippedAt path c (s.textAt path c)

/-- What a line has before its statement. -/
def Line.word : Line → String
  | .introduces _ _ => "var "
  | .plain _ | .returned _ => ""

section Texts
variable {path : List Expr} {c : Expr} {text : String}

theorem strippedAt_cases (path : List Expr) (c : Expr) (text : String) :
    strippedAt path c text = text ∨ strippedAt path c text = withoutParens text := by
  unfold strippedAt Session.stripped
  split
  · exact .inl rfl
  · exact .inr rfl

theorem concluded_strippedAt (h : Concluded text) : Concluded (strippedAt path c text) := by
  rcases strippedAt_cases path c text with heq | heq <;> rw [heq]
  · exact h
  · exact h.withoutParens

/-- Parentheses with nothing between them are all that a statement can lose its text with. -/
theorem strippedAt_eq_empty (h : strippedAt path c text = "") : text = "" ∨ text = "()" := by
  rcases strippedAt_cases path c text with heq | heq
  · exact .inl (heq.symm.trans h)
  · rw [heq] at h
    by_cases hgroup : isGroup text = true
    · right
      rw [← parens_withoutParens hgroup, h]
      decide
    · rw [withoutParens, if_neg hgroup] at h
      exact .inl h

end Texts

theorem Text.Concluded.terminated_append {a b : String} (ha : Concluded a) (hb : Concluded b) (hne : b ≠ "") :
    terminated (a ++ b) = a ++ terminated b := by
  have hlast : (a ++ b).toList.getLast? = b.toList.getLast? := by
    have hsome : b.toList.getLast?.isSome = true := by simpa using hne
    rw [String.toList_append, List.getLast?_append, Option.or_of_isSome hsome]
  have hdone : isTerminated (a ++ b) = isTerminated b := by
    rw [Bool.eq_iff_iff, (ha.append hb).isTerminated_iff, hb.isTerminated_iff, ClosesBrace, ClosesBrace, hlast]
  have hboth : a ++ b ≠ "" := fun hempty => hne (String.append_eq_empty_iff.mp hempty).2
  rw [terminated_eq_ite hboth, terminated_eq_ite hne, hdone]
  split
  · rfl
  · exact String.append_assoc

section Lines
variable {s : Session} {path : List Expr}

theorem Line.word_mem (l : Line) : l.word ∈ ["", "var "] := by
  cases l <;> simp [Line.word]

theorem Line.concluded_word (l : Line) : Concluded l.word := by
  have hwords : ∀ w ∈ ["", "var "], Concluded w := by decide
  exact hwords _ l.word_mem

theorem Render.Lines.exists_gap (lines : Lines) (statement : String) (apart : Bool) :
    ∃ gap ∈ ["", "\n", "\n\n"], (lines.text ≠ "" → gap ≠ "") ∧
      (lines.push statement apart).text = lines.text ++ gap ++ statement := by
  refine ⟨_, ?_, ?_, rfl⟩
  · split
    · decide
    · split <;> decide
  · intro hne
    rw [if_neg (by simpa using hne)]
    split <;> decide

theorem Line.write_of_empty {l : Line} (h : s.textAt path l.statement = "") (position : Position)
    (lines : Lines) : l.write s path position lines = lines := by
  simp [Line.write, h]

/-- A statement with a text is written after what its line has before it. -/
theorem Line.exists_write_terminated (position : Position) {l : Line} (hreturned : ∀ c, l ≠ .returned c)
    (hne : s.textAt path l.statement ≠ "") (lines : Lines) :
    ∃ gap ∈ ["", "\n", "\n\n"], (lines.text ≠ "" → gap ≠ "") ∧ (l.write s path position lines).text =
      lines.text ++ gap ++ terminated (l.word ++ s.statementAt path l.statement) := by
  unfold Line.write
  dsimp only
  rw [if_neg (by simpa using hne)]
  cases l with
  | introduces v c => exact lines.exists_gap _ false
  | plain c =>
    rw [Line.word, String.empty_append]
    exact lines.exists_gap _ false
  | returned c => exact absurd rfl (hreturned c)

theorem statementAt_of_empty {c : Expr} (h : s.textAt path c = "") : s.statementAt path c = "" := by
  rw [Session.statementAt, h]
  rcases strippedAt_cases path c "" with heq | heq <;> rw [heq]
  decide

/-- A statement that keeps a text is ended after it. -/
theorem Line.exists_write_statement (position : Position) {l : Line} (hreturned : ∀ c, l ≠ .returned c)
    (hconcluded : Concluded (s.textAt path l.statement)) (hne : s.statementAt path l.statement ≠ "")
    (lines : Lines) : ∃ gap ∈ ["", "\n", "\n\n"], (lines.text ≠ "" → gap ≠ "") ∧
      (l.write s path position lines).text =
        lines.text ++ gap ++ (l.word ++ terminated (s.statementAt path l.statement)) := by
  have hshown : Concluded (s.statementAt path l.statement) := concluded_strippedAt hconcluded
  rw [← l.concluded_word.terminated_append hshown hne]
  exact Line.exists_write_terminated position hreturned (fun hempty => hne (statementAt_of_empty hempty)) lines

/-- What is written after lines that have a text is on lines of its own, and is nothing only if no statement
    has a text. -/
theorem exists_after (position : Position) : ∀ (ls : List Line) {lines : Lines}, lines.text ≠ "" →
    ∃ after, (ls.foldl (Line.write s path position) lines).text = lines.text ++ after ∧
      ((after = "" ∧ ∀ l ∈ ls, s.textAt path l.statement = "") ∨ after.toList.head? = some '\n')
  | [], lines, _ => ⟨"", String.append_empty.symm, .inl ⟨rfl, fun l hl => by cases hl⟩⟩
  | l :: ls, lines, hne => by
    by_cases hempty : s.textAt path l.statement = ""
    · obtain ⟨after, heq, hafter⟩ := exists_after position ls hne
      refine ⟨after, by rw [List.foldl_cons, Line.write_of_empty hempty, heq], hafter.imp_left fun hnone => ⟨hnone.1, ?_⟩⟩
      exact List.forall_mem_cons.mpr ⟨hempty, hnone.2⟩
    · have hline : ∃ added, (l.write s path position lines).text = lines.text ++ added ∧
          added.toList.head? = some '\n' := by
        have hpush : ∀ statement : String, ∃ added, (lines.push statement false).text = lines.text ++ added ∧
            added.toList.head? = some '\n' := by
          intro statement
          obtain ⟨gap, hgap, hsome, heq⟩ := lines.exists_gap statement false
          have hhead : ∀ w ∈ ["", "\n", "\n\n"], w ≠ "" → w.toList.head? = some '\n' := by decide
          refine ⟨gap ++ statement, by rw [heq, String.append_assoc], ?_⟩
          rw [String.toList_append, List.head?_append, hhead gap hgap (hsome hne), Option.some_or]
        unfold Line.write
        dsimp only
        rw [if_neg (by simpa using hempty)]
        cases l with
        | introduces v c => exact hpush _
        | plain c => exact hpush _
        | returned c =>
          simp only [Line.add, Lines.pushReturn, if_neg (show ¬lines.text.isEmpty = true by simpa using hne),
            String.append_assoc]
          exact ⟨_, rfl, by simp⟩
      obtain ⟨added, hadded, hhead⟩ := hline
      have hnext : (l.write s path position lines).text ≠ "" := by
        rw [hadded]
        exact fun hnone => hne (String.append_eq_empty_iff.mp hnone).1
      obtain ⟨after, heq, -⟩ := exists_after position ls hnext
      refine ⟨added ++ after, by rw [List.foldl_cons, heq, hadded, String.append_assoc], .inr ?_⟩
      rw [String.toList_append, List.head?_append, hhead, Option.some_or]

end Lines

end ExprText
