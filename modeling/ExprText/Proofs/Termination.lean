import ExprText.Proofs.Composed.Tails

/-! # Semicolons of statements

A block ends each of its statements by a semicolon, unless the text of the statement ends in a closing brace.
Only the last character is looked at. So an assignment, a call or a jump is left without a semicolon where its
last part is written in braces: an array with items, a lambda with a body in braces, a block that is returned
or an overflow check of several lines. -/

namespace ExprText

open Text Render RenderM Session

/-! ### Ends of nodes -/

namespace Expr

/-- Whether a node under `parent` ends in braces, by itself or by its last part. -/
inductive EndsBraced : Option Expr → Expr → Prop
  | braces {parent : Option Expr} {e : Expr} (braces : e.endsInBraces parent = true) : EndsBraced parent e
  | last {parent : Option Expr} {e c : Expr} (last : e.last? = some c) (concat : e.isConcat = false)
    (unchecked : carriesChecked parent e = false) (h : EndsBraced (some e) c) : EndsBraced parent e

/-- Whether a node under `parent` ends with a name, a literal or a word or bracket of its own, or does so by
    its last part. -/
inductive EndsPlain : Option Expr → Expr → Prop
  | plain {parent : Option Expr} {e : Expr} (plain : e.isPlain = true) : EndsPlain parent e
  | own {parent : Option Expr} {e : Expr} (action : e.isAction = true) (last : e.last? = none)
    (concat : e.isConcat = false) (unchecked : carriesChecked parent e = false) : EndsPlain parent e
  | last {parent : Option Expr} {e c : Expr} (last : e.last? = some c) (concat : e.isConcat = false)
    (unchecked : carriesChecked parent e = false) (h : EndsPlain (some e) c) : EndsPlain parent e

end Expr

theorem Session.closesBrace_statementAt {s : Session} {path : List Expr} {c : Expr} {P : Prop}
    (hwhole : ClosesBrace (s.textAt path c) ↔ P) (hinner : ClosesBrace (withoutParens (s.textAt path c)) ↔ P) :
    ClosesBrace (s.statementAt path c) ↔ P := by
  rcases strippedAt_cases path c (s.textAt path c) with heq | heq
  · rw [Session.statementAt, heq, hwhole]
  · rw [Session.statementAt, heq, hinner]

namespace Session.Concludes
variable {root e c : Expr} {settings : Settings} {qualified : Bool} {s : Session} {path : List Expr}

theorem concluded_statementAt (h : s.Concludes root settings qualified) (he : root.Reaches path e)
    (hc : c ∈ e.shown) : Concluded (s.statementAt (e :: path) c) :=
  concluded_strippedAt (h.concluded (e :: path) c (.step he hc))

/-- A statement in the text of its block, with what stands before and after it on lines of their own. -/
theorem exists_line (h : s.Concludes root settings qualified) (he : root.Reaches path e)
    (hblock : e.isBlock = true) (hposition : Position.under e path.head? = .statement) (hc : c ∈ e.shown)
    (hne : s.statementAt (e :: path) c ≠ "") : ∃ before word after, word ∈ ["", "var "] ∧
      (before = "" ∨ before.toList.getLast? = some '\n') ∧ (after = "" ∨ after.toList.head? = some '\n') ∧
      s.textAt path e = before ++ (word ++ terminated (s.statementAt (e :: path) c)) ++ after := by
  obtain ⟨known, -, hwrites⟩ := h.records.writes he hblock (h.given path e he)
  have hreturned : ∀ l ∈ (e.plan path.head? known).lines, ∀ d, l ≠ .returned d :=
    e.not_returned (e.returnsValue_of_statement hposition) known
  have hmem := hc
  rw [← hwrites.statements] at hmem
  obtain ⟨l, hl, rfl⟩ := List.mem_map.mp hmem
  obtain ⟨front, back, hsplit⟩ := List.append_of_mem hl
  generalize hbefore : front.foldl (Line.write s (e :: path) .statement)
    ((e.plan path.head? known).declared { settings, qualified } s) = before
  obtain ⟨gap, hgap, hsome, hline⟩ := Line.exists_write_statement .statement (hreturned l hl)
    (h.concluded (e :: path) l.statement (.step he hc)) hne before
  have hwritten : (l.write s (e :: path) .statement before).text ≠ "" := by
    rw [hline]
    refine append_ne_empty (.inr (append_ne_empty (.inr ?_)))
    unfold terminated
    split
    · exact hne
    · exact append_ne_empty (.inl hne)
  obtain ⟨after, hafter, hends⟩ := exists_after .statement back hwritten
  have hgaps : ∀ w ∈ ["", "\n", "\n\n"], w ≠ "" → w.toList.getLast? = some '\n' := by decide
  refine ⟨before.text ++ gap, l.word, after, l.word_mem, ?_, hends.imp_left And.left, ?_⟩
  · by_cases hnone : gap = ""
    · have hempty : before.text = "" := Classical.byContradiction fun hne => hsome hne hnone
      exact .inl (by rw [hempty, hnone, String.append_empty])
    · right
      rw [String.toList_append, List.getLast?_append, hgaps gap hgap hnone, Option.some_or]
  · rw [hwrites.text_eq (by simp [hposition]), hposition, Plan.written, hsplit, List.foldl_append,
      List.foldl_cons, hbefore, hafter, hline]

theorem closesBrace_of_endsInBraces (h : s.Concludes root settings qualified) (he : root.Reaches path e)
    (hends : e.endsInBraces path.head? = true) : ClosesBrace (s.textAt path e) := by
  have hgiven := h.given path e he
  obtain ⟨known, hcomposes⟩ := h.composed _ _ _ he hgiven
  obtain ⟨u, v, -, -, hrun⟩ := hcomposes.exists_run
  cases e with
  | newArray i element items => exact closesBrace_newArray (i := i) (by simpa [Expr.endsInBraces] using hends) hrun
  | lambda i params body ty =>
    have hrun : (Render.lambda (s.recall (.lambda i params body ty :: path)) (.lambda i params body ty)).runOn
      { settings, qualified } u = (.ok (s.textAt path (.lambda i params body ty)), v) := hrun
    refine closesBrace_lambda hends (fun hconditional hvoid => ?_) hrun
    have hshown : body ∈ (Expr.lambda i params body ty).shown := by
      cases body with
      | conditional => exact List.mem_cons_self
      | _ => cases hconditional
    obtain ⟨hreaches, hbelow⟩ := h.exists_text he hgiven hshown
    obtain ⟨_, hbody⟩ := h.composed _ _ _ hreaches hbelow
    exact hbody.isMultiLine_of_isVoid hconditional hvoid
  | block i locals all ty =>
    have hvalue : Position.under (.block i locals all ty) path.head? = .value := of_decide_eq_true hends
    obtain ⟨known, -, hwrites⟩ := h.records.writes he rfl hgiven
    rw [hwrites.text, Plan.write_eq, hvalue, Position.enclose]
    split
    · decide
    · exact closesBrace_braces _
  | _ => cases hends

theorem closesBrace_of_endsBraced (h : s.Concludes root settings qualified) {parent : Option Expr}
    (hends : e.EndsBraced parent) : ∀ {path : List Expr}, path.head? = parent → root.Reaches path e →
    ClosesBrace (s.textAt path e) := by
  induction hends with
  | braces hbraces =>
    rintro path rfl he
    exact h.closesBrace_of_endsInBraces he hbraces
  | @last parent e c hlast hconcat hchecked _ ih =>
    rintro path rfl he
    obtain ⟨hreaches, front, hleads, -, heq, -⟩ := h.exists_front he hchecked hconcat hlast
    have hbelow := ih rfl hreaches
    rw [heq, (hleads.closesBrace_iff _).1]
    rcases s.lastAt_cases path e c with hsame | hsame <;> rw [hsame]
    · exact hbelow
    · rwa [hbelow.withoutParens_eq]

theorem unbraced_of_endsPlain (h : s.Concludes root settings qualified) {parent : Option Expr}
    (hends : e.EndsPlain parent) : ∀ {path : List Expr}, path.head? = parent → root.Reaches path e →
    Unbraced (s.textAt path e) := by
  induction hends with
  | @plain _ e hplain =>
    rintro path rfl he
    obtain ⟨known, hcomposes⟩ := h.composed _ _ _ he (h.given path e he)
    exact hcomposes.unbraced_plain (h.spelled e he.mem_nodes) h.legible hplain
  | @own _ e haction hlast hconcat hchecked =>
    rintro path rfl he
    have hgiven := h.given path e he
    obtain ⟨known, hcomposes⟩ := h.composed _ _ _ he hgiven
    exact hcomposes.unbraced (h.spelled e he.mem_nodes) (fun d hd => h.balanced_shown he hgiven hd) hchecked
      hconcat haction hlast
  | @last _ e c hlast hconcat hchecked _ ih =>
    rintro path rfl he
    obtain ⟨hreaches, front, hleads, -, heq, -⟩ := h.exists_front he hchecked hconcat hlast
    have hbelow := ih rfl hreaches
    have hopen : ¬ClosesBrace (s.lastAt path e c) := by
      rcases s.lastAt_cases path e c with hsame | hsame <;> rw [hsame]
      · exact hbelow.whole
      · exact hbelow.inner
    obtain ⟨hwhole, hinner⟩ := hleads.closesBrace_iff (s.lastAt path e c)
    rw [heq]
    exact ⟨mt hwhole.mp hopen, mt hinner.mp hopen⟩

/-- How an action ends in a block is decided by its last part. -/
theorem closesBrace_action_iff (h : s.Concludes root settings qualified) (he : root.Reaches path e)
    (hblock : e.isBlock = true) (hc : c ∈ e.shown) (haction : c.isAction = true)
    (hchecked : carriesChecked (some e) c = false) : ClosesBrace (s.statementAt (e :: path) c) ↔
      ∃ d, c.last? = some d ∧ ClosesBrace (s.lastAt (e :: path) c d) := by
  have hreaches : root.Reaches (e :: path) c := .step he hc
  -- A concatenation has parentheses of its own around it, and its block takes these off.
  cases hconcat : c.isConcat with
  | true =>
    have hkeeps : ({ path := e :: path } : Session).keepsParens c = false := by
      cases c with
      | call =>
        cases e with
        | block => rfl
        | _ => cases hblock
      | _ => cases hconcat
    have hstripped : s.statementAt (e :: path) c = withoutParens (s.textAt (e :: path) c) := by
      rw [Session.statementAt, strippedAt, Session.stripped, hkeeps, if_neg Bool.false_ne_true]
    have hgiven := h.given (e :: path) c hreaches
    obtain ⟨known, hcomposes⟩ := h.composed _ _ _ hreaches hgiven
    rw [hstripped]
    exact hcomposes.closesBrace_concatenation (fun d hd => h.balanced_shown hreaches hgiven hd) hconcat
  | false =>
    cases hlast : c.last? with
    | none =>
      have hunbraced := h.unbraced_of_endsPlain (.own haction hlast hconcat hchecked) rfl hreaches
      have hnone : ¬∃ d, none = some d ∧ ClosesBrace (s.lastAt (e :: path) c d) := by simp
      exact closesBrace_statementAt (iff_of_false hunbraced.whole hnone) (iff_of_false hunbraced.inner hnone)
    | some d =>
      obtain ⟨-, front, hleads, -, heq, -⟩ := h.exists_front hreaches hchecked hconcat hlast
      obtain ⟨hwhole, hinner⟩ := hleads.closesBrace_iff (s.lastAt (e :: path) c d)
      rw [← heq] at hwhole hinner
      have hd : ClosesBrace (s.lastAt (e :: path) c d) ↔
          ∃ d', some d = some d' ∧ ClosesBrace (s.lastAt (e :: path) c d') := by simp
      exact closesBrace_statementAt (hwhole.trans hd) (hinner.trans hd)

/-- An overflow check around an action ends in a brace if it has several lines. -/
theorem closesBrace_checked_iff (h : s.Concludes root settings qualified) (he : root.Reaches path e)
    (hc : c ∈ e.shown) (haction : c.isAction = true) (hchecked : carriesChecked (some e) c = true) :
    ClosesBrace (s.statementAt (e :: path) c) ↔ isMultiLine (s.statementAt (e :: path) c) = true := by
  have hreaches : root.Reaches (e :: path) c := .step he hc
  obtain ⟨known, hcomposes⟩ := h.composed _ _ _ hreaches (h.given (e :: path) c hreaches)
  obtain ⟨inner, hinner⟩ := hcomposes.exists_checkedText haction hchecked
  have hgroup : isGroup (checkedText settings.indent inner) = false := by
    refine isGroup_eq_false ?_
    rw [checkedText_head]
    decide
  have hsame : s.statementAt (e :: path) c = checkedText settings.indent inner := by
    rw [Session.statementAt, hinner]
    rcases strippedAt_cases (e :: path) c (checkedText settings.indent inner) with heq | heq
    · exact heq
    · exact heq.trans (withoutParens_of_isGroup_eq_false hgroup)
  rw [hsame]
  exact closesBrace_checkedText settings.indent inner

end Session.Concludes

/-! ### Statements of blocks -/

/-- How a block ends its statements, where it is not in braces. An assignment, an operator, a call or a jump
    with a text stands on lines of its own, and is followed by a semicolon exactly if its text does not end in
    a closing brace. It ends in one exactly if its last part does, or if it is an overflow check of several
    lines: never if it ends with a name, a literal or a word or bracket of its own, and always if it ends with
    an array with items, a lambda with a body in braces or a block in braces. -/
theorem statement_ended_unless_braced (root : Expr) (htree : root.IsTree)
    (hext : ∀ e ∈ root.nodes, e.kind ≠ .extension)
    (hspelled : ∀ e ∈ root.nodes, ∀ w ∈ e.spellings, IsIdentifier w) (settings : Settings) (qualified : Bool)
    (text : String) (s : Session)
    (hrun : (RenderM.textOf root).runOn { settings, qualified } (.start root) = (.ok text, s))
    (path : List Expr) (e : Expr) (he : root.Reaches path e) (hblock : e.isBlock = true)
    (hposition : Position.under e path.head? = .statement) (c : Expr) (hc : c ∈ e.shown)
    (haction : c.isAction = true) (hne : s.textAt (e :: path) c ≠ "") :
    ∃ statement, statement = s.statementAt (e :: path) c ∧
      (statement = "" → s.textAt (e :: path) c = "()") ∧
      (statement ≠ "" → ∃ before word after, word ∈ ["", "var "] ∧
        (before = "" ∨ before.toList.getLast? = some '\n') ∧ (after = "" ∨ after.toList.head? = some '\n') ∧
        s.memo.lookup (e.place path) = some (before ++ (word ++ terminated statement) ++ after) ∧
        (terminated statement = unterminated statement ++ ";" ↔ ¬ClosesBrace statement)) ∧
      (carriesChecked (some e) c = true → (ClosesBrace statement ↔ isMultiLine statement = true)) ∧
      (carriesChecked (some e) c = false →
        (ClosesBrace statement ↔ ∃ d, c.last? = some d ∧ ClosesBrace (s.lastAt (e :: path) c d))) ∧
      (c.EndsPlain (some e) → ¬ClosesBrace statement) ∧ (c.EndsBraced (some e) → ClosesBrace statement) := by
  have h : s.Concludes root settings qualified := concludes_textOf htree hext hspelled hrun
  have hreaches : root.Reaches (e :: path) c := .step he hc
  refine ⟨_, rfl, fun hempty => (strippedAt_eq_empty hempty).resolve_left hne, fun hsome => ?_,
    h.closesBrace_checked_iff he hc haction, h.closesBrace_action_iff he hblock hc haction,
    fun hplain => ?_, fun hbraced => ?_⟩
  · obtain ⟨before, word, after, hword, hbefore, hafter, heq⟩ := h.exists_line he hblock hposition hc hsome
    refine ⟨before, word, after, hword, hbefore, hafter, by rw [h.given path e he, heq], ?_⟩
    rw [(h.concluded_statementAt he hc).terminated_eq_iff]
    exact and_iff_right hsome
  · have hunbraced := h.unbraced_of_endsPlain hplain rfl hreaches
    exact (closesBrace_statementAt (iff_of_false hunbraced.whole id) (iff_of_false hunbraced.inner id)).mp
  · have hbrace := h.closesBrace_of_endsBraced hbraced rfl hreaches
    refine (closesBrace_statementAt (iff_of_true hbrace trivial) (iff_of_true ?_ trivial)).mpr trivial
    rwa [hbrace.withoutParens_eq]

section Examples

private def sumVariable : Variable := ⟨0, some "x", .int⟩

private def itemsVariable : Variable := ⟨1, some "a", .array .long 1⟩

private def calling (id : Nat) : Expr :=
  .call id none (Method.new .static (.named none "T" []) "F") []

/-- An assignment of a converted item. -/
private def takingItem : Expr :=
  .assign 1 .assign (.variable 2 sumVariable)
    (.unary 3 .convert (.index 4 (.variable 5 itemsVariable) [.constant 6 (.int 0) .int] .long) .int)

private def takingBlock : Expr :=
  .block 0 [] [takingItem, calling 7] .void

theorem statement_ended_unless_braced_item :
    takingBlock.IsTree ∧ (∀ e ∈ takingBlock.nodes, e.kind ≠ .extension) ∧
    (∀ e ∈ takingBlock.nodes, ∀ w ∈ e.spellings, IsIdentifier w) ∧ takingItem.EndsPlain (some takingBlock) ∧
    ∃ text s, (RenderM.textOf takingBlock).runOn {} (.start takingBlock) = (.ok text, s) ∧
      ∃ before word after, s.memo.lookup (takingBlock.place []) =
        some (before ++ (word ++ "x = (int)a[0];") ++ after) := by
  have htree : takingBlock.IsTree := by decide +kernel
  have hext : ∀ e ∈ takingBlock.nodes, e.kind ≠ .extension := by decide +kernel
  have hspelled : ∀ e ∈ takingBlock.nodes, ∀ w ∈ e.spellings, IsIdentifier w := by decide +kernel
  have hplain : takingItem.EndsPlain (some takingBlock) :=
    .last rfl rfl rfl (.last rfl rfl (by decide +kernel) (.plain rfl))
  have hok : ((RenderM.textOf takingBlock).runOn {} (.start takingBlock)).1.toOption.isSome = true := by
    decide +kernel
  have hshown : ((RenderM.textOf takingBlock).runOn {} (.start takingBlock)).2.textAt [takingBlock] takingItem =
      "x = (int)a[0]" ∧
      ((RenderM.textOf takingBlock).runOn {} (.start takingBlock)).2.statementAt [takingBlock] takingItem =
        "x = (int)a[0]" := by
    decide +kernel
  rcases hrun : (RenderM.textOf takingBlock).runOn {} (.start takingBlock) with ⟨fault | text, s⟩
  · rw [hrun] at hok
    cases hok
  · rw [hrun] at hshown
    obtain ⟨statement, rfl, -, hline, -, -, hends, -⟩ := statement_ended_unless_braced takingBlock htree hext
      hspelled {} false text s hrun [] takingBlock .root rfl rfl takingItem List.mem_cons_self rfl
      (by rw [hshown.1]; decide)
    obtain ⟨before, word, after, -, -, -, hblock, hmark⟩ := hline (by rw [hshown.2]; decide)
    rw [hmark.mpr (hends hplain), hshown.2] at hblock
    exact ⟨htree, hext, hspelled, hplain, text, s, rfl, before, word, after, hblock⟩

/-- A block with the given statement alone. -/
private def blockOf (c : Expr) : Expr :=
  .block 0 [] [c] .void

private def assigningArray : Expr :=
  .assign 1 .assign (.variable 2 sumVariable) (.newArray 3 .int [.constant 4 (.int 1) .int])

private def assigningLambda : Expr :=
  .assign 1 .assign (.variable 2 sumVariable)
    (.lambda 3 [] (.block 4 [] [calling 5] .void) (.delegate [] .void))

/-- An array and a lambda that are assigned without a semicolon after them. -/
theorem statement_left_open :
    (∀ c ∈ [assigningArray, assigningLambda], (blockOf c).IsTree ∧ c.isAction = true ∧
      (∀ e ∈ (blockOf c).nodes, e.kind ≠ .extension ∧ ∀ w ∈ e.spellings, IsIdentifier w) ∧
      Position.under (blockOf c) none = .statement) ∧
    (blockOf assigningArray).render {} = .ok "x = new[] \x7b 1 \x7d" ∧
    assigningArray.render {} = .ok "x = new[] \x7b 1 \x7d" ∧
    (blockOf assigningLambda).render {} = .ok "x = () =>\n\x7b\n    T.F();\n\x7d" ∧
    assigningLambda.render {} = .ok "x = () =>\n\x7b\n    T.F();\n\x7d" := by
  refine ⟨?_, ?_, ?_, ?_, ?_⟩ <;> decide +kernel

end Examples

end ExprText
