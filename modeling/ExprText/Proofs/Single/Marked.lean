import ExprText.Proofs.Single.Divided

/-! # Marked bodies

A body is marked as a single statement by the number of nodes in its block, not by what these are shown as. A
block that is the only statement of a block can have several statements, and these are then in the text of the
outer one. -/

namespace ExprText

open Text Render RenderM Session

namespace Session.Concludes
variable {root e : Expr} {settings : Settings} {qualified : Bool} {s : Session} {path : List Expr}

/-- A body that is asked for again at the end of a rendering. -/
theorem runOn_body (h : s.Concludes root settings qualified) (he : root.Reaches path e) (depth : Nat) :
    (RenderM.body (visit (depth + 1)) e).runOn { settings, qualified } { s with path } =
      (.ok (s.bodyAt path settings.indent e), { s with path }) := by
  have hvisit : (visit (depth + 1) e).runOn { settings, qualified } { s with path } =
      (.ok (s.textAt path e), { s with path }) := by
    refine runOn_visit_known ?_
    rw [Session.keyOf_eq rfl]
    exact h.given path e he
  have hbody : (RenderM.body (s.recall path) e).runOn { settings, qualified } { s with path } =
      (.ok (s.bodyAt path settings.indent e), { s with path }) := by
    rw [runOn_body_recall, stripped_eq_strippedAt rfl]
    rfl
  rw [RenderM.body, runOn_bind_ok runOn_recall] at hbody
  rw [RenderM.body, runOn_bind_ok hvisit, hbody]

/-- A block with a single statement, not in braces, is one exactly if its statement is. What it returns has
    to do without a semicolon, for it is given one. -/
theorem oneStatement_iff_of_isSingle (h : s.Concludes root settings qualified) (he : root.Reaches path e)
    (hblock : e.isBlock = true) (hsingle : e.isSingle = true)
    (hposition : Position.under e path.head? ≠ .value) : OneStatement (s.textAt path e) ↔
      ∀ c ∈ e.shown, if e.returnsValue path.head? = true then Unbroken (s.statementAt (e :: path) c)
        else OneStatement (s.statementAt (e :: path) c) := by
  have hgiven := h.given path e he
  obtain ⟨known, -, hwrites⟩ := h.records.writes he hblock hgiven
  rcases hwrites.text_of_isSingle hblock hsingle hposition with ⟨hempty, hnone⟩ | ⟨c, hshown, htext⟩
  · rw [hempty]
    refine iff_of_true (by decide) fun c hc => ?_
    rw [statementAt_of_empty (hnone c hc)]
    split <;> decide
  · have hbalanced : Balanced (s.statementAt (e :: path) c) :=
      balanced_strippedAt _ _ (h.balanced_shown he hgiven (hshown ▸ List.mem_cons_self))
    have hword : Unbroken "return " := by decide
    rw [htext, hshown, List.forall_mem_singleton]
    split
    · rw [oneStatement_mark]
      exact ⟨.of_append hword.balanced hbalanced, hword.append⟩
    · exact oneStatement_terminated

end Session.Concludes

/-- What the mark of a single statement says of the body that is made of a node. A body that is shown as a
    single statement is one. A marked block that is not in braces is one exactly if its only statement is,
    whether that is a block or not. So the mark is wrong of every body that is divided by the statements of a
    block in it. -/
theorem single_body_is_one_statement (root : Expr) (htree : root.IsTree)
    (hext : ∀ e ∈ root.nodes, e.kind ≠ .extension)
    (hspelled : ∀ e ∈ root.nodes, ∀ w ∈ e.spellings, IsIdentifier w) (settings : Settings) (qualified : Bool)
    (text : String) (s : Session)
    (hrun : (RenderM.textOf root).runOn { settings, qualified } (.start root) = (.ok text, s))
    (path : List Expr) (e : Expr) (he : root.Reaches path e) (depth : Nat) :
    ∃ body, (RenderM.body (visit (depth + 1)) e).runOn { settings, qualified } { s with path } =
        (.ok body, { s with path }) ∧
      (s.Single path e → OneStatement body.text) ∧
      (body.isSingle = true → e.isBlock = true → Position.under e path.head? ≠ .value →
        (OneStatement body.text ↔ ∀ c ∈ e.shown, if e.returnsValue path.head? = true then
            Unbroken (s.statementAt (e :: path) c)
          else OneStatement (s.statementAt (e :: path) c))) ∧
      (s.Divided path e → ¬OneStatement body.text) := by
  have h : s.Concludes root settings qualified := concludes_textOf htree hext hspelled hrun
  refine ⟨_, h.runOn_body he depth, fun hone => oneStatement_bodyAt settings.indent (h.portableStatement hone he),
    fun hsingle hblock hposition => ?_, fun hdivided => ?_⟩
  · rw [show (s.bodyAt path settings.indent e).text = s.textAt path e from if_pos hblock]
    exact h.oneStatement_iff_of_isSingle he hblock hsingle hposition
  · rw [(h.several_of_divided hdivided he).bodyAt_eq]
    exact (h.several_of_divided hdivided he).not_oneStatement

section Examples

private def doubt : Variable := ⟨0, some "b", .bool⟩

private def doing (id : Nat) : Expr :=
  .call id none (Method.new .static (.named none "T" []) "F") []

/-- A conditional without an `else`. -/
private def doingIf (id : Nat) (e : Expr) : Expr :=
  .conditional id (.variable (id + 1) doubt) e (.default (id + 2) .void) .void

private def closingFirst : Expr :=
  .block 4 [] [doingIf 5 (doing 8), doing 9] .void

private def blockInBlock : Expr :=
  .block 3 [] [closingFirst] .void

private def doingRoot : Expr :=
  doingIf 0 blockInBlock

/-- A block in a block, the first statement of which ends in a brace. -/
theorem single_body_is_one_statement_closing :
    doingRoot.IsTree ∧ (∀ e ∈ doingRoot.nodes, e.kind ≠ .extension) ∧
    (∀ e ∈ doingRoot.nodes, ∀ w ∈ e.spellings, IsIdentifier w) ∧
    ∃ text s t body, (RenderM.textOf doingRoot).runOn {} (.start doingRoot) = (.ok text, s) ∧
      (RenderM.body (visit 1) blockInBlock).runOn {} { s with path := [doingRoot] } = (.ok body, t) ∧
      body = ⟨"if (b)\n\x7b\n    T.F();\n\x7d\n\nT.F();", true, "    "⟩ ∧
      s.Single [doingRoot] blockInBlock ∧ OneStatement body.text := by
  have htree : doingRoot.IsTree := by decide +kernel
  have hext : ∀ e ∈ doingRoot.nodes, e.kind ≠ .extension := by decide +kernel
  have hspelled : ∀ e ∈ doingRoot.nodes, ∀ w ∈ e.spellings, IsIdentifier w := by decide +kernel
  have hok : ((RenderM.textOf doingRoot).runOn {} (.start doingRoot)).1.toOption.isSome = true := by
    decide +kernel
  have hcloses : ClosesBrace (((RenderM.textOf doingRoot).runOn {} (.start doingRoot)).2.statementAt
      [closingFirst, blockInBlock, doingRoot] (doingIf 5 (doing 8))) := by
    decide +kernel
  have hgiven : ((RenderM.body (visit 1) blockInBlock).runOn {}
      { ((RenderM.textOf doingRoot).runOn {} (.start doingRoot)).2 with path := [doingRoot] }).1 =
        .ok ⟨"if (b)\n\x7b\n    T.F();\n\x7d\n\nT.F();", true, "    "⟩ := by
    decide +kernel
  rcases hrun : (RenderM.textOf doingRoot).runOn {} (.start doingRoot) with ⟨fault | text, s⟩
  · rw [hrun] at hok
    cases hok
  · rw [hrun] at hcloses hgiven
    have hcall : s.Single [closingFirst, blockInBlock, doingRoot] (doing 9) :=
      .expression rfl (.inline rfl fun c hc => by cases hc)
    have hinner : s.Single [blockInBlock, doingRoot] closingFirst :=
      .statements rfl (by decide) rfl (fun i hi => by cases hi)
        (List.forall_mem_cons.mpr ⟨.closed (.inl rfl), List.forall_mem_singleton.mpr hcall⟩)
        (List.pairwise_pair.mpr fun _ _ => hcloses)
    have hsingle : s.Single [doingRoot] blockInBlock :=
      .statements rfl (by decide) rfl (fun i hi => by cases hi) (List.forall_mem_singleton.mpr hinner)
        (List.pairwise_singleton _ _)
    obtain ⟨body, hbody, hone, -⟩ := single_body_is_one_statement doingRoot htree hext hspelled {} false text s
      hrun [doingRoot] blockInBlock (.step .root (List.mem_cons_of_mem _ List.mem_cons_self)) 0
    rw [hbody] at hgiven
    exact ⟨htree, hext, hspelled, text, s, _, body, rfl, hbody, Except.ok.inj hgiven, hsingle, hone hsingle⟩

private def twoInOne : Expr :=
  .block 2 [] [.block 3 [] [doing 4, .variable 5 ⟨1, some "x", .int⟩] .int] .int

/-- A choice between a block with a block of two statements in it and a name. -/
private def choosingTwo : Expr :=
  .conditional 0 (.variable 1 doubt) twoInOne (.variable 6 ⟨2, some "y", .int⟩) .int

/-- Two statements that are marked as one, and are written behind a question mark. -/
theorem single_body_is_two_statements :
    choosingTwo.IsTree ∧ (∀ e ∈ choosingTwo.nodes, e.kind ≠ .extension ∧ ∀ w ∈ e.spellings, IsIdentifier w) ∧
    twoInOne.isConditional = false ∧
    ((RenderM.body (visit 1) twoInOne).runOn {}
      { ((RenderM.textOf choosingTwo).runOn {} (.start choosingTwo)).2 with path := [choosingTwo] }).1 =
        .ok ⟨"T.F();\nx;", true, "    "⟩ ∧
    ¬OneStatement "T.F();\nx;" ∧ choosingTwo.render {} = .ok "b ? T.F();\nx : y" := by
  refine ⟨?_, ?_, ?_, ?_, ?_, ?_⟩ <;> decide +kernel

end Examples

end ExprText
