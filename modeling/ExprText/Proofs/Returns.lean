import ExprText.Proofs.Composed.Expressed

/-! # Returned expressions

Whether a block returns its last statement is decided by types alone, and how that statement is laid out by
what it is. So the text after `return` is an expression only where the statement is shown as one: where no
loop, no conditional that is laid out as a statement and no block that is not in braces is exposed in it. A
block that is the last statement of a block, a loop with a value and a conditional with a longer branch are
returned as the statements that they are. -/

namespace ExprText

open Text Render RenderM Session

/-- A plan of a block that returns a value ends with its last statement. -/
theorem Expr.exists_returned_line {parent : Option Expr} {e : Expr} (h : e.returnsValue parent = true)
    (known : List Nat) : ∃ front c, (e.plan parent known).lines = front ++ [.returned c] ∧
      e.shown.getLast? = some c := by
  have hlines : ∀ (locals : List Variable) (xs : List Expr) (known : List Nat), xs ≠ [] →
      ∃ front c, linesOf true locals xs known = front ++ [.returned c] ∧ xs.getLast? = some c := by
    intro locals xs
    induction xs with
    | nil => exact fun _ hne => absurd rfl hne
    | cons x rest ih =>
      intro known _
      by_cases hrest : rest = []
      · subst hrest
        exact ⟨[], x, rfl, rfl⟩
      · obtain ⟨front, c, hfront, hc⟩ := ih (afterStatement declareId locals x known) hrest
        refine ⟨lineOf locals known x :: front, c, ?_, ?_⟩
        · rw [linesOf, if_neg (by simp [hrest]), hfront, List.cons_append]
        · rw [List.getLast?_cons, hc]
          rfl
  cases e with
  | block i locals all ty =>
    have hne : all.filter (!·.isEmpty) ≠ [] := by
      intro hnil
      rw [returnsValue, hnil] at h
      unfold returnsLast at h
      split at h <;> simp at h
    simp only [plan, h, shown]
    exact hlines _ _ _ hne
  | _ => cases h

/-! ### Returns -/

/-- What a block returns. Where it returns a value, its text ends with `return` and the text of its last
    statement, if that has one. The text that is returned is a phrase if the statement is shown as an
    expression. It is laid out as statements if the statement is a block in which one needs a semicolon, a
    loop, or a conditional that is no operator. -/
theorem returned_text_is_expression (root : Expr) (htree : root.IsTree)
    (hext : ∀ e ∈ root.nodes, e.kind ≠ .extension)
    (hspelled : ∀ e ∈ root.nodes, ∀ w ∈ e.spellings, IsName w) (settings : Settings) (qualified : Bool)
    (text : String) (s : Session)
    (hrun : (RenderM.textOf root).runOn { settings, qualified } (.start root) = (.ok text, s))
    (path : List Expr) (e : Expr) (he : root.Reaches path e) (blockText : String)
    (htext : s.memo.lookup (e.place path) = some blockText) (hreturns : e.returnsValue path.head? = true) :
    ∃ c, e.shown.getLast? = some c ∧
      ∃ returned, returned = s.returnedAt (e :: path) (Position.under e path.head?) c ∧
        (s.textAt (e :: path) c ≠ "" → ∃ before, blockText = (Position.under e path.head?).enclose
          settings.indent (before ++ "return " ++ returned ++ ";")) ∧
        (c.Expressed (some e) → Phrase returned) ∧
        (∀ d ∈ c.shown, c.isBlock = true → s.NeedsSemicolon (c :: e :: path) d →
          ';' ∈ outermost returned) ∧
        (c.kind = .loop → "while (true)".toList <+: returned.toList) ∧
        (c.isConditional = true → c.isTernary = false → "if (".toList <+: returned.toList) := by
  have h : s.Finishes root settings qualified := finishes_textOf htree hext hspelled hrun
  have hblock : e.isBlock = true := by
    cases e with
    | block => rfl
    | _ => cases hreturns
  obtain ⟨known, -, hwrites⟩ := h.records.writes he hblock htext
  obtain ⟨front, c, hlines, hlast⟩ := Expr.exists_returned_line hreturns known
  obtain ⟨hreaches, hgiven⟩ := h.exists_text he htext (List.mem_of_getLast? hlast)
  obtain ⟨_, hcomposes⟩ := h.composed _ _ _ hreaches hgiven
  refine ⟨c, hlast, _, rfl, fun hne => ?_, fun hexpressed => ?_, fun d hd hnested hopen => ?_,
    fun hloop => ?_, fun hconditional hternary => ?_⟩
  · obtain ⟨before, hbefore⟩ := Plan.exists_written_returned hlines hne
    exact ⟨before, by rw [hwrites.text, Plan.write_eq, hbefore]; rfl⟩
  · obtain ⟨-, hportable⟩ := h.phrase_of_expressed hexpressed rfl hreaches hgiven
    have hphrase := hportable (by simp [hexpressed.isBlock_eq_false hblock])
    unfold Session.returnedAt
    split
    · exact hphrase.toPhrase
    · exact phrase_stripped hphrase
  · have hposition : Position.under c (some e) = .statement := by
      cases e with
      | block => rfl
      | _ => cases hblock
    have hbroken := h.broken_block hreaches hgiven hnested hposition hd hopen
    rw [hbroken.returnedAt_eq]
    exact hbroken.mem_outermost
  · exact prefix_returnedAt (by decide) (hcomposes.prefix_loop hloop)
  · obtain ⟨test, body, rest, hif⟩ := hcomposes.exists_ifText hconditional hternary
    refine prefix_returnedAt (by decide) ?_
    rw [hif]
    exact prefix_ifText test body rest

section Choices

private def flag : Variable := ⟨0, some "b", .bool⟩

private def amount : Variable := ⟨1, some "x", .int⟩

private def bonus : Variable := ⟨2, some "y", .int⟩

private def told (id : Nat) : Expr :=
  .call id none (Method.new .static (.named none "T" []) "F") []

private def choice : Expr :=
  .conditional 3 (.variable 4 flag) (.block 5 [] [.variable 6 amount] .int)
    (.binary 7 .add (.variable 8 amount) (.variable 9 bonus) .int) .int

private def choiceBlock : Expr :=
  .block 1 [] [told 2, choice] .int

/-- A function whose block returns a conditional, one branch of which is a block. -/
private def choosing : Expr :=
  .lambda 0 [flag] choiceBlock (.delegate [.bool] .int)

/-- The branch that is a block is returned without its semicolon. -/
theorem returned_text_is_expression_choice :
    choosing.IsTree ∧ (∀ e ∈ choosing.nodes, e.kind ≠ .extension) ∧
    (∀ e ∈ choosing.nodes, ∀ w ∈ e.spellings, IsName w) ∧
    choiceBlock.returnsValue (some choosing) = true ∧ choice.Expressed (some choiceBlock) ∧
    ∃ text s blockText, (RenderM.textOf choosing).runOn {} (.start choosing) = (.ok text, s) ∧
      s.memo.lookup (choiceBlock.place [choosing]) = some blockText ∧
      (∃ before, blockText = before ++ "return " ++ "b ? x : x + y" ++ ";") ∧ Phrase "b ? x : x + y" := by
  have htree : choosing.IsTree := by decide +kernel
  have hext : ∀ e ∈ choosing.nodes, e.kind ≠ .extension := by decide +kernel
  have hspelled : ∀ e ∈ choosing.nodes, ∀ w ∈ e.spellings, IsName w := by decide +kernel
  have hname : ∀ parent i v, (Expr.variable i v).Expressed parent :=
    fun _ _ _ => .inline rfl fun c hc => by cases hc
  have hexpressed : choice.Expressed (some choiceBlock) := by
    refine .inline rfl fun c hc => ?_
    simp only [choice, Expr.exposed, Expr.shown, Expr.isEmpty, Bool.false_and, Bool.false_eq_true, if_false,
      List.cons_append, List.nil_append, List.mem_cons, List.not_mem_nil, or_false] at hc
    rcases hc with rfl | rfl | rfl
    · exact hname _ _ _
    · refine .branch rfl rfl rfl fun c hc => ?_
      obtain rfl := List.mem_singleton.mp hc
      exact hname _ _ _
    · refine .inline rfl fun c hc => ?_
      rcases List.mem_cons.mp hc with rfl | hc
      · exact hname _ _ _
      · obtain rfl := List.mem_singleton.mp hc
        exact hname _ _ _
  have hok : ((RenderM.textOf choosing).runOn {} (.start choosing)).1.toOption.isSome = true := by
    decide +kernel
  have hmemo : (((RenderM.textOf choosing).runOn {} (.start choosing)).2.memo.lookup
      (choiceBlock.place [choosing])).isSome = true := by
    decide +kernel
  have hgiven : ((RenderM.textOf choosing).runOn {} (.start choosing)).2.textAt [choiceBlock, choosing] choice =
      "b ? x : x + y" := by
    decide +kernel
  rcases hrun : (RenderM.textOf choosing).runOn {} (.start choosing) with ⟨fault | text, s⟩
  · rw [hrun] at hok
    cases hok
  · rw [hrun] at hmemo hgiven
    obtain ⟨blockText, htext⟩ := Option.isSome_iff_exists.mp hmemo
    obtain ⟨c, hlast, returned, hreturned, hends, hphrase, -⟩ := returned_text_is_expression choosing htree hext
      hspelled {} false text s hrun [choosing] choiceBlock (.step .root List.mem_cons_self) blockText htext rfl
    obtain rfl : choice = c := Option.some.inj hlast
    have htextual : returned = "b ? x : x + y" := hreturned.trans hgiven
    have hne : s.textAt [choiceBlock, choosing] choice ≠ "" := by
      rw [hgiven]
      decide
    obtain ⟨before, hbefore⟩ := hends hne
    rw [htextual] at hbefore hphrase
    exact ⟨htree, hext, hspelled, rfl, hexpressed, text, s, blockText, rfl, htext, ⟨before, hbefore⟩,
      hphrase hexpressed⟩

/-- A function that returns the given node from its block. -/
private def returningLast (c : Expr) : Expr :=
  .lambda 0 [] (.block 1 [] [c] .int) (.delegate [] .int)

/-- A block in the block. -/
private def nestedReturn : Expr :=
  .block 2 [] [.variable 3 amount] .int

/-- A conditional with a branch of two statements. -/
private def longBranch : Expr :=
  .conditional 2 (.variable 3 flag) (.block 4 [] [told 5, .variable 6 amount] .int) (.variable 7 amount) .int

private def leaving : Label := ⟨0, none, .int⟩

/-- A loop that has a value. -/
private def typedLoop : Expr :=
  .loop 2 (some (.break 3 leaving)) (some leaving) none

/-- What the block returns that `returningLast` makes. -/
private def returnedLast (c : Expr) : String :=
  ((RenderM.textOf (returningLast c)).runOn {} (.start (returningLast c))).2.returnedAt
    [.block 1 [] [c] .int, returningLast c] .lambdaBody c

/-- A block, a conditional and a loop that are returned as statements. -/
theorem returned_text_is_statement :
    (∀ c ∈ [nestedReturn, longBranch, typedLoop], (returningLast c).IsTree ∧
      (∀ e ∈ (returningLast c).nodes, e.kind ≠ .extension ∧ ∀ w ∈ e.spellings, IsName w) ∧
      (Expr.block 1 [] [c] .int).returnsValue (some (returningLast c)) = true ∧
      ¬Phrase (returnedLast c)) ∧
    (returningLast nestedReturn).render {} = .ok "() =>\n\x7b\n    return x;;\n\x7d" ∧
    (returningLast longBranch).render {} = .ok ("() =>\n\x7b\n    return if (b)\n    \x7b\n        T.F();\n" ++
      "        x;\n    \x7d\n\n    x;;\n\x7d") ∧
    (returningLast typedLoop).render {} =
      .ok "() =>\n\x7b\n    return while (true)\n    \x7b\n        break;\n    \x7d;\n\x7d" := by
  refine ⟨?_, ?_, ?_, ?_⟩ <;> decide +kernel

end Choices

end ExprText
