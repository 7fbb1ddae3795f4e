import ExprText.Proofs.Names.Spelling
import ExprText.Proofs.Registry
import ExprText.Proofs.Run
import ExprText.Proofs.Text.Scan

/-! # Text literals

A character or a text is shown as a literal with its escapes. The literal is read back as what it was made
from. A scan of program text is inside of it from its first character to its last, and stands after it where
it stood before it. So what a literal holds can neither make a group nor keep a text from being one. -/

namespace ExprText

namespace Text

/-! ### Reading literals -/

/-- Reads a literal from behind its opening quote up to the next quote that is not escaped: what it holds, and
    what follows it. No literal goes beyond its line. -/
def readQuoted (quote : Char) : List Char → Option (List Char × List Char)
  | [] => none
  | '\\' :: c :: rest =>
    match unescaped? c, readQuoted quote rest with
    | some d, some (cs, after) => some (d :: cs, after)
    | _, _ => none
  | c :: rest =>
    if c = quote then some ([], rest)
    else if c = '\\' ∨ c = '\n' then none
    else (readQuoted quote rest).map fun (cs, after) => (c :: cs, after)

/-- Reads a literal with either quote. -/
def readLiteral : List Char → Option (List Char × List Char)
  | [] => none
  | quote :: rest => if quote = '"' ∨ quote = '\x27' then readQuoted quote rest else none

section Escapes
variable {quote : Char} (hquote : quote = '"' ∨ quote = '\x27')
include hquote

/-- What is read from behind the opening quote is what was escaped. -/
theorem readQuoted_escape (cs rest : List Char) :
    readQuoted quote (escape quote cs ++ quote :: rest) = some (cs, rest) := by
  induction cs with
  | nil => rcases hquote with rfl | rfl <;> simp [escape, readQuoted]
  | cons c cs ih =>
    rw [escape, List.flatMap_cons, List.append_assoc]
    rw [escape] at ih
    rcases escapeChar_cases hquote c with ⟨heq, hslash, hquote', hbreak⟩ | ⟨d, heq, hd, -⟩
    · rw [heq, List.singleton_append]
      simp [readQuoted, hslash, hquote', hbreak, ih]
    · rw [heq, List.cons_append, List.singleton_append, readQuoted, hd, ih]

theorem readLiteral_quoted (cs rest : List Char) :
    readLiteral ((quoted quote cs).toList ++ rest) = some (cs, rest) := by
  rw [quoted, String.toList_ofList, List.cons_append, readLiteral, if_pos hquote, List.append_assoc,
    List.singleton_append, readQuoted_escape hquote]

/-! ### Scans of literals -/

theorem step_quote (depth : Nat) :
    (Scan.mk depth none false).step quote = ⟨depth, some quote, false⟩ ∧
      (Scan.mk depth (some quote) false).step quote = ⟨depth, none, false⟩ := by
  rcases hquote with rfl | rfl <;> exact ⟨rfl, rfl⟩

/-- A scan does not leave a literal by what stands in it. -/
theorem foldl_escape (depth : Nat) : ∀ cs : List Char,
    (escape quote cs).foldl Scan.step ⟨depth, some quote, false⟩ = ⟨depth, some quote, false⟩ ∧
      ∀ front, front <+: escape quote cs →
        (front.foldl Scan.step ⟨depth, some quote, false⟩).quote = some quote ∧
        (front.foldl Scan.step ⟨depth, some quote, false⟩).depth = depth
  | [] => by
    refine ⟨rfl, fun front hfront => ?_⟩
    rw [List.prefix_nil.mp hfront]
    exact ⟨rfl, rfl⟩
  | c :: cs => by
    obtain ⟨hall, hinside⟩ := foldl_escape depth cs
    have hcons : escape quote (c :: cs) = escapeChar quote c ++ escape quote cs := List.flatMap_cons
    rcases escapeChar_cases hquote c with ⟨heq, hslash, hc, -⟩ | ⟨d, heq, -, -⟩
    · rw [hcons, heq, List.singleton_append]
      refine ⟨by rw [List.foldl_cons, step_inner hslash hc, hall], fun front hfront => ?_⟩
      cases front with
      | nil => exact ⟨rfl, rfl⟩
      | cons x front =>
        obtain ⟨rfl, hrest⟩ := List.cons_prefix_cons.mp hfront
        rw [List.foldl_cons, step_inner hslash hc]
        exact hinside front hrest
    · rw [hcons, heq, List.cons_append, List.singleton_append]
      refine ⟨by rw [List.foldl_cons, List.foldl_cons, step_escape, hall], fun front hfront => ?_⟩
      rcases front with _ | ⟨x, _ | ⟨y, front⟩⟩
      · exact ⟨rfl, rfl⟩
      · obtain ⟨rfl, -⟩ := List.cons_prefix_cons.mp hfront
        exact ⟨rfl, rfl⟩
      · obtain ⟨rfl, hpair⟩ := List.cons_prefix_cons.mp hfront
        obtain ⟨rfl, hrest⟩ := List.cons_prefix_cons.mp hpair
        rw [List.foldl_cons, List.foldl_cons, step_escape]
        exact hinside front hrest

/-- A scan is inside of a literal right after its first character and outside of it right after its last. -/
theorem foldl_quoted (depth : Nat) (cs : List Char) :
    (quoted quote cs).toList.foldl Scan.step ⟨depth, none, false⟩ = ⟨depth, none, false⟩ ∧
      ∀ front back, (quoted quote cs).toList = front ++ back → front ≠ [] → back ≠ [] →
        (front.foldl Scan.step ⟨depth, none, false⟩).quote = some quote ∧
        (front.foldl Scan.step ⟨depth, none, false⟩).depth = depth := by
  obtain ⟨hall, hinside⟩ := foldl_escape hquote depth cs
  obtain ⟨hopen, hclose⟩ := step_quote hquote depth
  rw [quoted, String.toList_ofList]
  refine ⟨?_, fun front back heq hfront hback => ?_⟩
  · rw [List.foldl_cons, hopen, List.foldl_append, hall, List.foldl_cons, List.foldl_nil, hclose]
  · cases front with
    | nil => exact absurd rfl hfront
    | cons x front =>
      rw [List.cons_append, List.cons.injEq] at heq
      obtain ⟨rfl, heq⟩ := heq
      rw [List.foldl_cons, hopen]
      -- The closing quote is the last character, so it is not in front.
      have hlast : escape quote cs = front ++ back.dropLast := by
        have hdrop := congrArg List.dropLast heq
        rwa [List.dropLast_concat, List.dropLast_append_of_ne_nil hback] at hdrop
      exact hinside front ⟨back.dropLast, hlast.symm⟩

/-! ### Groups around literals -/

theorem closesAtEnd_escape (depth : Nat) (cs rest : List Char) :
    (Scan.mk depth (some quote) false).closesAtEnd (escape quote cs ++ rest) =
      (Scan.mk depth (some quote) false).closesAtEnd rest := by
  induction cs with
  | nil => rfl
  | cons c cs ih =>
    rw [escape, List.flatMap_cons, List.append_assoc]
    rw [escape] at ih
    rcases escapeChar_cases hquote c with ⟨heq, hslash, hc, -⟩ | ⟨d, heq, -, -⟩
    · rw [heq, List.singleton_append, Scan.closesAtEnd_quoted rfl, step_inner hslash hc, ih]
    · rw [heq, List.cons_append, List.singleton_append, Scan.closesAtEnd_quoted rfl, Scan.closesAtEnd_quoted rfl,
        step_escape, ih]

end Escapes

/-- What a scan outside of literals reads without coming to a parenthesis. -/
structure Skipped (text : String) : Prop where
  ne_empty : text ≠ ""
  head : text.toList.head? ≠ some '('
  last : text.toList.getLast? ≠ some ')'
  skip : ∀ depth rest, (Scan.mk depth none false).closesAtEnd (text.toList ++ rest) =
    (Scan.mk depth none false).closesAtEnd rest

theorem skipped_quoted {quote : Char} (hquote : quote = '"' ∨ quote = '\x27') (cs : List Char) :
    Skipped (quoted quote cs) := by
  have hparen : quote ≠ '(' ∧ quote ≠ ')' := by rcases hquote with rfl | rfl <;> decide
  have hlist : (quoted quote cs).toList = quote :: (escape quote cs ++ [quote]) := String.toList_ofList
  refine ⟨fun hempty => ?_, ?_, ?_, fun depth rest => ?_⟩
  · rw [hempty] at hlist
    cases hlist
  · rw [hlist]
    exact fun h => hparen.1 (Option.some.inj h)
  · rw [hlist, ← List.cons_append, List.getLast?_concat]
    exact fun h => hparen.2 (Option.some.inj h)
  · obtain ⟨hopen, hclose⟩ := step_quote hquote depth
    rw [hlist, List.cons_append, Scan.closesAtEnd, if_neg (by simp [hparen.2]), hopen, List.append_assoc,
      closesAtEnd_escape hquote, List.singleton_append, Scan.closesAtEnd_quoted rfl, hclose]

/-- The characters that mean something to a scan. -/
def scanMarks : List Char :=
  ['(', ')', '"', '\x27']

theorem skipped_of_free {text : String} (hne : text ≠ "") (h : Free scanMarks text) : Skipped text := by
  have hplain : ∀ c ∈ text.toList, c ≠ '(' ∧ c ≠ ')' ∧ c ≠ '"' ∧ c ≠ '\x27' := by
    intro c hc
    simpa [scanMarks] using h c hc
  refine ⟨hne, fun hhead => (hplain _ (List.mem_of_head? hhead)).1 rfl,
    fun hlast => (hplain _ (List.mem_of_getLast? hlast)).2.1 rfl, fun depth rest => ?_⟩
  generalize text.toList = cs at hplain
  induction cs with
  | nil => rfl
  | cons c cs ih =>
    obtain ⟨⟨hopen, hclose, hdouble, hsingle⟩, hcs⟩ := List.forall_mem_cons.mp hplain
    have hstep : (Scan.mk depth none false).step c = ⟨depth, none, false⟩ := by
      simp [Scan.step, hopen, hclose, hdouble, hsingle]
    rw [List.cons_append, Scan.closesAtEnd, if_neg (by simp [hclose]), hstep, ih hcs]

theorem Scan.Fair.foldl {s : Scan} (h : s.Fair) (cs : List Char) : (cs.foldl Scan.step s).Fair := by
  induction cs generalizing s with
  | nil => exact h
  | cons c cs ih => exact ih (h.step c)

/-- A scan that does not end in `cs` goes on with what follows it. -/
theorem Scan.closesAtEnd_append_congr {xs ys : List Char} (hempty : xs.isEmpty = ys.isEmpty) :
    ∀ (cs : List Char) {s : Scan}, (cs.foldl Scan.step s).closesAtEnd xs = (cs.foldl Scan.step s).closesAtEnd ys →
      s.closesAtEnd (cs ++ xs) = s.closesAtEnd (cs ++ ys)
  | [], _, h => h
  | c :: cs, s, h => by
    have hrest : (cs ++ xs).isEmpty = (cs ++ ys).isEmpty := by
      cases cs with
      | nil => exact hempty
      | cons => rfl
    rw [List.cons_append, List.cons_append, Scan.closesAtEnd, Scan.closesAtEnd, hrest,
      Scan.closesAtEnd_append_congr hempty cs h]

/-- It does not matter to a group which text without parentheses stands at a place outside of its literals. -/
theorem Skipped.isGroup_eq {middle other before after : String} (hmiddle : Skipped middle)
    (hother : Skipped other) (hbefore : (before.toList.foldl Scan.step {}).quote = none) :
    isGroup (before ++ middle ++ after) = isGroup (before ++ other ++ after) := by
  have hhead : ∀ text : String, Skipped text →
      ((before ++ text ++ after).toList.head? == some '(') = (before.toList.head? == some '(') := by
    intro text htext
    obtain ⟨c, cs, hcs⟩ := List.exists_cons_of_ne_nil fun h => htext.ne_empty (String.toList_eq_nil_iff.mp h)
    have hc := htext.head
    rw [hcs, List.head?_cons] at hc
    rw [String.toList_append, String.toList_append, hcs]
    cases before.toList with
    | nil => simpa using fun h => hc (congrArg some h)
    | cons => rfl
  have hlast : ∀ text : String, Skipped text →
      ((before ++ text ++ after).toList.getLast? == some ')') = (after.toList.getLast? == some ')') := by
    intro text htext
    rw [String.toList_append, List.getLast?_append]
    cases hafter : after.toList.getLast? with
    | some c => rfl
    | none =>
      have hsome : text.toList.getLast?.isSome = true := by simpa using htext.ne_empty
      rw [Option.none_or, String.toList_append, List.getLast?_append, Option.or_of_isSome hsome]
      simpa using htext.last
  have hscan : ({} : Scan).closesAtEnd (before ++ middle ++ after).toList =
      ({} : Scan).closesAtEnd (before ++ other ++ after).toList := by
    rw [String.toList_append, String.toList_append, String.toList_append, String.toList_append,
      List.append_assoc, List.append_assoc]
    have hfilled : ∀ text : String, Skipped text → (text.toList ++ after.toList).isEmpty = false := by
      intro text htext
      simp [htext.ne_empty]
    have hescaped := (Scan.fair_start.foldl before.toList).escaped hbefore
    refine Scan.closesAtEnd_append_congr ?_ _ ?_
    · rw [hfilled _ hmiddle, hfilled _ hother]
    · rcases hstate : before.toList.foldl Scan.step {} with ⟨depth, quote, escaped⟩
      rw [hstate] at hbefore hescaped
      cases hbefore
      cases hescaped
      rw [hmiddle.skip, hother.skip]
  simp only [isGroup, hhead _ hmiddle, hhead _ hother, hlast _ hmiddle, hlast _ hother, hscan]

end Text

open Text

/-! ### Rendered constants -/

/-- The quote that delimits a text constant, and what the constant holds. -/
def Constant.quotedText? : Constant → Option (Char × List Char)
  | .char value => some ('\x27', [value])
  | .string value => some ('"', value.toList)
  | _ => none

theorem Constant.quotedText?_cases {value : Constant} {quote : Char} {cs : List Char}
    (h : value.quotedText? = some (quote, cs)) : (quote = '"' ∨ quote = '\x27') ∧
      ∀ env s, (Render.constantText value).runOn env s = (.ok (quoted quote cs), s) := by
  cases value with
  | char c =>
    cases h
    exact ⟨.inr rfl, fun _ _ => rfl⟩
  | string text =>
    cases h
    exact ⟨.inl rfl, fun _ _ => rfl⟩
  | _ => cases h

theorem render_constant {env : Env} (henv : env.registry = .standard) {id : Nat} {value : Constant} {ty : Ty}
    {text : String} (h : ∀ s, (Render.constantText value).runOn env s = (.ok text, s)) :
    (Expr.constant id value ty).render env = .ok text := by
  have hfind : env.registry.find? (Expr.constant id value ty).kind =
      some (.of (Expr.constant id value ty).kind.renderer) := by rw [henv, Registry.standard_find?]
  have hrun : (Renderer.render (visit 0) (.constant id value ty) .constant).runOn env
      ((Session.start (.constant id value ty)).push (.constant id value ty)) =
        (.ok text, (Session.start (.constant id value ty)).push (.constant id value ty)) := h _
  rw [Expr.render, RenderM.textOf, Expr.height, runOn_visit_new rfl hfind]
  simp only [Registration.of, Expr.kind, Kind.renderer, hrun]

/-- A character or a text is shown as a literal on one line, wherever it stands. The literal is read back as
    what the constant holds, whatever follows it. A scan from outside of all literals is inside of it from its
    first character to its last, at the same depth, and outside of it right after. At a place outside of
    literals it is to a group as any name is. -/
theorem text_literal_reads_back_closed (env : Env) (henv : env.registry = .standard) (id : Nat)
    (value : Constant) (ty : Ty) (quote : Char) (cs : List Char)
    (hvalue : value.quotedText? = some (quote, cs)) :
    ∃ literal, (Expr.constant id value ty).render env = .ok literal ∧
      (∀ s, (Render.constant (.constant id value ty)).runOn env s = (.ok literal, s)) ∧
      '\n' ∉ literal.toList ∧
      (∀ rest, readLiteral (literal.toList ++ rest) = some (cs, rest)) ∧
      (∀ depth, literal.toList.foldl Scan.step ⟨depth, none, false⟩ = ⟨depth, none, false⟩ ∧
        ∀ front back, literal.toList = front ++ back → front ≠ [] → back ≠ [] →
          (front.foldl Scan.step ⟨depth, none, false⟩).quote = some quote ∧
          (front.foldl Scan.step ⟨depth, none, false⟩).depth = depth) ∧
      ∀ before after name, (before.toList.foldl Scan.step {}).quote = none → name ≠ "" → Free scanMarks name →
        isGroup (before ++ literal ++ after) = isGroup (before ++ name ++ after) := by
  obtain ⟨hquote, hrun⟩ := Constant.quotedText?_cases hvalue
  refine ⟨quoted quote cs, render_constant henv (hrun env), hrun env, fun hmem => ?_,
    readLiteral_quoted hquote cs, fun depth => foldl_quoted hquote depth cs,
    fun before after name hbefore hne hname => ?_⟩
  · rw [quoted, String.toList_ofList, List.mem_cons, List.mem_append, List.mem_singleton] at hmem
    have hdelimiter : '\n' ≠ quote := by rcases hquote with rfl | rfl <;> decide
    rcases hmem with hmem | hmem | hmem
    · exact hdelimiter hmem
    · exact newline_not_mem_escape hquote cs hmem
    · exact hdelimiter hmem
  · exact (skipped_quoted hquote cs).isGroup_eq (skipped_of_free hne hname) hbefore

section Mixed

/-- A text with both quotes, both parentheses, a backslash, a line break and a digit after a zero. -/
private def mixed : String :=
  "\")(\\\n\x000'"

/-- The parentheses of the sum match although the first one in the literal does not open. -/
theorem text_literal_reads_back_closed_mixed :
    ({} : Env).registry = .standard ∧ (Constant.string mixed).quotedText? = some ('"', mixed.toList) ∧
    ("(".toList.foldl Scan.step {}).quote = none ∧ Free scanMarks "s" ∧
    ∃ literal, (Expr.constant 0 (.string mixed) .string).render {} = .ok literal ∧ '\n' ∉ literal.toList ∧
      readLiteral literal.toList = some (mixed.toList, []) ∧ isGroup ("(" ++ literal ++ " + x)") = true := by
  have henv : ({} : Env).registry = .standard := by simp
  have hname : Free scanMarks "s" := by decide
  obtain ⟨literal, hrender, -, hline, hread, -, hgroup⟩ :=
    text_literal_reads_back_closed {} henv 0 (.string mixed) .string '"' mixed.toList rfl
  refine ⟨henv, rfl, rfl, hname, literal, hrender, hline, ?_, ?_⟩
  · have hwhole := hread []
    rwa [List.append_nil] at hwhole
  · rw [hgroup "(" " + x)" "s" rfl (by decide) hname]
    decide

end Mixed

end ExprText
