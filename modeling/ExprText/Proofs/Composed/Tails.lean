import ExprText.Proofs.Composed.Endings
import ExprText.Proofs.Composed.Operators
import ExprText.Proofs.Text.Braces

/-! # Last parts

A node can end with the text of a node below it: the value of an assignment or of a `return`, the operand
behind an operator, the body of a lambda. Then that text decides how the node ends. All other assignments,
operators, calls and jumps end with a word or a bracket of their own, which is no brace. -/

namespace ExprText

open Text Render RenderM Session

namespace Expr

/-- Whether a node is a call that concatenates strings. -/
def isConcat : Expr → Bool
  | .call _ subject method _ => isConcatenation subject method
  | _ => false

/-- The node whose text ends the text of a node, outside of all its brackets. -/
def last? : Expr → Option Expr
  | .assign _ _ _ value => if value.isBlock || value.isAssign then none else some value
  | .unary _ op operand _ => if op.isPostfix || needsGrouping operand then none else some operand
  | .call _ subject method args =>
    if isConcatenation subject method then
      ((concatenated args).map concatenand).getLast?.filter (!·.isWrapped)
    else if isIndexer method && method.accessor.any (·.isSetter) then args.getLast?
    else none
  | .lambda _ _ body _ => if body.isBraced || body.ty.isVoid then none else some body
  | .return _ _ value => value
  | _ => none

/-- The nodes whose texts are exposed before the last one. -/
def leading : Expr → List Expr
  | .assign _ _ target _ => [target]
  | .call _ subject _ _ => subject.toList.filter (!needsGrouping ·)
  | _ => []

/-- Whether a node does something by itself: an assignment, an operator, a call or a jump. -/
def isAction : Expr → Bool
  | .assign .. | .unary .. | .call .. | .invoke .. | .new .. | .break .. | .continue .. | .return .. => true
  | _ => false

/-- Whether a node is a name, a literal, a member or an index. -/
def isPlain : Expr → Bool
  | .constant .. | .variable .. | .default .. | .member .. | .index .. => true
  | _ => false

end Expr

/-- The text of the last part of `e`, as `e` writes it. -/
def Session.lastAt (s : Session) (path : List Expr) (e c : Expr) : String :=
  match e with
  | .unary .. | .return .. => s.textAt (e :: path) c
  | .call _ subject method _ =>
    if isConcatenation subject method then s.textAt (e :: path) c else s.statementAt (e :: path) c
  | _ => s.statementAt (e :: path) c

theorem Session.lastAt_cases (s : Session) (path : List Expr) (e c : Expr) :
    s.lastAt path e c = s.textAt (e :: path) c ∨ s.lastAt path e c = withoutParens (s.textAt (e :: path) c) := by
  have hstripped := strippedAt_cases (e :: path) c (s.textAt (e :: path) c)
  unfold Session.lastAt
  split
  · exact .inl rfl
  · exact .inl rfl
  · split
    · exact .inl rfl
    · exact hstripped
  · exact hstripped

/-! ### Ends of types and arguments -/

theorem Text.getLast?_argumentList (settings : Settings) (opening closing : String) {c : Char}
    (h : closing.toList.getLast? = some c) (texts : List String) :
    (settings.argumentList opening closing texts).toList.getLast? = some c := by
  unfold Settings.argumentList
  dsimp only
  split <;> rw [String.toList_append, List.getLast?_append, h, Option.some_or]

theorem unbraced_display {ty : Ty} (h : ∀ w ∈ ty.spellings, IsName w) (q : Bool) :
    ¬ClosesBrace (ty.display q) := by
  have hfree : Free ['\x7d'] (ty.display q) :=
    Ty.free_display (by decide +kernel) q ty fun w hw => (h w hw).2.mono (by decide)
  exact fun hlast => hfree _ (List.mem_of_getLast? hlast) List.mem_cons_self

/-! ### Operators -/

section Operators
variable {settings : Settings} {qualified : Bool} {s : Session} {path : List Expr} {known : List Nat}
  {text : String} {i : Nat}

theorem runOn_assignedText_recall {env : Env} {u : Session} (value : Expr) :
    (assignedText (s.recall path) value).runOn env u =
      (.ok (if value.isBlock || value.isAssign then withParens (unterminated (s.textAt path value))
        else u.stripped value (s.textAt path value)), u) := by
  cases value <;> rfl

theorem Session.Composes.assign_eq {op : AssignOp} {target value : Expr} {env : Env}
    (h : s.Composes env path known (.assign i op target value) text) :
    text = s.textAt (.assign i op target value :: path) target ++ (" " ++ op.symbol ++ " ") ++
      if value.isBlock || value.isAssign then
        withParens (unterminated (s.textAt (.assign i op target value :: path) value))
      else s.statementAt (.assign i op target value :: path) value := by
  obtain ⟨u, v, hpath, -, hrun⟩ := h.exists_run
  have hrun : (assign (s.recall (.assign i op target value :: path)) (.assign i op target value)).runOn env u =
    (.ok text, v) := hrun
  rw [assign, runOn_bind_ok runOn_recall, runOn_bind_ok (runOn_assignedText_recall value),
    stripped_eq_strippedAt hpath] at hrun
  rw [eq_of_runOn_pure hrun]
  simp only [Session.statementAt, String.append_assoc]

theorem Session.Composes.unary_eq {op : UnaryOp} {operand : Expr} {ty : Ty} {env : Env}
    (h : s.Composes env path known (.unary i op operand ty) text)
    (hchecked : carriesChecked path.head? (.unary i op operand ty) = false) :
    text = unaryText env op operand.ty ty (if needsGrouping operand then
        withParens (s.operandAt (.unary i op operand ty :: path) operand)
      else s.textAt (.unary i op operand ty :: path) operand) := by
  have heq := h.unary_eq_wrapped
  rwa [hchecked, if_neg Bool.false_ne_true] at heq

/-- A unary operator stands before its operand, or ends by itself. -/
theorem unaryText_cases (settings : Settings) (qualified : Bool) (op : UnaryOp) (operandTy : Ty) {ty : Ty}
    {given : String} (hspelled : ∀ w ∈ ty.spellings, IsName w) (hgiven : Balanced given) :
    (op.isPostfix = true → Unbraced (unaryText { settings, qualified } op operandTy ty given)) ∧
    (op.isPostfix = false → ∃ front, Leads front ∧ (Unbroken front ∧ Unbroken (withoutParens front)) ∧
      unaryText { settings, qualified } op operandTy ty given = front ++ given) := by
  have hty : Phrase (ty.display qualified) := phrase_display hspelled qualified
  have after : ∀ (w : String) (c : Char), w.toList.getLast? = some c → c ≠ ')' ∧ c ≠ '\x7d' →
      Unbraced (given ++ w) := by
    intro w c hlast hc
    refine .of_last (c := c) ?_ hc
    rw [String.toList_append, List.getLast?_append, hlast, Option.some_or]
  have before : ∀ w ∈ ["-", "+", "~", "!", "++", "--"], ∃ front, Leads front ∧
      (Unbroken front ∧ Unbroken (withoutParens front)) ∧ w ++ given = front ++ given := by
    have hall : ∀ w ∈ ["-", "+", "~", "!", "++", "--"], (Unbroken w ∧ Unbroken (withoutParens w)) ∧ w ≠ "" ∧
        ¬ClosesBrace w ∧ ¬ClosesBrace (withoutParens w) := by
      decide
    intro w hw
    obtain ⟨hunbroken, hne, hwhole, hinner⟩ := hall w hw
    exact ⟨w, ⟨hunbroken.1.balanced, hne, hwhole, hinner⟩, hunbroken, rfl⟩
  have hcast : Leads ("(" ++ ty.display qualified ++ ")") := by
    refine ⟨hty.balanced.parens, by simp [← String.toList_inj], ?_, ?_⟩
    · exact not_closesBrace_paren _
    · rw [withoutParens_parens hty.balanced]
      exact unbraced_display hspelled qualified
  have htypeAs : Unbraced ("(" ++ given ++ " as " ++ ty.display qualified ++ ")") := by
    refine ⟨not_closesBrace_paren _, ?_⟩
    have hword : Balanced " as " := by decide
    have hinner : "(" ++ given ++ " as " ++ ty.display qualified ++ ")" =
        "(" ++ (given ++ " as " ++ ty.display qualified) ++ ")" := by simp only [String.append_assoc]
    rw [hinner, withoutParens_parens ((hgiven.append hword).append hty.balanced), closesBrace_append]
    rintro (hlast | ⟨-, hlast⟩)
    · exact unbraced_display hspelled qualified hlast
    · simp [ClosesBrace] at hlast
  cases op with
  | postIncrementAssign => exact ⟨fun _ => after "++" '+' rfl (by decide), fun h => by cases h⟩
  | postDecrementAssign => exact ⟨fun _ => after "--" '-' rfl (by decide), fun h => by cases h⟩
  | arrayLength => exact ⟨fun _ => after ".Length" 'h' rfl (by decide), fun h => by cases h⟩
  | typeAs => exact ⟨fun _ => htypeAs, fun h => by cases h⟩
  | convert | convertChecked =>
    refine ⟨fun h => (by cases h), fun _ => ⟨_, hcast, ⟨.parens hty.balanced, ?_⟩, rfl⟩⟩
    rw [withoutParens_parens hty.balanced]
    exact hty.toUnbroken
  | not =>
    refine ⟨fun h => (by cases h), fun _ => ?_⟩
    unfold unaryText
    dsimp only
    split
    · exact before "~" (by decide)
    · exact before "!" (by decide)
  | _ => exact ⟨fun h => (by cases h), fun _ => before _ (by decide)⟩

end Operators

/-! ### Calls -/

section Calls
variable {settings : Settings} {qualified : Bool} {s u v : Session} {path : List Expr} {text : String}
  {i : Nat} {subject : Option Expr} {method : Method} {args : List Expr} {target : Expr}

theorem balanced_withParens {text : String} (h : Balanced text) : Balanced (withParens text) :=
  h.phrase_withParens.balanced

theorem balanced_receiverAt {c : Expr} (h : Balanced (s.textAt path c)) : Balanced (s.receiverAt path c) := by
  unfold Session.receiverAt
  split
  · exact balanced_withParens h
  · exact h

theorem balanced_operandAt {c : Expr} (h : Balanced (s.textAt path c)) : Balanced (s.operandAt path c) := by
  unfold Session.operandAt
  split
  · exact balanced_withParens h
  · exact h

/-- Arguments in parentheses end a text. -/
theorem Text.Unbraced.arguments {front : String} (hfront : Balanced front) (hne : front ≠ "")
    (texts : List String) : Unbraced (front ++ settings.argumentList "(" ")" texts) :=
  .append_paren hfront hne (getLast?_argumentList _ _ _ rfl _)

theorem unbraced_invoke (hbalanced : ∀ c ∈ target :: args, Balanced (s.textAt path c))
    (hrun : (invoke (s.recall path) target args).runOn { settings, qualified } u = (.ok text, v)) :
    Unbraced text := by
  obtain ⟨texts, -, rfl⟩ := exists_invoke_eq hbalanced hrun
  have hword : Balanced ".Invoke" := by decide
  have hreceiver := balanced_receiverAt (hbalanced target List.mem_cons_self)
  exact .arguments (hreceiver.append hword) (append_ne_empty (.inr (by decide))) texts

theorem unbraced_new {constructor : Option Method} {ty : Ty}
    (hspelled : ∀ w ∈ (Expr.new i ty constructor args).spellings, IsName w)
    (hfits : Counted args (constructor.map Method.params))
    (hbalanced : ∀ c ∈ argumentsNodes args (constructor.map Method.params), Balanced (s.textAt path c))
    (hrun : (new (s.recall path) (.new i ty constructor args)).runOn { settings, qualified } u =
      (.ok text, v)) : Unbraced text := by
  have hty := phrase_display (fun w hw => hspelled w (List.mem_append_left _ hw)) qualified
  have hword : Balanced "new " := by decide
  obtain ⟨texts, htexts, -⟩ := exists_parameters { settings, qualified } u hfits hbalanced
  rw [new, runOn_bind_ok htexts, runOn_bind_ok (runOn_typeName ty)] at hrun
  obtain rfl := eq_of_runOn_pure hrun
  exact .arguments (hword.append hty.balanced) (append_ne_empty (.inl (by decide))) texts

theorem unbraced_methodCall (hconcat : isConcatenation subject method = false)
    (hindexer : isIndexer method = false)
    (hspelled : ∀ w ∈ (Expr.call i subject method args).spellings, IsName w)
    (hfits : CallFits subject method args)
    (hbalanced : ∀ c ∈ callNodes subject method args, Balanced (s.textAt path c))
    (hrun : (methodCall (s.recall path) (.call i subject method args) subject method args).runOn
      { settings, qualified } u = (.ok text, v)) : Unbraced text := by
  have hown : ∀ w ∈ method.spellings, IsName w := fun w hw => hspelled w (List.mem_append_left _ hw)
  obtain ⟨hname, hothers⟩ := List.forall_mem_cons.mp hown
  obtain ⟨hty, -⟩ := List.forall_mem_append.mp hothers
  obtain ⟨generics, texts, hgenerics, -, -, hcases⟩ :=
    exists_methodCall_eq hconcat hindexer hown hfits hbalanced (phrase_display hty qualified).balanced
      (fun _ _ hc => balanced_receiverAt hc) hrun
  have hword : Balanced (method.name ++ generics) :=
    (balanced_of_free (hname.2.mono (by decide))).append hgenerics.balanced
  have hne : method.name ++ generics ≠ "" := append_ne_empty (.inl hname.1)
  rcases hcases with rfl | ⟨receiver, hfirst, dot, hdot, rfl⟩
  · exact .arguments hword hne texts
  · have hdots : Balanced dot := by
      have hpoint : Unbroken "." := by decide
      have hbreak : Unbroken "\n" := by decide
      rcases List.mem_cons.mp hdot with rfl | hdot
      · exact hpoint.balanced
      · rw [List.mem_singleton.mp hdot]
        exact ((hbreak.append (unbroken_blanks _)).append hpoint).balanced
    rw [← String.append_assoc]
    exact .arguments ((hfirst.append hdots).append hword) (append_ne_empty (.inr hne)) texts

end Calls

/-! ### Nodes -/

theorem Expr.mem_exposed_of_last? {e c : Expr} (h : e.last? = some c) : c ∈ e.exposed := by
  cases e with
  | assign i op target value =>
    rw [last?] at h
    split at h
    · cases h
    · next hplain =>
      obtain rfl : value = c := Option.some.inj h
      refine List.mem_cons_of_mem _ (List.mem_filter.mpr ⟨List.mem_cons_self, ?_⟩)
      simpa using hplain
  | unary i op operand ty =>
    rw [last?] at h
    split at h
    · cases h
    · next hplain =>
      cases h
      refine List.mem_filter.mpr ⟨List.mem_cons_self, ?_⟩
      simp only [Bool.or_eq_true, not_or] at hplain
      simp [hplain.2]
  | call i subject method args =>
    rw [last?] at h
    rw [exposed]
    split at h
    · next hconcat =>
      rw [if_pos hconcat]
      obtain ⟨hlast, hplain⟩ := Option.filter_eq_some_iff.mp h
      exact List.mem_filter.mpr ⟨List.mem_of_getLast? hlast, hplain⟩
    · next hconcat =>
      split at h
      · next hsetter =>
        rw [Bool.and_eq_true] at hsetter
        rw [if_neg hconcat, if_pos hsetter.1, if_pos hsetter.2]
        exact List.mem_append_right _ (Option.mem_toList.mpr h)
      · cases h
  | lambda i params body ty =>
    rw [last?] at h
    split at h
    · cases h
    · next hplain =>
      cases h
      rw [exposed, if_neg (not_or.mp (Bool.or_eq_true _ _ ▸ hplain)).1]
      exact List.mem_cons_self
  | «return» i target value =>
    cases h
    exact List.mem_cons_self
  | _ => cases h

/-- What is exposed before the last part is shown as a value. -/
theorem Expr.mem_shown_of_mem_leading {e c d : Expr} (hlast : e.last? = some c) (hconcat : e.isConcat = false)
    (hd : d ∈ e.leading) : d ∈ e.shown ∧ Position.under d (some e) = .value := by
  cases e with
  | assign i op target value =>
    rw [List.mem_singleton.mp hd]
    exact ⟨List.mem_cons_self, rfl⟩
  | call i subject method args =>
    have hconcat : isConcatenation subject method = false := hconcat
    rw [Expr.last?, hconcat, if_neg Bool.false_ne_true] at hlast
    split at hlast
    · next hsetter =>
      rw [Bool.and_eq_true] at hsetter
      refine ⟨?_, rfl⟩
      have hmem : d ∈ subject.toList := (List.mem_filter.mp hd).1
      simp only [Expr.shown, callNodes, hconcat, hsetter.1, Bool.false_eq_true, if_false, if_true]
      exact List.mem_append_left _ hmem
    · cases hlast
  | _ => cases hd

section Nodes
variable {settings : Settings} {qualified : Bool} {s : Session} {path : List Expr} {known : List Nat}
  {e c : Expr} {text : String}

/-- The body of a lambda that is not in braces. -/
theorem runOn_lambdaBody_recall {env : Env} {u : Session} {body : Expr} (hbraced : body.isBraced = false)
    (hvoid : body.ty.isVoid = false) : (lambdaBody (s.recall path) body).runOn env u =
      (.ok (" " ++ u.stripped body (s.textAt path body)), u) := by
  have hempty : body.isEmpty = false := by
    cases body <;> first | rfl | exact hbraced
  have hplain : (do
      let given ← s.recall path body
      if isMultiLine given && body.ty.isVoid then return (← RenderM.body (s.recall path) body).bracketed
      else return " " ++ (← stripped body given) : RenderM String).runOn env u =
        (.ok (" " ++ u.stripped body (s.textAt path body)), u) := by
    rw [runOn_bind_ok runOn_recall, hvoid, Bool.and_false, if_neg Bool.false_ne_true,
      runOn_bind_ok (runOn_strip _ _), runOn_pure]
  unfold lambdaBody
  rw [hempty, if_neg Bool.false_ne_true]
  cases body with
  | block | loop => cases hbraced
  | _ => exact hplain

/-- What a node writes before its last part. -/
theorem Session.Composes.exists_front (h : s.Composes { settings, qualified } path known e text)
    (hspelled : ∀ w ∈ e.spellings, IsName w) (hlegible : s.names.Legible phraseMarks)
    (hbalanced : ∀ d ∈ e.shown, Balanced (s.textAt (e :: path) d))
    (hchecked : carriesChecked path.head? e = false) (hconcat : e.isConcat = false)
    (hlast : e.last? = some c) : ∃ front, text = front ++ s.lastAt path e c ∧ Leads front ∧
      ((∀ d ∈ e.leading, Portable (s.textAt (e :: path) d)) →
        Unbroken front ∧ Unbroken (withoutParens front)) := by
  obtain ⟨u, v, hpath, hnames, hrun⟩ := h.exists_run
  cases e with
  | assign i op target value =>
    rw [Expr.last?] at hlast
    split at hlast
    · cases hlast
    · next hplain =>
      obtain rfl : value = c := Option.some.inj hlast
      obtain ⟨hsymbol, -⟩ := unbroken_assignSymbol op
      have htarget := hbalanced target List.mem_cons_self
      have hblank : (" " ++ op.symbol ++ " ").toList.getLast? = some ' ' := by cases op <;> decide
      exact ⟨_, by rw [h.assign_eq, if_neg hplain]; rfl, .append_blank htarget hsymbol.balanced hblank,
        fun hportable => (hportable target List.mem_cons_self).toUnbroken.append_blank hsymbol hblank⟩
  | unary i op operand ty =>
    rw [Expr.last?] at hlast
    split at hlast
    · cases hlast
    · next hplain =>
      obtain rfl : operand = c := Option.some.inj hlast
      obtain ⟨hstart, hgroup⟩ := not_or.mp (Bool.or_eq_true _ _ ▸ hplain)
      have heq := h.unary_eq hchecked
      rw [if_neg hgroup] at heq
      obtain ⟨-, hfront⟩ := unaryText_cases settings qualified op operand.ty
        (fun w hw => hspelled w (List.mem_append_left _ hw)) (hbalanced operand List.mem_cons_self)
      obtain ⟨front, hleads, hunbroken, hgiven⟩ := hfront (by simpa using hstart)
      exact ⟨front, heq.trans hgiven, hleads, fun _ => hunbroken⟩
  | call i subject method args =>
    have hconcat : isConcatenation subject method = false := hconcat
    rw [Expr.last?, hconcat, if_neg Bool.false_ne_true] at hlast
    split at hlast
    · next hsetter =>
      rw [Bool.and_eq_true] at hsetter
      have hnodes : ∀ d ∈ subject.toList ++ args, Balanced (s.textAt (.call i subject method args :: path) d) := by
        simpa [Expr.shown, callNodes, hconcat, hsetter.1] using hbalanced
      have hrun : (call (s.recall (.call i subject method args :: path)) (.call i subject method args)).runOn
        { settings, qualified } u = (.ok text, v) := hrun
      simp only [call, hconcat, hsetter.1, Bool.false_eq_true, if_false, if_true] at hrun
      obtain ⟨receiver, hreceiver, texts, hall, hcases⟩ := exists_indexer_eq hnodes hrun
      have hmem : receiver ∈ subject.toList := Option.mem_toList.mpr hreceiver
      have hbelow := hnodes receiver (List.mem_append_left _ hmem)
      have hlist : Unbroken (settings.argumentList "[" "]" texts) := .indexList hall
      have hword : Unbroken " = " := by decide
      rcases hcases with ⟨hgetter, -⟩ | ⟨-, value, hvalue, rfl⟩
      · rw [hsetter.2] at hgetter
        cases hgetter
      · obtain rfl := Option.some.inj (hvalue.symm.trans hlast)
        refine ⟨_, by rw [stripped_eq_strippedAt hpath, Session.lastAt, hconcat]; rfl,
          .append_blank ((balanced_receiverAt hbelow).append hlist.balanced) hword.balanced (by decide),
          fun hportable => ?_⟩
        have hphrase := phrase_receiverAt hbelow fun hgroup =>
          hportable receiver (List.mem_filter.mpr ⟨hmem, by simp [hgroup]⟩)
        exact (hphrase.toUnbroken.append hlist).append_blank hword (by decide)
    · cases hlast
  | lambda i params body ty =>
    rw [Expr.last?] at hlast
    split at hlast
    · cases hlast
    · next hplain =>
      obtain rfl : body = c := Option.some.inj hlast
      obtain ⟨hbraced, hvoid⟩ := not_or.mp (Bool.or_eq_true _ _ ▸ hplain)
      rw [← hnames] at hlegible
      obtain ⟨names, w, hgiven, hstill, hfree⟩ :=
        exists_parameterNames { settings, qualified } hspelled hlegible fun p hp => List.mem_map_of_mem hp
      have hrun : (Render.lambda (s.recall (.lambda i params body ty :: path)) (.lambda i params body ty)).runOn
        { settings, qualified } u = (.ok text, v) := hrun
      rw [Render.lambda, runOn_bind_ok hgiven, runOn_bind_ok (runOn_lambdaBody_recall (by simpa using hbraced)
        (by simpa using hvoid)), stripped_eq_strippedAt (hstill.trans hpath)] at hrun
      have harrow : Unbroken " => " := by decide
      refine ⟨parameterNames names ++ " => ", ?_,
        .append_blank (phrase_parameterNames hfree).balanced harrow.balanced (by decide),
        fun _ => (phrase_parameterNames hfree).toUnbroken.append_blank harrow (by decide)⟩
      rw [eq_of_runOn_pure hrun]
      simp only [Session.lastAt, Session.statementAt, String.append_assoc]
      rfl
  | «return» i target value =>
    cases hlast
    have hrun : (Render.loop (s.recall (.return i target (some c) :: path)) (.return i target (some c))).runOn
      { settings, qualified } u = (.ok text, v) := hrun
    rw [Render.loop, runOn_bind_ok runOn_recall] at hrun
    have hword : Unbroken "return" := by decide
    exact ⟨"return ", eq_of_runOn_pure hrun, .append_blank (a := "return") (b := " ") (by decide) (by decide) rfl,
      fun _ => hword.append_blank (b := " ") (by decide) (by decide)⟩
  | _ => cases hlast

theorem unbraced_jump (visit : Visit) {u v : Session}
    (hkind : e.kind = .break ∨ e.kind = .continue ∨ e.kind = .return) (hnone : e.last? = none)
    (hrun : (Render.loop visit e).runOn { settings, qualified } u = (.ok text, v)) : Unbraced text := by
  have hplain : ∀ w ∈ ["break", "continue", "return"], ¬ClosesBrace w ∧ ¬ClosesBrace (withoutParens w) := by
    decide
  have hmem : text ∈ ["break", "continue", "return"] := by
    cases e with
    | «break» =>
      rw [eq_of_runOn_jump hrun]
      decide
    | «continue» =>
      rw [eq_of_runOn_jump hrun]
      decide
    | «return» j target value =>
      cases value with
      | none =>
        rw [eq_of_runOn_pure hrun]
        decide
      | some value => cases hnone
    | _ => simp [Expr.kind] at hkind
  exact ⟨(hplain text hmem).1, (hplain text hmem).2⟩

/-- An action without a last part ends in a word or a bracket of its own. -/
theorem Session.Composes.unbraced (h : s.Composes { settings, qualified } path known e text)
    (hspelled : ∀ w ∈ e.spellings, IsName w)
    (hbalanced : ∀ d ∈ e.shown, Balanced (s.textAt (e :: path) d))
    (hchecked : carriesChecked path.head? e = false) (hconcat : e.isConcat = false)
    (haction : e.isAction = true) (hlast : e.last? = none) : Unbraced text := by
  obtain ⟨u, v, -, -, hrun⟩ := h.exists_run
  have hfits := h.fits
  cases e with
  | assign i op target value =>
    obtain ⟨htarget, -⟩ := List.forall_mem_cons.mp hbalanced
    obtain ⟨hsymbol, -⟩ := unbroken_assignSymbol op
    rw [Expr.last?] at hlast
    split at hlast
    · next hgrouped =>
      rw [h.assign_eq, if_pos hgrouped]
      refine .append_paren (htarget.append hsymbol.balanced) (append_ne_empty (.inr ?_)) (getLast?_withParens _)
      simp [← String.toList_inj]
    · cases hlast
  | unary i op operand ty =>
    have hoperand := hbalanced operand List.mem_cons_self
    have hcases : ∀ {given : String}, Balanced given → _ := fun hgiven =>
      unaryText_cases settings qualified op operand.ty (fun w hw => hspelled w (List.mem_append_left _ hw)) hgiven
    have hgiven : Balanced (withParens (s.operandAt (.unary i op operand ty :: path) operand)) := by
      refine balanced_withParens ?_
      unfold Session.operandAt
      split
      · exact balanced_withParens hoperand
      · exact hoperand
    rw [h.unary_eq hchecked]
    cases hpostfix : op.isPostfix with
    | true =>
      refine (hcases ?_).1 hpostfix
      split
      · exact hgiven
      · exact hoperand
    | false =>
      rw [Expr.last?, hpostfix, Bool.false_or] at hlast
      split at hlast
      · next hgroup =>
        obtain ⟨front, hleads, -, heq⟩ := (hcases hgiven).2 hpostfix
        rw [if_pos hgroup, heq]
        exact .append_paren hleads.balanced hleads.nonempty (getLast?_withParens _)
      · cases hlast
  | call i subject method args =>
    have hconcat : isConcatenation subject method = false := hconcat
    have hrun : (call (s.recall (.call i subject method args :: path)) (.call i subject method args)).runOn
      { settings, qualified } u = (.ok text, v) := hrun
    simp only [call, hconcat, Bool.false_eq_true, if_false] at hrun
    rw [Expr.last?, hconcat, if_neg Bool.false_ne_true] at hlast
    cases hindexer : isIndexer method with
    | true =>
      simp only [hindexer, if_true] at hrun
      have hnodes : ∀ d ∈ subject.toList ++ args, Balanced (s.textAt (.call i subject method args :: path) d) := by
        simpa [Expr.shown, callNodes, hconcat, hindexer] using hbalanced
      obtain ⟨receiver, -, texts, -, ⟨-, rfl⟩ | ⟨hsetter, value, hvalue, -⟩⟩ := exists_indexer_eq hnodes hrun
      · have hclose := getLast?_argumentList settings "[" "]" (c := ']') (by decide) texts
        refine .of_last (c := ']') ?_ (by decide)
        rw [String.toList_append, List.getLast?_append, hclose, Option.some_or]
      · rw [hindexer, hsetter, hvalue] at hlast
        cases hlast
    | false =>
      simp only [hindexer, Bool.false_eq_true, if_false] at hrun
      exact unbraced_methodCall hconcat hindexer hspelled hfits hbalanced hrun
  | invoke i target args ty => exact unbraced_invoke hbalanced hrun
  | new => exact unbraced_new hspelled hfits hbalanced hrun
  | «break» i target =>
    exact unbraced_jump (s.recall path) (e := .break i target) (by simp [Expr.kind]) hlast hrun
  | «continue» i target =>
    exact unbraced_jump (s.recall path) (e := .continue i target) (by simp [Expr.kind]) hlast hrun
  | «return» i target value =>
    exact unbraced_jump (s.recall (.return i target value :: path)) (e := .return i target value)
      (by simp [Expr.kind]) hlast hrun
  | _ => cases haction

/-! ### Names and literals -/

/-- A text ends as the name at its end does. -/
theorem Text.Unbraced.append_name (text : String) {name : String} (h : IsName name) :
    Unbraced (text ++ name) := by
  have hlist : name.toList ≠ [] := by simpa using h.1
  have hlast := h.2 _ (List.getLast_mem hlist)
  refine .of_last (c := name.toList.getLast hlist) ?_ ⟨fun heq => ?_, fun heq => ?_⟩
  · rw [String.toList_append, List.getLast?_append, List.getLast?_eq_some_getLast hlist, Option.some_or]
  · exact hlast (heq ▸ by decide)
  · exact hlast (heq ▸ by decide)

theorem unbraced_constant {u v : Session} {i : Nat} {value : Constant} {ty : Ty}
    (hspelled : ∀ w ∈ (Expr.constant i value ty).spellings, IsName w) (hlegible : u.names.Legible phraseMarks)
    (hrun : (constant (.constant i value ty)).runOn { settings, qualified } u = (.ok text, v)) :
    Unbraced text := by
  have hm : Punctuation ['(', '\x7d'] := by decide
  cases value with
  | null =>
    cases hrun
    exact .of_free (hm.free rfl)
  | bool value =>
    cases hrun
    cases value <;> exact .of_free (hm.free rfl)
  | int value =>
    cases hrun
    exact .of_free (hm.free_int _)
  | long value =>
    cases hrun
    exact .of_free ((hm.free_int _).append (hm.free rfl))
  | float bits =>
    cases hrun
    exact .of_free (hm.free_floatText _ _ rfl rfl)
  | double bits =>
    cases hrun
    exact .of_free (hm.free_floatText _ _ rfl rfl)
  | decimal digits =>
    cases hrun
    exact .of_free (((hspelled digits List.mem_cons_self).2.mono (by decide)).append (hm.free rfl))
  | char value =>
    cases hrun
    exact .of_last (getLast?_quoted _ _) (by decide)
  | string value =>
    cases hrun
    exact .of_last (getLast?_quoted _ _) (by decide)
  | type ty =>
    cases hrun
    exact .of_word (c := 't') (by decide) (by decide)
  | enum ty member =>
    cases hrun
    exact .append_name _ (hspelled member List.mem_cons_self)
  | captured object =>
    cases hrun
    exact .of_free ((hlegible.free_answer hspelled List.mem_cons_self).1.mono (by decide))

/-- Names, literals, members and indices do not end in a brace. -/
theorem Session.Composes.unbraced_plain (h : s.Composes { settings, qualified } path known e text)
    (hspelled : ∀ w ∈ e.spellings, IsName w) (hlegible : s.names.Legible phraseMarks)
    (hplain : e.isPlain = true) : Unbraced text := by
  obtain ⟨u, v, -, hnames, hrun⟩ := h.exists_run
  rw [← hnames] at hlegible
  cases e with
  | constant => exact unbraced_constant hspelled hlegible hrun
  | «variable» =>
    obtain rfl := eq_of_runOn_ask hrun
    exact .of_free ((hlegible.free_answer hspelled List.mem_cons_self).1.mono (by decide))
  | default i ty =>
    have hrun : (Render.default (.default i ty)).runOn { settings, qualified } u = (.ok text, v) := hrun
    unfold Render.default at hrun
    dsimp only at hrun
    split at hrun
    · cases hrun
      exact .of_free (by decide)
    · cases hrun
      exact .of_word (c := 'd') (by decide) (by decide)
  | member i subject target =>
    have hname : IsName target.name := hspelled _ List.mem_cons_self
    have hrun : (member (s.recall (.member i subject target :: path)) (.member i subject target)).runOn
      { settings, qualified } u = (.ok text, v) := hrun
    unfold member at hrun
    dsimp only at hrun
    split at hrun
    · next subject hstatic =>
      split at hrun
      · next object hobject =>
        obtain rfl := eq_of_runOn_ask hrun
        refine .of_free ((hlegible.free_answer hspelled ?_).1.mono (by decide))
        simp [Expr.requests, hobject]
      · rw [runOn_bind_ok runOn_receiverText_recall] at hrun
        obtain rfl := eq_of_runOn_pure hrun
        exact .append_name _ hname
    · rw [runOn_bind_ok (runOn_typeName _)] at hrun
      obtain rfl := eq_of_runOn_pure hrun
      exact .append_name _ hname
  | index i subject indices ty =>
    have hrun : (index (s.recall (.index i subject indices ty :: path)) (.index i subject indices ty)).runOn
      { settings, qualified } u = (.ok text, v) := hrun
    unfold index at hrun
    dsimp only at hrun
    split at hrun
    · cases hrun
    · rw [runOn_bind_ok runOn_receiverText_recall] at hrun
      obtain ⟨texts, w, -, hrun⟩ := exists_of_runOn_bind hrun
      rw [runOn_bind_ok (runOn_argumentList ..)] at hrun
      obtain rfl := eq_of_runOn_pure hrun
      have hclose := getLast?_argumentList settings "[" "]" (c := ']') (by decide) texts
      refine .of_last (c := ']') ?_ (by decide)
      rw [String.toList_append, List.getLast?_append, hclose, Option.some_or]
  | _ => cases hplain

/-! ### Concatenations -/

theorem RenderM.runOn_mapM {α β : Type} {env : Env} {u : Session} {f : β → RenderM α} {g : β → α} : ∀ {xs : List β},
    (∀ x ∈ xs, (f x).runOn env u = (.ok (g x), u)) → (xs.mapM f).runOn env u = (.ok (xs.map g), u)
  | [], _ => rfl
  | x :: xs, h => by
    obtain ⟨hx, hxs⟩ := List.forall_mem_cons.mp h
    rw [List.mapM_cons, runOn_bind_ok hx, runOn_bind_ok (runOn_mapM hxs), runOn_pure, List.map_cons]

/-- The operands of a concatenation with the signs between them. -/
def Session.concatenatedAt (s : Session) (path : List Expr) (args : List Expr) : String :=
  join " + " ((concatenated args).map fun x => s.operandAt path (concatenand x))

theorem Session.balanced_concatenatedAt {args : List Expr}
    (h : ∀ d ∈ (concatenated args).map concatenand, Balanced (s.textAt path d)) :
    Balanced (s.concatenatedAt path args) := by
  refine Balanced.join (by decide) fun t ht => ?_
  obtain ⟨x, hx, rfl⟩ := List.mem_map.mp ht
  exact balanced_operandAt (h _ (List.mem_map_of_mem hx))

/-- A concatenation is its operands in parentheses. -/
theorem Session.Composes.concatenation_eq {env : Env} {i : Nat} {subject : Option Expr} {method : Method}
    {args : List Expr} (h : s.Composes env path known (.call i subject method args) text)
    (hconcat : isConcatenation subject method = true) :
    text = "(" ++ s.concatenatedAt (.call i subject method args :: path) args ++ ")" := by
  obtain ⟨u, v, -, -, hrun⟩ := h.exists_run
  have hrun : (call (s.recall (.call i subject method args :: path)) (.call i subject method args)).runOn env u =
    (.ok text, v) := hrun
  have hoperands : ((concatenated args).mapM fun x =>
      operandText (s.recall (.call i subject method args :: path)) (concatenand x)).runOn env u =
        (.ok ((concatenated args).map fun x =>
          s.operandAt (.call i subject method args :: path) (concatenand x)), u) :=
    runOn_mapM fun x _ => runOn_operandText_recall
  simp only [call, hconcat, if_true] at hrun
  rw [concatenation, runOn_bind_ok hoperands] at hrun
  exact eq_of_runOn_pure hrun

/-- A concatenation ends with its last operand, without the parentheses around it. -/
theorem Session.Composes.closesBrace_concatenation (h : s.Composes { settings, qualified } path known e text)
    (hbalanced : ∀ d ∈ e.shown, Balanced (s.textAt (e :: path) d)) (hconcat : e.isConcat = true) :
    ClosesBrace (withoutParens text) ↔ ∃ d, e.last? = some d ∧ ClosesBrace (s.lastAt path e d) := by
  cases e with
  | call i subject method args =>
    have hconcat : isConcatenation subject method = true := hconcat
    have hnodes : ∀ d ∈ (concatenated args).map concatenand,
        Balanced (s.textAt (.call i subject method args :: path) d) := by
      simpa [Expr.shown, callNodes, hconcat] using hbalanced
    rw [h.concatenation_eq hconcat, withoutParens_parens (s.balanced_concatenatedAt hnodes),
      Session.concatenatedAt, closesBrace_join, List.getLast?_map]
    simp only [Expr.last?, hconcat, if_true, Session.lastAt, List.getLast?_map]
    cases (concatenated args).getLast? with
    | none => simp
    | some x =>
      simp only [Option.map_some, Option.mem_def, Option.some.injEq, exists_eq_left']
      unfold Session.operandAt
      cases hwrapped : (concatenand x).isWrapped with
      | true =>
        have hparen : ¬ClosesBrace (withParens
            (s.textAt (.call i subject method args :: path) (concatenand x))) := by
          rw [ClosesBrace, getLast?_withParens]
          decide
        simp [Option.filter, hwrapped, hparen]
      | false => simp [Option.filter, hwrapped]
  | _ => cases hconcat

/-! ### Overflow checks -/

theorem closesBrace_checkedText (indent inner : String) :
    ClosesBrace (checkedText indent inner) ↔ isMultiLine (checkedText indent inner) = true := by
  unfold checkedText
  dsimp only
  split
  · refine iff_of_true ?_ ?_
    · rw [Body.braces, ← String.append_assoc, closesBrace_append]
      exact .inl (by decide)
    · simp [isMultiLine]
  · next hline =>
    refine iff_of_false (not_closesBrace_paren _) ?_
    simpa [isMultiLine] using hline

/-- The only actions that can carry the wrapper of an overflow check are operators. -/
theorem Session.Composes.exists_checkedText {env : Env} (h : s.Composes env path known e text)
    (haction : e.isAction = true) (hchecked : carriesChecked path.head? e = true) :
    ∃ inner, text = checkedText env.indent inner := by
  cases e with
  | unary i op operand ty =>
    obtain ⟨u, v, hpath, -, hrun⟩ := h.exists_run
    have hparent : u.parent? = path.head? := by rw [Session.parent?, hpath, List.tail_cons]
    have hrun : (unary (s.recall (.unary i op operand ty :: path)) (.unary i op operand ty)).runOn env u =
      (.ok text, v) := hrun
    rw [unary, runOn_bind_ok runOn_operandText_recall] at hrun
    dsimp only at hrun
    rw [runOn_bind_ok runOn_read, runOn_wrapChecked_recall, hparent, hchecked, if_pos rfl] at hrun
    cases hrun
    exact ⟨_, rfl⟩
  | assign | call | invoke | new | «break» | «continue» | «return» =>
    simp [carriesChecked, Expr.kind, Kind.takesChecked] at hchecked
  | _ => cases haction

/-! ### Braces -/

/-- Whether a node under `parent` is written in braces to its end: an array with items, a lambda with a body in
    braces, or a block that has to be in them. -/
def Expr.endsInBraces (parent : Option Expr) : Expr → Bool
  | .newArray _ _ items => !items.isEmpty
  | .lambda _ _ body _ => body.isBraced
  | e@(.block ..) => Position.under e parent = .value
  | _ => false

theorem closesBrace_braces (text : String) : ClosesBrace (Body.braces text) := by
  rw [Body.braces, closesBrace_append]
  exact .inl (by decide)

theorem closesBrace_arrayText (array : String) (items : List String) :
    ClosesBrace (arrayText settings array items) := by
  unfold arrayText
  dsimp only
  split
  · rw [closesBrace_append]
    exact .inl (by decide)
  · rw [closesBrace_append]
    exact .inl (closesBrace_braces _)

theorem closesBrace_bracketed (b : Body) : ClosesBrace b.bracketed := by
  unfold Body.bracketed
  split
  · decide
  · rw [closesBrace_append]
    exact .inl (closesBrace_braces _)

theorem closesBrace_newArray {u v : Session} {i : Nat} {element : Ty} {items : List Expr} (hitems : items ≠ [])
    (hrun : (new (s.recall path) (.newArray i element items)).runOn { settings, qualified } u = (.ok text, v)) :
    ClosesBrace text := by
  have hend : ∀ {array : String} {u : Session}, (do
      let texts ← arguments (s.recall path) items none
      return arrayText (← read).settings array texts : RenderM String).runOn { settings, qualified } u =
        (.ok text, v) → ClosesBrace text := by
    intro array u hrun
    obtain ⟨texts, w, -, hrun⟩ := exists_of_runOn_bind hrun
    rw [runOn_bind_ok runOn_read] at hrun
    rw [eq_of_runOn_pure hrun]
    exact closesBrace_arrayText array texts
  unfold new at hrun
  dsimp only at hrun
  rw [if_neg (by simpa using hitems)] at hrun
  split at hrun
  · rw [runOn_bind_ok (runOn_pure _)] at hrun
    exact hend hrun
  · rw [runOn_bind_ok (runOn_typeName element), runOn_bind_ok (runOn_pure _)] at hrun
    exact hend hrun

theorem closesBrace_lambda {u v : Session} {i : Nat} {params : List Variable} {body : Expr} {ty : Ty}
    (hbraced : body.isBraced = true)
    (hlines : body.isConditional = true → body.ty.isVoid = true → isMultiLine (s.textAt path body) = true)
    (hrun : (Render.lambda (s.recall path) (.lambda i params body ty)).runOn { settings, qualified } u =
      (.ok text, v)) : ClosesBrace text := by
  have hbody : ∀ {u v : Session} {given : String}, (do return (← RenderM.body (s.recall path) body).bracketed :
      RenderM String).runOn { settings, qualified } u = (.ok given, v) → ClosesBrace given := by
    intro u v given hrun
    rw [runOn_bind_ok runOn_body_recall] at hrun
    rw [eq_of_runOn_pure hrun]
    exact closesBrace_bracketed _
  unfold Render.lambda at hrun
  dsimp only at hrun
  obtain ⟨names, w, -, hrun⟩ := exists_of_runOn_bind hrun
  obtain ⟨given, w', hgiven, hrun⟩ := exists_of_runOn_bind hrun
  rw [eq_of_runOn_pure hrun, closesBrace_append]
  left
  unfold lambdaBody at hgiven
  split at hgiven
  · rw [eq_of_runOn_pure hgiven]
    decide
  · next hempty =>
    cases body with
    | block | loop => exact hbody hgiven
    | conditional j test a b ty =>
      have hvoid : ty.isVoid = true := hbraced
      dsimp only at hgiven
      rw [runOn_bind_ok runOn_recall, hlines rfl hvoid, Expr.ty, hvoid, Bool.true_and, if_pos rfl] at hgiven
      exact hbody hgiven
    | _ => exact absurd hbraced hempty

end Nodes

/-- The text of a node with its last part split off. -/
theorem Session.Concludes.exists_front {root e c : Expr} {settings : Settings} {qualified : Bool} {s : Session}
    {path : List Expr} (h : s.Concludes root settings qualified) (he : root.Reaches path e)
    (hchecked : carriesChecked path.head? e = false) (hconcat : e.isConcat = false)
    (hlast : e.last? = some c) : root.Reaches (e :: path) c ∧ ∃ front, Leads front ∧
      Balanced (s.lastAt path e c) ∧ s.textAt path e = front ++ s.lastAt path e c ∧
      ((∀ d ∈ e.leading, Portable (s.textAt (e :: path) d)) →
        Unbroken front ∧ Unbroken (withoutParens front)) := by
  have hgiven := h.given path e he
  have hc : c ∈ e.shown := Expr.mem_shown_of_mem_exposed (Expr.mem_exposed_of_last? hlast)
  have hbelow := h.balanced_shown he hgiven hc
  obtain ⟨known, hcomposes⟩ := h.composed _ _ _ he hgiven
  obtain ⟨front, heq, hleads, hunbroken⟩ := hcomposes.exists_front (h.spelled e he.mem_nodes) h.legible
    (fun d hd => h.balanced_shown he hgiven hd) hchecked hconcat hlast
  refine ⟨.step he hc, front, hleads, ?_, heq, hunbroken⟩
  rcases s.lastAt_cases path e c with hsame | hsame <;> rw [hsame]
  · exact hbelow
  · exact hbelow.withoutParens

end ExprText
