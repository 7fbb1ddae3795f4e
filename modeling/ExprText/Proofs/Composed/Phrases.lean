import ExprText.Proofs.Composed.Children
import ExprText.Proofs.Composed.Parts

/-! # Phrases of nodes

Which of the texts below a node stand outside of all brackets in its own text. If these are phrases, so is
the text of the node, whatever stands in its brackets: one lemma for each family of nodes. Blocks, loops
and conditionals can be laid out as statements and are left to the modules after this one. -/

namespace ExprText

open Text Render RenderM

/-! ### Exposed nodes -/

/-- The node that is shown before the dot of a method call. -/
def receiverNodes (subject : Option Expr) (method : Method) (args : List Expr) : List Expr :=
  match method.kind with
  | .extension => args.head?.toList
  | .static => []
  | .onInstance => (subject.filter (!·.isCaptured)).toList

/-- The nodes below a node whose texts stand outside of all brackets in its own text, where the node is
    not laid out as a statement. -/
def Expr.exposed : Expr → List Expr
  | .binary _ _ left right _ => [left, right].filter (!·.isWrapped)
  | .unary _ _ operand _ => [operand].filter (!needsGrouping ·)
  | .assign _ _ target value => target :: [value].filter fun c => !c.isBlock && !c.isAssign
  | .call _ subject method args =>
    if isConcatenation subject method then
      ((concatenated args).map concatenand).filter (!·.isWrapped)
    else if isIndexer method then
      subject.toList.filter (!needsGrouping ·) ++
        if method.accessor.any (·.isSetter) then args.getLast?.toList else []
    else (receiverNodes subject method args).filter (!needsGrouping ·)
  | .invoke _ target _ _ => [target].filter (!needsGrouping ·)
  | e@(.member ..) => e.shown.filter (!needsGrouping ·)
  | .index _ subject _ _ => [subject].filter (!needsGrouping ·)
  | .lambda _ _ body _ => if body.isBraced then [] else [body]
  | e@(.conditional ..) | e@(.return ..) => e.shown
  | _ => []

theorem mem_callNodes_of_mem_receiverNodes {subject : Option Expr} {method : Method} {args : List Expr}
    (hconcat : isConcatenation subject method = false) (hindexer : isIndexer method = false) {c : Expr}
    (h : c ∈ receiverNodes subject method args) : c ∈ callNodes subject method args := by
  simp only [callNodes, hconcat, hindexer, Bool.false_eq_true, if_false]
  cases hkind : method.kind with
  | extension | onInstance =>
    simp only [receiverNodes, hkind] at h ⊢
    exact List.mem_append_left _ h
  | «static» =>
    simp only [receiverNodes, hkind] at h
    cases h

/-- What is exposed is shown. -/
theorem Expr.mem_shown_of_mem_exposed {e c : Expr} (h : c ∈ e.exposed) : c ∈ e.shown := by
  cases e with
  | binary | unary | invoke | index =>
    obtain ⟨hc, -⟩ := List.mem_filter.mp h
    simp only [shown, children, List.mem_cons, List.not_mem_nil, or_false] at hc ⊢
    tauto
  | assign i op target value =>
    rcases List.mem_cons.mp h with rfl | h
    · exact List.mem_cons_self
    · exact List.mem_cons_of_mem _ (List.mem_filter.mp h).1
  | call i subject method args =>
    rw [exposed] at h
    rw [shown]
    split at h
    · next hconcat =>
      rw [callNodes, if_pos hconcat]
      exact (List.mem_filter.mp h).1
    · next hconcat =>
      split at h
      · next hindexer =>
        rw [callNodes, if_neg hconcat, if_pos hindexer]
        rcases List.mem_append.mp h with h | h
        · exact List.mem_append_left _ (List.mem_filter.mp h).1
        · split at h
          · exact List.mem_append_right _ (List.mem_of_getLast? (Option.mem_toList.mp h))
          · cases h
      · next hindexer =>
        exact mem_callNodes_of_mem_receiverNodes (by simpa using hconcat) (by simpa using hindexer)
          (List.mem_filter.mp h).1
  | member => exact (List.mem_filter.mp h).1
  | lambda i params body ty =>
    rw [exposed] at h
    split at h
    · cases h
    · next hbraced =>
      have hempty : body.isEmpty = false := by
        cases body <;> first | rfl | simpa [isBraced] using hbraced
      rw [shown, hempty]
      exact h
  | conditional | «return» => exact h
  | _ => cases h

/-! ### Leaves -/

section Leaves
variable {settings : Settings} {qualified : Bool} {u v : Session} {text : String} {i : Nat} {ty : Ty}

theorem portable_constant {value : Constant} (hspelled : ∀ w ∈ (Expr.constant i value ty).spellings, IsName w)
    (hlegible : u.names.Legible phraseMarks)
    (hrun : (constant (.constant i value ty)).runOn { settings, qualified } u = (.ok text, v)) :
    Portable text := by
  have hm := punctuation_phraseMarks
  cases value with
  | null =>
    cases hrun
    exact .of_free (hm.free rfl)
  | bool value =>
    cases hrun
    cases value <;> exact .of_free (hm.free rfl)
  | int value =>
    cases hrun
    exact .of_free (hm.free_int _)
  | long value =>
    cases hrun
    exact .of_free ((hm.free_int _).append (hm.free rfl))
  | float bits =>
    cases hrun
    exact .of_free (hm.free_floatText _ _ rfl rfl)
  | double bits =>
    cases hrun
    exact .of_free (hm.free_floatText _ _ rfl rfl)
  | decimal digits =>
    cases hrun
    exact .of_free ((hspelled digits List.mem_cons_self).2.append (hm.free rfl))
  | char value =>
    cases hrun
    exact (Unbroken.quoted (.inr rfl) _).portable (c := '\x27') (by simp [quoted]) (by decide)
  | string value =>
    cases hrun
    exact (Unbroken.quoted (.inl rfl) _).portable (c := '"') (by simp [quoted]) (by decide)
  | type ty =>
    cases hrun
    have hty := phrase_display (fun w hw => hspelled w (List.mem_append_left _ hw)) qualified
    have hunbroken : Unbroken ("typeof(" ++ ty.display qualified ++ ")") :=
      .within hty.balanced rfl rfl (by decide)
    exact hunbroken.portable (c := 't') (by simp) (by decide)
  | enum ty member =>
    cases hrun
    have hty := phrase_display
      (fun w hw => hspelled w (List.mem_append_left _ (List.mem_cons_of_mem _ hw))) qualified
    have hmember : Portable member := .of_free (hspelled member List.mem_cons_self).2
    exact hty.joined (by decide) (by decide) hmember.toUnbroken
  | captured object =>
    cases hrun
    exact .of_free (hlegible.free_answer hspelled List.mem_cons_self).1

theorem portable_default (hspelled : ∀ w ∈ (Expr.default i ty).spellings, IsName w)
    (hrun : (Render.default (.default i ty)).runOn { settings, qualified } u = (.ok text, v)) :
    Portable text := by
  unfold Render.default at hrun
  dsimp only at hrun
  split at hrun
  · cases hrun
    exact .of_free (by decide)
  · cases hrun
    have hty := phrase_display (fun w hw => hspelled w (List.mem_append_left _ hw)) qualified
    have hunbroken : Unbroken ("default(" ++ ty.display qualified ++ ")") :=
      .within hty.balanced rfl rfl (by decide)
    exact hunbroken.portable (c := 'd') (by simp) (by decide)

end Leaves

/-! ### Children -/

section Children
variable {s u : Session} {path : List Expr} {c : Expr}

/-- An operand that does not stand in parentheses has to be a phrase by itself. -/
theorem phrase_operandAt (hbalanced : Balanced (s.textAt path c))
    (h : c.isWrapped = false → Portable (s.textAt path c)) : Phrase (s.operandAt path c) := by
  unfold Session.operandAt
  split
  · exact hbalanced.phrase_withParens
  · next hwrapped => exact (h (by simpa using hwrapped)).toPhrase

theorem phrase_receiverAt (hbalanced : Balanced (s.textAt path c))
    (h : needsGrouping c = false → Portable (s.textAt path c)) : Phrase (s.receiverAt path c) := by
  unfold Session.receiverAt
  split
  · exact hbalanced.phrase_withParens
  · next hgroup => exact (h (by simpa using hgroup)).toPhrase

theorem phrase_stripped {text : String} (h : Portable text) : Phrase (u.stripped c text) := by
  unfold Session.stripped
  split
  · exact h.toPhrase
  · exact h.inner

end Children

/-! ### Operators -/

section Operators
variable {settings : Settings} {qualified : Bool} {s u v : Session} {path : List Expr} {text : String}
  {i : Nat} {left right operand target value : Expr} {ty : Ty}

theorem unbroken_symbol (op : BinaryOp) :
    Unbroken (" " ++ op.symbol ++ " ") ∧ Breaks (" " ++ op.symbol ++ " ") := by
  cases op <;> decide

theorem unbroken_assignSymbol (op : AssignOp) :
    Unbroken (" " ++ op.symbol ++ " ") ∧ Breaks (" " ++ op.symbol ++ " ") := by
  cases op <;> decide

theorem portable_wrapChecked {e : Expr} {inner : String} (h : Portable inner)
    (hrun : (wrapChecked e inner).runOn { settings, qualified } u = (.ok text, v)) : Portable text := by
  rw [runOn_wrapChecked_recall] at hrun
  cases hrun
  split
  · exact (Unbroken.checkedText h.balanced _).portable (checkedText_head _ _) (by decide)
  · exact h

theorem phrase_binaryOperand {op : BinaryOp} {side : BinaryOp.Side} {c : Expr}
    (hbalanced : Balanced (s.textAt path c)) (h : c.isWrapped = false → Portable (s.textAt path c)) :
    ∃ given, (binaryOperand (s.recall path) op side c).runOn { settings, qualified } u = (.ok given, u) ∧
      Phrase given := by
  have hoperand := phrase_operandAt hbalanced h
  rw [binaryOperand, runOn_bind_ok runOn_operandText_recall]
  cases c with
  | binary j inner l r t =>
    have hportable := h rfl
    refine ⟨_, rfl, ?_⟩
    split
    · exact hportable.toPhrase
    · exact hportable.inner
  | _ => exact ⟨_, rfl, hoperand⟩

theorem portable_binary {op : BinaryOp} (hl : Balanced (s.textAt path left))
    (hr : Balanced (s.textAt path right)) (hleft : left.isWrapped = false → Portable (s.textAt path left))
    (hright : right.isWrapped = false → Portable (s.textAt path right))
    (hrun : (binary (s.recall path) (.binary i op left right ty)).runOn { settings, qualified } u =
      (.ok text, v)) : Portable text := by
  obtain ⟨l, hlrun, hlphrase⟩ := phrase_binaryOperand hl hleft
  obtain ⟨r, hrrun, hrphrase⟩ := phrase_binaryOperand hr hright
  rw [binary, runOn_bind_ok hlrun, runOn_bind_ok hrrun] at hrun
  obtain ⟨hsymbol, hbreaks⟩ := unbroken_symbol op
  have hinner := hlphrase.joined hsymbol hbreaks hrphrase.toUnbroken
  refine portable_wrapChecked ?_ hrun
  simpa only [String.append_assoc] using hinner.toPhrase.parens

/-- A conversion, which has parentheses before its operand. -/
theorem portable_cast {name given : String} (hname : Phrase name) (hgiven : Unbroken given) :
    Portable ("(" ++ name ++ ")" ++ given) := by
  by_cases hempty : given = ""
  · rw [hempty, String.append_empty]
    exact hname.parens
  · have hparens := hname.balanced.phrase_parens
    have hphrase : Phrase ("(" ++ name ++ ")" ++ given) :=
      ⟨hparens.toUnbroken.append hgiven, not_headed_of_head (c := '(') (by simp) (by decide)⟩
    exact hphrase.portable
      (hparens.balanced.not_isGroup_append (by simp [← String.toList_inj]) hempty)

theorem portable_unaryText {op : UnaryOp} {operandTy : Ty} {given : String}
    (hspelled : ∀ w ∈ ty.spellings, IsName w) (hgiven : Phrase given) :
    Portable (unaryText { settings, qualified } op operandTy ty given) := by
  have before : ∀ (w : String) (c : Char), Unbroken w → w.toList = [c] ∨ w.toList = [c, c] →
      c ≠ 'i' ∧ c ≠ 'w' ∧ c ≠ '(' → Portable (w ++ given) := by
    intro w c hw hlist hc
    refine (hw.append hgiven.toUnbroken).portable (c := c) ?_ hc
    rw [String.toList_append]
    rcases hlist with hlist | hlist <;> rw [hlist] <;> rfl
  have after : ∀ w : String, Unbroken w → Breaks w → Portable (given ++ w) := by
    intro w hw hbreaks
    have hfollows := hbreaks.follows ""
    rw [String.append_empty] at hfollows
    exact hgiven.followed hw hfollows
  have hty : Phrase (ty.display qualified) := phrase_display hspelled qualified
  cases op with
  | negate | negateChecked => exact before "-" '-' (by decide) (.inl rfl) (by decide)
  | unaryPlus => exact before "+" '+' (by decide) (.inl rfl) (by decide)
  | not =>
    unfold unaryText
    dsimp only
    split
    · exact before "~" '~' (by decide) (.inl rfl) (by decide)
    · exact before "!" '!' (by decide) (.inl rfl) (by decide)
  | onesComplement => exact before "~" '~' (by decide) (.inl rfl) (by decide)
  | increment | preIncrementAssign => exact before "++" '+' (by decide) (.inr rfl) (by decide)
  | decrement | preDecrementAssign => exact before "--" '-' (by decide) (.inr rfl) (by decide)
  | postIncrementAssign => exact after "++" (by decide) (by decide)
  | postDecrementAssign => exact after "--" (by decide) (by decide)
  | arrayLength => exact after ".Length" (by decide) (by decide)
  | convert | convertChecked => exact portable_cast hty hgiven.toUnbroken
  | typeAs =>
    have hword : Unbroken " as " := by decide
    have hinner := hgiven.joined hword (by decide) hty.toUnbroken
    simpa only [unaryText, String.append_assoc] using hinner.toPhrase.parens

theorem portable_unary {op : UnaryOp} (hspelled : ∀ w ∈ (Expr.unary i op operand ty).spellings, IsName w)
    (hbalanced : Balanced (s.textAt path operand))
    (hoperand : needsGrouping operand = false → Portable (s.textAt path operand))
    (hrun : (unary (s.recall path) (.unary i op operand ty)).runOn { settings, qualified } u =
      (.ok text, v)) : Portable text := by
  rw [unary, runOn_bind_ok runOn_operandText_recall] at hrun
  dsimp only at hrun
  rw [runOn_bind_ok runOn_read] at hrun
  refine portable_wrapChecked (portable_unaryText (fun w hw => hspelled w (List.mem_append_left _ hw)) ?_) hrun
  have hgiven : Balanced (s.operandAt path operand) := by
    unfold Session.operandAt
    split
    · exact hbalanced.phrase_withParens.balanced
    · exact hbalanced
  split
  · exact hgiven.phrase_withParens
  · next hgroup => exact phrase_operandAt hbalanced fun _ => hoperand (by simpa using hgroup)

/-- An assigned value; assignments and blocks stand in parentheses. -/
theorem unbroken_assignedText (hbalanced : Balanced (s.textAt path value))
    (hvalue : value.isBlock = false → value.isAssign = false → Portable (s.textAt path value)) :
    ∃ given, (assignedText (s.recall path) value).runOn { settings, qualified } u = (.ok given, u) ∧
      Unbroken given := by
  have hgrouped := hbalanced.unterminated.phrase_withParens
  cases value with
  | assign | block => exact ⟨_, rfl, hgrouped.toUnbroken⟩
  | _ => exact ⟨_, rfl, (phrase_stripped (hvalue rfl rfl)).toUnbroken⟩

theorem portable_assign {op : AssignOp} (htarget : Portable (s.textAt path target))
    (hbalanced : Balanced (s.textAt path value))
    (hvalue : value.isBlock = false → value.isAssign = false → Portable (s.textAt path value))
    (hrun : (assign (s.recall path) (.assign i op target value)).runOn { settings, qualified } u =
      (.ok text, v)) : Portable text := by
  obtain ⟨given, hgiven, hunbroken⟩ := unbroken_assignedText hbalanced hvalue
  rw [assign, runOn_bind_ok runOn_recall, runOn_bind_ok hgiven] at hrun
  cases hrun
  obtain ⟨hsymbol, hbreaks⟩ := unbroken_assignSymbol op
  have hinner := htarget.toPhrase.joined hsymbol hbreaks hunbroken
  simpa only [String.append_assoc] using hinner

end Operators

/-! ### Members and objects -/

section Members
variable {settings : Settings} {qualified : Bool} {s u v : Session} {path : List Expr} {text : String}
  {i : Nat} {ty : Ty}

theorem portable_indexed {receiver : String} {texts : List String} (hreceiver : Phrase receiver)
    (htexts : ∀ t ∈ texts, Balanced t) :
    Portable (receiver ++ settings.argumentList "[" "]" texts) := by
  obtain ⟨rest, hrest⟩ := argumentList_eq_append settings "[" "]" texts
  refine hreceiver.followed (.indexList htexts) ?_
  rw [hrest]
  exact Breaks.follows (by decide) rest

theorem portable_member {subject : Option Expr} {target : Member}
    (hspelled : ∀ w ∈ (Expr.member i subject target).spellings, IsName w)
    (hlegible : u.names.Legible phraseMarks)
    (hbalanced : ∀ c ∈ (Expr.member i subject target).shown, Balanced (s.textAt path c))
    (hsubject : ∀ c ∈ (Expr.member i subject target).shown, needsGrouping c = false →
      Portable (s.textAt path c))
    (hrun : (member (s.recall path) (.member i subject target)).runOn { settings, qualified } u =
      (.ok text, v)) : Portable text := by
  have hname : Portable target.name := .of_free (hspelled _ List.mem_cons_self).2
  have hty : Phrase (target.declaringType.display qualified) :=
    phrase_display (fun w hw => hspelled w (List.mem_append_left _ (List.mem_cons_of_mem _ hw))) qualified
  unfold member at hrun
  dsimp only at hrun
  split at hrun
  · next subject hstatic =>
    split at hrun
    · next object hobject =>
      obtain rfl := eq_of_runOn_ask hrun
      refine .of_free (hlegible.free_answer hspelled ?_).1
      simp [Expr.requests, hobject]
    · next hcaptured =>
      rw [runOn_bind_ok runOn_receiverText_recall] at hrun
      obtain rfl := eq_of_runOn_pure hrun
      have hshown : subject ∈ (Expr.member i (some subject) target).shown := by
        simp [Expr.shown, hstatic, Option.filter, Expr.isCaptured, hcaptured]
      have hreceiver := phrase_receiverAt (hbalanced _ hshown) (hsubject _ hshown)
      exact hreceiver.joined (by decide) (by decide) hname.toUnbroken
  · rw [runOn_bind_ok (runOn_typeName _)] at hrun
    obtain rfl := eq_of_runOn_pure hrun
    exact hty.joined (by decide) (by decide) hname.toUnbroken

theorem portable_index {subject : Expr} {indices : List Expr}
    (hbalanced : ∀ c ∈ (Expr.index i subject indices ty).shown, Balanced (s.textAt path c))
    (hsubject : needsGrouping subject = false → Portable (s.textAt path subject))
    (hrun : (index (s.recall path) (.index i subject indices ty)).runOn { settings, qualified } u =
      (.ok text, v)) : Portable text := by
  obtain ⟨hfirst, hrest⟩ := List.forall_mem_cons.mp hbalanced
  obtain ⟨texts, htexts, hall⟩ := exists_indices { settings, qualified } u hrest
  unfold index at hrun
  dsimp only at hrun
  split at hrun
  · cases hrun
  · rw [runOn_bind_ok runOn_receiverText_recall, runOn_bind_ok htexts, runOn_bind_ok (runOn_argumentList ..)]
      at hrun
    obtain rfl := eq_of_runOn_pure hrun
    exact portable_indexed (phrase_receiverAt hfirst hsubject) hall

theorem portable_new {constructor : Option Method} {args : List Expr}
    (hspelled : ∀ w ∈ (Expr.new i ty constructor args).spellings, IsName w)
    (hfits : Counted args (constructor.map Method.params))
    (hbalanced : ∀ c ∈ argumentsNodes args (constructor.map Method.params), Balanced (s.textAt path c))
    (hrun : (new (s.recall path) (.new i ty constructor args)).runOn { settings, qualified } u =
      (.ok text, v)) : Portable text := by
  have hty := phrase_display (fun w hw => hspelled w (List.mem_append_left _ hw)) qualified
  have hword : Unbroken "new " := by decide
  obtain ⟨texts, htexts, hall⟩ := exists_parameters { settings, qualified } u hfits hbalanced
  rw [new, runOn_bind_ok htexts, runOn_bind_ok (runOn_typeName ty)] at hrun
  obtain rfl := eq_of_runOn_pure hrun
  exact ((hword.append hty.toUnbroken).append (.parameterList hall)).portable (c := 'n') (by simp) (by decide)

theorem arrayText_head {array : String} {c : Char} (h : array.toList.head? = some c)
    (items : List String) : (arrayText settings array items).toList.head? = some c := by
  obtain ⟨rest, hrest⟩ := List.head?_eq_some_iff.mp h
  unfold arrayText
  dsimp only
  split <;> simp [hrest]

theorem portable_newArray {items : List Expr}
    (hspelled : ∀ w ∈ (Expr.newArray i ty items).spellings, IsName w)
    (hbalanced : ∀ c ∈ items, Balanced (s.textAt path c))
    (hrun : (new (s.recall path) (.newArray i ty items)).runOn { settings, qualified } u = (.ok text, v)) :
    Portable text := by
  have hty := phrase_display (fun w hw => hspelled w (List.mem_append_left _ hw)) qualified
  have hword : Unbroken "new " := by decide
  obtain ⟨texts, htexts, hall⟩ := exists_indices { settings, qualified } u hbalanced
  have hitems : ∀ array : String, Unbroken array → array.toList.head? = some 'n' →
      Portable (arrayText settings array texts) := fun array harray hhead =>
    (harray.arrayText hall).portable (arrayText_head hhead texts) (by decide)
  unfold new at hrun
  dsimp only at hrun
  split at hrun
  · rw [runOn_bind_ok (runOn_typeName ty)] at hrun
    obtain rfl := eq_of_runOn_pure hrun
    have hzero : Unbroken "[0]" := by decide
    exact ((hword.append hty.toUnbroken).append hzero).portable (c := 'n') (by simp) (by decide)
  · split at hrun
    · rw [runOn_bind_ok (runOn_pure _), runOn_bind_ok htexts, runOn_bind_ok runOn_read] at hrun
      obtain rfl := eq_of_runOn_pure hrun
      exact hitems "new[]" (by decide) rfl
    · rw [runOn_bind_ok (runOn_typeName ty), runOn_bind_ok (runOn_pure _), runOn_bind_ok htexts,
        runOn_bind_ok runOn_read] at hrun
      obtain rfl := eq_of_runOn_pure hrun
      have hbrackets : Unbroken "[]" := by decide
      exact hitems _ ((hword.append hty.toUnbroken).append hbrackets) (by simp)

end Members

/-! ### Calls -/

section Calls
variable {settings : Settings} {qualified : Bool} {s u v : Session} {path : List Expr} {text : String}
  {i : Nat} {subject : Option Expr} {method : Method} {args : List Expr} {target : Expr}

theorem phrase_join : ∀ {texts : List String}, (∀ t ∈ texts, Phrase t) → Phrase (join " + " texts)
  | [], _ => by decide
  | [t], h => h t List.mem_cons_self
  | t :: u :: rest, h => by
    obtain ⟨ht, hrest⟩ := List.forall_mem_cons.mp h
    exact (ht.joined (by decide) (by decide) (phrase_join hrest).toUnbroken).toPhrase

theorem portable_concatenation
    (hbalanced : ∀ c ∈ (concatenated args).map concatenand, Balanced (s.textAt path c))
    (hparts : ∀ c ∈ (concatenated args).map concatenand, c.isWrapped = false → Portable (s.textAt path c))
    (hrun : (concatenation (s.recall path) args).runOn { settings, qualified } u = (.ok text, v)) :
    Portable text := by
  have hall : ∃ texts, ((concatenated args).mapM fun e => operandText (s.recall path) (concatenand e)).runOn
      { settings, qualified } u = (.ok texts, u) ∧ ∀ t ∈ texts, Phrase t :=
    exists_runOn_mapM fun x hx => ⟨_, runOn_operandText_recall,
      phrase_operandAt (hbalanced _ (List.mem_map_of_mem hx)) (hparts _ (List.mem_map_of_mem hx))⟩
  obtain ⟨texts, htexts, hphrases⟩ := hall
  rw [concatenation, runOn_bind_ok htexts] at hrun
  obtain rfl := eq_of_runOn_pure hrun
  exact (phrase_join hphrases).parens

theorem exists_invoke_eq (hbalanced : ∀ c ∈ target :: args, Balanced (s.textAt path c))
    (hrun : (invoke (s.recall path) target args).runOn { settings, qualified } u = (.ok text, v)) :
    ∃ texts, (∀ t ∈ texts, Balanced t) ∧
      text = s.receiverAt path target ++ ".Invoke" ++ settings.argumentList "(" ")" texts := by
  obtain ⟨-, hrest⟩ := List.forall_mem_cons.mp hbalanced
  obtain ⟨texts, htexts, hall⟩ :=
    exists_parameters { settings, qualified } u (show Counted args none from trivial) hrest
  have hlambda : target.isLambda = true → (Text.withParens <$> s.recall path target).runOn
      { settings, qualified } u = (.ok (s.receiverAt path target), u) := by
    intro htarget
    cases target <;> first | rfl | cases htarget
  unfold invoke at hrun
  split at hrun
  · next htarget =>
    rw [runOn_bind_ok (hlambda htarget), runOn_bind_ok htexts] at hrun
    exact ⟨texts, hall, eq_of_runOn_pure hrun⟩
  · rw [runOn_bind_ok runOn_receiverText_recall, runOn_bind_ok htexts] at hrun
    exact ⟨texts, hall, eq_of_runOn_pure hrun⟩

theorem portable_invoke (hbalanced : ∀ c ∈ target :: args, Balanced (s.textAt path c))
    (htarget : needsGrouping target = false → Portable (s.textAt path target))
    (hrun : (invoke (s.recall path) target args).runOn { settings, qualified } u = (.ok text, v)) :
    Portable text := by
  obtain ⟨texts, hall, rfl⟩ := exists_invoke_eq hbalanced hrun
  have hreceiver := phrase_receiverAt (hbalanced target List.mem_cons_self) htarget
  exact hreceiver.joined (by decide) (by decide) (.parameterList hall)

/-- An indexed property is its subject with the indices behind it, and the value that is assigned to it. -/
theorem exists_indexer_eq (hbalanced : ∀ c ∈ subject.toList ++ args, Balanced (s.textAt path c))
    (hrun : (indexer (s.recall path) subject method args).runOn { settings, qualified } u = (.ok text, v)) :
    ∃ receiver ∈ subject, ∃ texts, (∀ t ∈ texts, Balanced t) ∧
      ((method.accessor.any (·.isSetter) = false ∧
          text = s.receiverAt path receiver ++ settings.argumentList "[" "]" texts) ∨
        method.accessor.any (·.isSetter) = true ∧ ∃ value ∈ args.getLast?,
          text = s.receiverAt path receiver ++ settings.argumentList "[" "]" texts ++ " = " ++
            u.stripped value (s.textAt path value)) := by
  cases subject with
  | none => cases hrun
  | some receiver =>
    obtain ⟨-, hrest⟩ := List.forall_mem_cons.mp hbalanced
    have hindices : ∀ indices : List Expr, (∀ c ∈ indices, c ∈ args) → ∃ texts,
        (arguments (s.recall path) indices none).runOn { settings, qualified } u = (.ok texts, u) ∧
        ∀ t ∈ texts, Balanced t :=
      fun indices hmem => exists_indices { settings, qualified } u fun c hc => hrest c (hmem c hc)
    unfold indexer at hrun
    dsimp only at hrun
    split at hrun
    · cases hrun
    · cases hrun
    · next indices value _ hparts =>
      unfold indexerParts at hparts
      split at hparts
      · next hsetter =>
        split at hparts
        · next last hlast =>
          cases hparts
          obtain ⟨texts, htexts, hall⟩ := hindices _ fun c hc => List.mem_of_mem_dropLast hc
          rw [runOn_bind_ok runOn_receiverText_recall, runOn_bind_ok htexts,
            runOn_bind_ok (runOn_argumentList ..)] at hrun
          dsimp only at hrun
          rw [runOn_bind_ok runOn_strippedText_recall] at hrun
          exact ⟨receiver, rfl, texts, hall, .inr ⟨hsetter, last, hlast, eq_of_runOn_pure hrun⟩⟩
        · cases hparts
      · next hgetter =>
        cases hparts
        obtain ⟨texts, htexts, hall⟩ := hindices _ fun c hc => hc
        rw [runOn_bind_ok runOn_receiverText_recall, runOn_bind_ok htexts,
          runOn_bind_ok (runOn_argumentList ..)] at hrun
        exact ⟨receiver, rfl, texts, hall, .inl ⟨by simpa using hgetter, eq_of_runOn_pure hrun⟩⟩

theorem portable_indexer (hbalanced : ∀ c ∈ subject.toList ++ args, Balanced (s.textAt path c))
    (hsubject : ∀ c ∈ subject, needsGrouping c = false → Portable (s.textAt path c))
    (hvalue : ∀ c ∈ args.getLast?, method.accessor.any (·.isSetter) = true → Portable (s.textAt path c))
    (hrun : (indexer (s.recall path) subject method args).runOn { settings, qualified } u = (.ok text, v)) :
    Portable text := by
  obtain ⟨receiver, hreceiver, texts, hall, hcases⟩ := exists_indexer_eq hbalanced hrun
  have hbelow := hbalanced receiver (List.mem_append_left _ (Option.mem_toList.mpr hreceiver))
  have hindexed : Portable (s.receiverAt path receiver ++ settings.argumentList "[" "]" texts) :=
    portable_indexed (phrase_receiverAt hbelow (hsubject receiver hreceiver)) hall
  rcases hcases with ⟨-, rfl⟩ | ⟨hsetter, value, hlast, rfl⟩
  · exact hindexed
  · have hassigned := phrase_stripped (u := u) (c := value) (hvalue value hlast hsetter)
    exact hindexed.toPhrase.joined (by decide) (by decide) hassigned.toUnbroken

/-- The type arguments of a call, which are not shown or stand in angle brackets. -/
theorem genericArguments_cases {name : String}
    (hspelled : ∀ ty ∈ method.genericArgs, ∀ w ∈ ty.spellings, IsName w)
    (hrun : (genericArguments method).runOn { settings, qualified } u = (.ok name, v)) :
    v = u ∧ Unbroken name ∧ (name = "" ∨ name.toList.head? = some '<') := by
  unfold genericArguments at hrun
  split at hrun
  · cases hrun
    exact ⟨rfl, by decide, .inl rfl⟩
  · split at hrun
    · cases hrun
    · rw [runOn_bind_ok runOn_read] at hrun
      dsimp only at hrun
      split at hrun
      · cases hrun
        exact ⟨rfl, by decide, .inl rfl⟩
      · cases hrun
        have hopen : Unbroken "<" := by decide
        have hsep : Unbroken ", " := by decide
        have hclose : Unbroken ">" := by decide
        refine ⟨rfl, (hopen.append (hsep.join fun t ht => ?_)).append hclose, .inr (by simp)⟩
        obtain ⟨ty, hty, rfl⟩ := List.mem_map.mp ht
        exact (phrase_display (hspelled ty hty) qualified).toUnbroken

/-- What a method call is after its receiver. -/
theorem portable_callText {name generics : String} {texts : List String} (hname : IsName name)
    (hgenerics : Unbroken generics) (hhead : generics = "" ∨ generics.toList.head? = some '<')
    (htexts : ∀ t ∈ texts, Balanced t) :
    Portable (name ++ generics ++ settings.argumentList "(" ")" texts) := by
  have hrest : Unbroken (generics ++ settings.argumentList "(" ")" texts) :=
    hgenerics.append (.parameterList htexts)
  have hportable : Portable name := .of_free hname.2
  obtain ⟨list, hlist⟩ := argumentList_eq_append settings "(" ")" texts
  have hstart : (generics ++ settings.argumentList "(" ")" texts).toList.head? = some '(' ∨
      (generics ++ settings.argumentList "(" ")" texts).toList.head? = some '<' := by
    rw [hlist, String.toList_append, List.head?_append]
    rcases hhead with rfl | hhead
    · exact .inl (by simp)
    · exact .inr (by rw [hhead]; rfl)
  have hphrase : Phrase (name ++ (generics ++ settings.argumentList "(" ")" texts)) := by
    refine ⟨hportable.toUnbroken.append hrest, ?_⟩
    rcases hstart with hstart | hstart
    · exact not_headed_call (hname.2.mono (by decide)) hstart (.inl rfl)
    · exact not_headed_call (hname.2.mono (by decide)) hstart (.inr rfl)
  have hne : generics ++ settings.argumentList "(" ")" texts ≠ "" := by
    intro hempty
    rw [hempty] at hstart
    rcases hstart with hstart | hstart <;> cases hstart
  rw [String.append_assoc]
  exact hphrase.portable (hportable.balanced.not_isGroup_append hname.1 hne)

/-- What stands before the dot of a call is its receiver or its type, and what is left are its arguments. -/
theorem callParts_cases {P : String → Prop} {receiver : Option String} {rest : List Expr}
    {params : List Parameter} (hconcat : isConcatenation subject method = false)
    (hindexer : isIndexer method = false) (hfits : CallFits subject method args)
    (hbalanced : ∀ c ∈ callNodes subject method args, Balanced (s.textAt path c))
    (hty : P (method.declaringType.display qualified))
    (hreceiver : ∀ c ∈ receiverNodes subject method args, Balanced (s.textAt path c) → P (s.receiverAt path c))
    (hrun : (callParts (s.recall path) subject method args).runOn { settings, qualified } u =
      (.ok (receiver, rest, params), v)) :
    v = u ∧ (∀ r ∈ receiver, P r) ∧ Counted rest (some params) ∧
      ∀ c ∈ argumentsNodes rest (some params), Balanced (s.textAt path c) := by
  rw [isIndexer] at hindexer
  simp only [CallFits, callNodes, receiverNodes, isIndexer, hconcat, hindexer, Bool.false_eq_true, if_false]
    at hfits hbalanced hreceiver
  unfold callParts at hrun
  cases hkind : method.kind with
  | extension =>
    simp only [hkind] at hfits hbalanced hreceiver hrun
    cases args with
    | nil => cases hrun
    | cons first others =>
      obtain ⟨hfirst, hothers⟩ := List.forall_mem_cons.mp hbalanced
      have hgiven := hreceiver first List.mem_cons_self hfirst
      rw [runOn_bind_ok runOn_receiverText_recall] at hrun
      cases hrun
      refine ⟨rfl, fun r hr => ?_, ?_, hothers⟩
      · cases hr
        exact hgiven
      · simpa [Counted] using hfits.1.2
  | «static» =>
    simp only [hkind] at hfits hbalanced hrun
    rw [runOn_bind_ok (runOn_typeName _)] at hrun
    cases hrun
    refine ⟨rfl, fun r hr => ?_, hfits.1, hbalanced⟩
    cases hr
    exact hty
  | onInstance =>
    simp only [hkind] at hfits hbalanced hreceiver hrun
    cases subject with
    | none => cases hrun
    | some subject =>
      obtain ⟨hfirst, hothers⟩ := List.forall_mem_append.mp hbalanced
      dsimp only at hrun
      split at hrun
      · cases hrun
        exact ⟨rfl, fun r hr => (by cases hr), hfits.1.2, hothers⟩
      · next hcaptured =>
        have hmem : subject ∈ ((some subject).filter (!·.isCaptured)).toList := by
          simp [Option.filter, hcaptured]
        have hgiven := hreceiver subject hmem (hfirst subject hmem)
        rw [runOn_bind_ok runOn_receiverText_recall] at hrun
        cases hrun
        refine ⟨rfl, fun r hr => ?_, hfits.1.2, hothers⟩
        cases hr
        exact hgiven

/-- A method call is its name with type arguments and arguments behind it, and a receiver before it. -/
theorem exists_methodCall_eq {P : String → Prop} (hconcat : isConcatenation subject method = false)
    (hindexer : isIndexer method = false) (hspelled : ∀ w ∈ method.spellings, IsName w)
    (hfits : CallFits subject method args)
    (hbalanced : ∀ c ∈ callNodes subject method args, Balanced (s.textAt path c))
    (hty : P (method.declaringType.display qualified))
    (hreceiver : ∀ c ∈ receiverNodes subject method args, Balanced (s.textAt path c) → P (s.receiverAt path c))
    (hrun : (methodCall (s.recall path) (.call i subject method args) subject method args).runOn
      { settings, qualified } u = (.ok text, v)) :
    ∃ generics texts, Unbroken generics ∧ (generics = "" ∨ generics.toList.head? = some '<') ∧
      (∀ t ∈ texts, Balanced t) ∧
      (text = method.name ++ generics ++ settings.argumentList "(" ")" texts ∨
        ∃ receiver, P receiver ∧ ∃ dot ∈ [".", "\n" ++ settings.indent ++ "."],
          text = receiver ++ dot ++ (method.name ++ generics ++ settings.argumentList "(" ")" texts)) := by
  obtain ⟨-, hothers⟩ := List.forall_mem_cons.mp hspelled
  obtain ⟨-, hgenerics⟩ := List.forall_mem_append.mp hothers
  obtain ⟨⟨receiver, rest, params⟩, _, hparts, hthen⟩ := exists_of_runOn_bind hrun
  obtain ⟨rfl, hgiven, hcount, hargs⟩ :=
    callParts_cases hconcat hindexer hfits hbalanced hty hreceiver hparts
  dsimp only at hthen
  obtain ⟨generics, _, hgeneric, hend⟩ := exists_of_runOn_bind hthen
  obtain ⟨rfl, hunbroken, hhead⟩ := genericArguments_cases
    (fun ty hty w hw => hgenerics w (List.mem_flatMap.mpr ⟨ty, hty, hw⟩)) hgeneric
  obtain ⟨texts, htexts, hall⟩ := exists_parameters { settings, qualified } _ hcount hargs
  rw [runOn_bind_ok htexts] at hend
  dsimp only at hend
  refine ⟨generics, texts, hunbroken, hhead, hall, ?_⟩
  cases receiver with
  | none => exact .inl (eq_of_runOn_pure hend)
  | some receiver =>
    rw [runOn_bind_ok runOn_get] at hend
    split at hend
    · rw [runOn_bind_ok runOn_indent] at hend
      refine .inr ⟨receiver, hgiven receiver rfl, _, List.mem_cons_of_mem _ List.mem_cons_self, ?_⟩
      simpa only [Env.indent, String.append_assoc] using eq_of_runOn_pure hend
    · exact .inr ⟨receiver, hgiven receiver rfl, ".", List.mem_cons_self, eq_of_runOn_pure hend⟩

theorem portable_methodCall (hconcat : isConcatenation subject method = false)
    (hindexer : isIndexer method = false)
    (hspelled : ∀ w ∈ (Expr.call i subject method args).spellings, IsName w)
    (hfits : CallFits subject method args)
    (hbalanced : ∀ c ∈ callNodes subject method args, Balanced (s.textAt path c))
    (hreceiver : ∀ c ∈ receiverNodes subject method args, needsGrouping c = false →
      Portable (s.textAt path c))
    (hrun : (methodCall (s.recall path) (.call i subject method args) subject method args).runOn
      { settings, qualified } u = (.ok text, v)) : Portable text := by
  have hown : ∀ w ∈ method.spellings, IsName w := fun w hw => hspelled w (List.mem_append_left _ hw)
  obtain ⟨hname, hothers⟩ := List.forall_mem_cons.mp hown
  obtain ⟨hty, -⟩ := List.forall_mem_append.mp hothers
  obtain ⟨generics, texts, hgenerics, hhead, hall, hcases⟩ :=
    exists_methodCall_eq hconcat hindexer hown hfits hbalanced (phrase_display hty qualified)
      (fun c hc hc' => phrase_receiverAt hc' (hreceiver c hc)) hrun
  have hcall : Portable (method.name ++ generics ++ settings.argumentList "(" ")" texts) :=
    portable_callText hname hgenerics hhead hall
  rcases hcases with rfl | ⟨receiver, hfirst, dot, hdot, rfl⟩
  · exact hcall
  · have hpoint : Unbroken "." := by decide
    rcases List.mem_cons.mp hdot with rfl | hdot
    · exact hfirst.joined hpoint (by decide) hcall.toUnbroken
    · have hbreak : Unbroken "\n" := by decide
      have hrest := ((unbroken_blanks settings.indentWidth).append hpoint).append hcall.toUnbroken
      rw [List.mem_singleton.mp hdot]
      simpa only [Settings.indent, String.append_assoc] using hfirst.joined hbreak (by decide) hrest

/-- A call is a phrase if what stands before its arguments is one, and for an indexed property also the
    value that is assigned. -/
theorem portable_call (hspelled : ∀ w ∈ (Expr.call i subject method args).spellings, IsName w)
    (hfits : CallFits subject method args)
    (hbalanced : ∀ c ∈ callNodes subject method args, Balanced (s.textAt path c))
    (hparts : ∀ c ∈ (Expr.call i subject method args).exposed, Portable (s.textAt path c))
    (hrun : (call (s.recall path) (.call i subject method args)).runOn { settings, qualified } u =
      (.ok text, v)) : Portable text := by
  unfold call at hrun
  dsimp only at hrun
  cases hconcat : isConcatenation subject method with
  | true =>
    simp only [hconcat, if_true, callNodes, Expr.exposed] at hrun hbalanced hparts
    refine portable_concatenation hbalanced (fun c hc hwrapped => hparts c ?_) hrun
    exact List.mem_filter.mpr ⟨hc, by rw [hwrapped]; rfl⟩
  | false =>
    cases hindexer : isIndexer method with
    | true =>
      simp only [hconcat, hindexer, Bool.false_eq_true, if_false, if_true, callNodes, Expr.exposed]
        at hrun hbalanced hparts
      refine portable_indexer hbalanced (fun c hc hgroup => hparts c ?_) (fun c hc hsetter => hparts c ?_) hrun
      · refine List.mem_append_left _ (List.mem_filter.mpr ⟨Option.mem_toList.mpr hc, ?_⟩)
        rw [hgroup]
        rfl
      · rw [if_pos hsetter]
        exact List.mem_append_right _ (Option.mem_toList.mpr hc)
    | false =>
      simp only [hconcat, hindexer, Bool.false_eq_true, if_false, Expr.exposed] at hrun hparts
      refine portable_methodCall hconcat hindexer hspelled hfits hbalanced
        (fun c hc hgroup => hparts c ?_) hrun
      refine List.mem_filter.mpr ⟨hc, ?_⟩
      rw [hgroup]
      rfl

end Calls

/-! ### Lambdas and jumps -/

section Bodies
variable {settings : Settings} {qualified : Bool} {s u v : Session} {path : List Expr} {text : String}
  {i : Nat} {ty : Ty} {body : Expr}

theorem exists_parameterNames (env : Env) {e : Expr} (hspelled : ∀ w ∈ e.spellings, IsName w) :
    ∀ {params : List Variable} {u : Session}, u.names.Legible phraseMarks →
    (∀ p ∈ params, .variable p ∈ e.requests) →
    ∃ names v, (params.mapM nameOf).runOn env u = (.ok names, v) ∧ v.path = u.path ∧
      ∀ name ∈ names, Free phraseMarks name
  | [], u, _, _ => ⟨[], u, rfl, rfl, by simp⟩
  | p :: params, u, hlegible, hrequests => by
    obtain ⟨hp, hparams⟩ := List.forall_mem_cons.mp hrequests
    obtain ⟨hname, hnext⟩ := hlegible.free_answer hspelled hp
    obtain ⟨names, v, hnames, hpath, hfree⟩ :=
      exists_parameterNames env hspelled (u := (u.ask (.variable p)).2) hnext hparams
    refine ⟨(u.ask (.variable p)).1 :: names, v, ?_, hpath, List.forall_mem_cons.mpr ⟨hname, hfree⟩⟩
    rw [List.mapM_cons, nameOf, runOn_bind_ok (runOn_ask _), runOn_bind_ok hnames, runOn_pure]

theorem phrase_parameterNames {names : List String} (h : ∀ name ∈ names, Free phraseMarks name) :
    Phrase (parameterNames names) := by
  unfold parameterNames
  split
  · next name => exact (Portable.of_free (h name List.mem_cons_self)).toPhrase
  · refine Balanced.phrase_parens (Balanced.join (by decide) fun t ht => ?_)
    exact (Portable.of_free (h t ht)).balanced

/-- The body of a lambda stands in braces or is unbroken by itself. -/
theorem unbroken_lambdaBody (hbalanced : body.isEmpty = false → Balanced (s.textAt path body))
    (hbody : body.isBraced = false → Portable (s.textAt path body))
    (hlines : body.isConditional = true → body.ty.isVoid = true →
      isMultiLine (s.textAt path body) = true)
    (hrun : (lambdaBody (s.recall path) body).runOn { settings, qualified } u = (.ok text, v)) :
    Unbroken text := by
  unfold lambdaBody at hrun
  split at hrun
  · obtain rfl := eq_of_runOn_pure hrun
    decide
  · next hempty =>
    rw [Bool.not_eq_true] at hempty
    have hgiven := hbalanced hempty
    have hbraced : ∀ {text : String} {v : Session}, (do return (← RenderM.body (s.recall path) body).bracketed :
        RenderM String).runOn { settings, qualified } u = (.ok text, v) → Unbroken text := by
      intro text v hrun
      rw [runOn_bind_ok runOn_body_recall] at hrun
      obtain rfl := eq_of_runOn_pure hrun
      refine Unbroken.bracketed ?_ _ _
      split
      · exact hgiven
      · exact u.balanced_stripped body hgiven
    have hother : ∀ {text : String} {v : Session}, (do
        let given ← s.recall path body
        if isMultiLine given && body.ty.isVoid then return (← RenderM.body (s.recall path) body).bracketed
        else return " " ++ (← stripped body given) : RenderM String).runOn { settings, qualified } u =
          (.ok text, v) → body.kind ≠ .block → body.kind ≠ .loop → Unbroken text := by
      intro text v hrun hblock hloop
      rw [runOn_bind_ok runOn_recall] at hrun
      split at hrun
      · exact hbraced hrun
      · next hshort =>
        rw [runOn_bind_ok (runOn_strip _ _)] at hrun
        obtain rfl := eq_of_runOn_pure hrun
        have hportable : Portable (s.textAt path body) := by
          refine hbody ?_
          cases body with
          | block => exact absurd rfl hblock
          | loop => exact absurd rfl hloop
          | conditional j test a b ty =>
            rw [Expr.isBraced, Bool.eq_false_iff]
            intro hvoid
            exact hshort (by rw [hlines rfl hvoid]; exact hvoid)
          | _ => exact hempty
        have hblank : Unbroken " " := by decide
        exact hblank.append (phrase_stripped hportable).toUnbroken
    cases body with
    | block | loop => exact hbraced hrun
    | _ => exact hother hrun (by simp [Expr.kind]) (by simp [Expr.kind])

theorem portable_lambda {params : List Variable}
    (hspelled : ∀ w ∈ (Expr.lambda i params body ty).spellings, IsName w)
    (hlegible : u.names.Legible phraseMarks)
    (hbalanced : body.isEmpty = false → Balanced (s.textAt path body))
    (hbody : body.isBraced = false → Portable (s.textAt path body))
    (hlines : body.isConditional = true → body.ty.isVoid = true →
      isMultiLine (s.textAt path body) = true)
    (hrun : (lambda (s.recall path) (.lambda i params body ty)).runOn { settings, qualified } u =
      (.ok text, v)) : Portable text := by
  obtain ⟨names, w, hnames, -, hfree⟩ :=
    exists_parameterNames { settings, qualified } hspelled hlegible fun p hp => List.mem_map_of_mem hp
  unfold lambda at hrun
  dsimp only at hrun
  rw [runOn_bind_ok hnames] at hrun
  obtain ⟨given, w', hgiven, hend⟩ := exists_of_runOn_bind hrun
  obtain rfl := eq_of_runOn_pure hend
  have hunbroken := unbroken_lambdaBody hbalanced hbody hlines hgiven
  exact (phrase_parameterNames hfree).joined (by decide) (by decide) hunbroken

/-- Jumps and returns. -/
theorem portable_jump {e : Expr} (hkind : e.kind = .break ∨ e.kind = .continue ∨ e.kind = .return)
    (hvalue : ∀ c ∈ e.shown, Portable (s.textAt path c))
    (hrun : (loop (s.recall path) e).runOn { settings, qualified } u = (.ok text, v)) : Portable text := by
  have hplain : ∀ w ∈ ["break", "continue", "return"], Portable w := fun w hw => .of_free (by
    revert w
    decide)
  cases e with
  | «break» =>
    obtain rfl := eq_of_runOn_jump hrun
    exact hplain _ (by decide)
  | «continue» =>
    obtain rfl := eq_of_runOn_jump hrun
    exact hplain _ (by decide)
  | «return» j target value =>
    cases value with
    | none =>
      obtain rfl := eq_of_runOn_pure hrun
      exact hplain _ (by decide)
    | some value =>
      rw [loop, runOn_bind_ok runOn_recall] at hrun
      obtain rfl := eq_of_runOn_pure hrun
      have hreturn : Unbroken "return " := by decide
      have hgiven := hvalue value List.mem_cons_self
      exact (hreturn.append hgiven.toUnbroken).portable (c := 'r') (by simp) (by decide)
  | _ => simp [Expr.kind] at hkind

end Bodies

/-! ### All nodes but statements -/

/-- If the texts that are exposed in the text of a node are phrases, so is its text. -/
theorem portable_node {settings : Settings} {qualified : Bool} {s : Session} {path : List Expr}
    {known : List Nat} {e : Expr} {text : String}
    (hcomposes : s.Composes { settings, qualified } path known e text) (hext : e.kind ≠ .extension)
    (hblock : e.isBlock = false) (hconditional : e.isConditional = false) (hloop : e.kind ≠ .loop)
    (hspelled : ∀ w ∈ e.spellings, IsName w) (hlegible : s.names.Legible phraseMarks)
    (hbalanced : ∀ c ∈ e.shown, Balanced (s.textAt (e :: path) c))
    (hparts : ∀ c ∈ e.exposed, Portable (s.textAt (e :: path) c))
    (hlines : ∀ c ∈ e.shown, c.isConditional = true → c.ty.isVoid = true →
      isMultiLine (s.textAt (e :: path) c) = true) : Portable text := by
  obtain ⟨u, v, -, hnames, hrun⟩ := hcomposes.exists_run
  have hfits := hcomposes.fits
  rw [← hnames] at hlegible
  have hpart : ∀ {c : Expr} {p : Expr → Bool} {cs : List Expr}, c ∈ cs → p c = true → c ∈ cs.filter p :=
    fun hc hp => List.mem_filter.mpr ⟨hc, hp⟩
  cases e with
  | constant => exact portable_constant hspelled hlegible hrun
  | «variable» =>
    obtain rfl := eq_of_runOn_ask hrun
    exact .of_free (hlegible.free_answer hspelled List.mem_cons_self).1
  | default => exact portable_default hspelled hrun
  | binary i op left right ty =>
    obtain ⟨hl, hr⟩ := List.forall_mem_cons.mp hbalanced
    refine portable_binary hl (hr right List.mem_cons_self) (fun h => hparts left ?_)
      (fun h => hparts right ?_) hrun
    · exact hpart List.mem_cons_self (by rw [h]; rfl)
    · exact hpart (List.mem_cons_of_mem _ List.mem_cons_self) (by rw [h]; rfl)
  | unary i op operand ty =>
    refine portable_unary hspelled (hbalanced operand List.mem_cons_self) (fun h => hparts operand ?_) hrun
    exact hpart List.mem_cons_self (by rw [h]; rfl)
  | assign i op target value =>
    obtain ⟨-, hvalue⟩ := List.forall_mem_cons.mp hbalanced
    refine portable_assign (i := i) (hparts target List.mem_cons_self) (hvalue value List.mem_cons_self)
      (fun h h' => hparts value ?_) hrun
    exact List.mem_cons_of_mem _ (hpart List.mem_cons_self (by rw [h, h']; rfl))
  | call i subject method args => exact portable_call hspelled hfits hbalanced hparts hrun
  | invoke i target args ty =>
    refine portable_invoke hbalanced (fun h => hparts target ?_) hrun
    exact hpart List.mem_cons_self (by rw [h]; rfl)
  | new => exact portable_new hspelled hfits hbalanced hrun
  | newArray => exact portable_newArray hspelled hbalanced hrun
  | member i subject target =>
    refine portable_member hspelled hlegible hbalanced (fun c hc h => hparts c ?_) hrun
    exact hpart hc (by rw [h]; rfl)
  | index i subject indices ty =>
    refine portable_index hbalanced (fun h => hparts subject ?_) hrun
    exact hpart List.mem_cons_self (by rw [h]; rfl)
  | lambda i params body ty =>
    have hshown : body.isEmpty = false → body ∈ (Expr.lambda i params body ty).shown := by
      intro h
      rw [Expr.shown, h]
      exact List.mem_cons_self
    refine portable_lambda hspelled hlegible (fun h => hbalanced body (hshown h)) (fun h => hparts body ?_)
      (fun h h' => hlines body (hshown ?_) h h') hrun
    · rw [Expr.exposed, h]
      exact List.mem_cons_self
    · cases body <;> first | rfl | cases h
  | «break» i target => exact portable_jump (e := .break i target) (by simp [Expr.kind]) hparts hrun
  | «continue» i target => exact portable_jump (e := .continue i target) (by simp [Expr.kind]) hparts hrun
  | «return» i target value =>
    exact portable_jump (e := .return i target value) (by simp [Expr.kind]) hparts hrun
  | block => cases hblock
  | conditional => cases hconditional
  | loop => exact absurd rfl hloop
  | extension => exact absurd rfl hext

end ExprText
