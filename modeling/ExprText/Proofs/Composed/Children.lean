import ExprText.Proofs.Brackets
import ExprText.Proofs.Composed.Run

/-! # Recalled children

How the text of a child that is recalled enters the text of its parent. Recalling a text leaves a session
as it is, so each of these actions has one answer, which is written out here. -/

namespace ExprText

open Render RenderM

/-- Whether the body that a node makes is a single statement. -/
def Expr.isSingle : Expr → Bool
  | .block _ locals statements _ => (statements.filter (!·.isEmpty)).length ≤ 1 && locals.isEmpty
  | _ => true

/-- Whether a node stands in parentheses as an operand. -/
def Expr.isWrapped : Expr → Bool
  | .conditional .. | .assign .. | .lambda .. => true
  | _ => false

def Expr.isAssign : Expr → Bool
  | .assign .. => true
  | _ => false

/-- Whether a node stands in braces as the body of a lambda. -/
def Expr.isBraced : Expr → Bool
  | .block .. | .loop .. => true
  | .conditional _ _ _ _ ty => ty.isVoid
  | e => e.isEmpty

namespace Session

/-- The text of an operand under the given nodes. -/
def operandAt (s : Session) (path : List Expr) (c : Expr) : String :=
  if c.isWrapped then Text.withParens (s.textAt path c) else s.textAt path c

/-- The text of what stands before a dot under the given nodes. -/
def receiverAt (s : Session) (path : List Expr) (c : Expr) : String :=
  if needsGrouping c then Text.withParens (s.textAt path c) else s.textAt path c

end Session

namespace RenderM

section Actions
variable {α β : Type} {env : Env} {u : Session}

theorem eq_of_runOn_pure {a b : α} {v : Session} (h : (pure a : RenderM α).runOn env u = (.ok b, v)) :
    b = a := by
  rw [runOn_pure] at h
  cases h
  rfl

theorem eq_of_runOn_ask {r : NameRequest} {name : String} {v : Session}
    (h : (ask r).runOn env u = (.ok name, v)) : name = (u.names.answer r).1 := by
  rw [runOn_ask] at h
  cases h
  rfl

/-- A list of actions that leave the session as it is. -/
theorem exists_runOn_mapM {f : β → RenderM α} {P : α → Prop} {xs : List β}
    (h : ∀ x ∈ xs, ∃ a, (f x).runOn env u = (.ok a, u) ∧ P a) :
    ∃ as, (xs.mapM f).runOn env u = (.ok as, u) ∧ ∀ a ∈ as, P a := by
  induction xs with
  | nil => exact ⟨[], rfl, by simp⟩
  | cons x xs ih =>
    obtain ⟨⟨a, hx, ha⟩, hxs⟩ := List.forall_mem_cons.mp h |>.imp_right ih
    obtain ⟨as, hrun, has⟩ := hxs
    refine ⟨a :: as, ?_, List.forall_mem_cons.mpr ⟨ha, has⟩⟩
    rw [List.mapM_cons, runOn_bind_ok hx, runOn_bind_ok hrun, runOn_pure]

@[simp] theorem runOn_typeName (ty : Ty) : (typeName ty).runOn env u = (.ok (env.typeName ty), u) := rfl

@[simp] theorem runOn_indent : indent.runOn env u = (.ok env.indent, u) := rfl

@[simp] theorem runOn_argumentList (opening closing : String) (texts : List String) :
    (argumentList opening closing texts).runOn env u =
      (.ok (env.settings.argumentList opening closing texts), u) := rfl

@[simp] theorem runOn_strip (c : Expr) (text : String) :
    (stripped c text).runOn env u = (.ok (u.stripped c text), u) := rfl

/-- A jump that is not refused is its keyword. -/
theorem eq_of_runOn_jump {keyword text : String} {labelOf : Option Label → Option Label → Option Label}
    {target : Label} {v : Session} (h : (jump keyword labelOf target).runOn env u = (.ok text, v)) :
    text = keyword := by
  rw [jump, runOn_bind_ok runOn_get] at h
  split at h
  · exact eq_of_runOn_pure h
  · cases h

end Actions

end RenderM

section Children
variable {env : Env} {s u : Session} {path : List Expr} {c : Expr}

theorem runOn_recall : (s.recall path c).runOn env u = (.ok (s.textAt path c), u) := rfl

theorem runOn_strippedText_recall :
    (strippedText (s.recall path) c).runOn env u = (.ok (u.stripped c (s.textAt path c)), u) := rfl

theorem runOn_body_recall : (body (s.recall path) c).runOn env u =
    (.ok ⟨if c.isBlock then s.textAt path c else u.stripped c (s.textAt path c), c.isSingle, env.indent⟩,
      u) := by
  cases c <;> rfl

theorem runOn_operandText_recall :
    (operandText (s.recall path) c).runOn env u = (.ok (s.operandAt path c), u) := by
  cases c <;> rfl

theorem runOn_receiverText_recall :
    (receiverText (s.recall path) c).runOn env u = (.ok (s.receiverAt path c), u) := rfl

theorem runOn_wrapChecked_recall (e : Expr) (text : String) : (wrapChecked e text).runOn env u =
    (.ok (if carriesChecked u.parent? e then checkedText env.indent text else text), u) := by
  rw [wrapChecked, runOn_bind_ok runOn_get]
  split <;> rfl

/-! ### Arguments -/

theorem Session.balanced_stripped (u : Session) (c : Expr) {text : String} (h : Text.Balanced text) :
    Text.Balanced (u.stripped c text) := by
  unfold Session.stripped
  split
  · exact h
  · exact h.withoutParens

theorem exists_argumentTexts {modifier : Modifier}
    (h : ∀ x ∈ argumentNodes modifier c, Text.Balanced (s.textAt path x)) :
    ∃ texts, (argumentTexts (s.recall path) modifier c).runOn env u = (.ok texts, u) ∧
      ∀ t ∈ texts, Text.Balanced t := by
  have single : (∀ x ∈ [c], Text.Balanced (s.textAt path x)) →
      ∃ texts, (show RenderM (List String) from do return [← strippedText (s.recall path) c]).runOn env u =
        (.ok texts, u) ∧ ∀ t ∈ texts, Text.Balanced t := fun h =>
    ⟨_, rfl, by simpa using u.balanced_stripped c (h c List.mem_cons_self)⟩
  have marked : ∀ word : String, Text.Balanced word → Text.Balanced (s.textAt path c) →
      ∀ t ∈ [word ++ s.textAt path c], Text.Balanced t := by
    intro word hword htext t ht
    obtain rfl := List.mem_singleton.mp ht
    exact hword.append htext
  cases modifier with
  | value => exact single h
  | ref => exact ⟨_, rfl, marked "ref " (by decide) (h c List.mem_cons_self)⟩
  | out => exact ⟨_, rfl, marked "out " (by decide) (h c List.mem_cons_self)⟩
  | params =>
    cases c with
    | newArray i element items =>
      exact exists_runOn_mapM fun x hx => ⟨_, runOn_strippedText_recall, u.balanced_stripped x (h x hx)⟩
    | _ => exact single h

theorem exists_arguments {args : List Expr} {params : Option (List Parameter)} (hcount : Counted args params)
    (h : ∀ x ∈ argumentsNodes args params, Text.Balanced (s.textAt path x)) :
    ∃ texts, (arguments (s.recall path) args params).runOn env u = (.ok texts, u) ∧
      ∀ t ∈ texts, Text.Balanced t := by
  have flat : ∀ lists : List (List String), (∀ l ∈ lists, ∀ t ∈ l, Text.Balanced t) →
      ∀ t ∈ lists.flatten, Text.Balanced t := by
    intro lists hlists t ht
    obtain ⟨l, hl, ht⟩ := List.mem_flatten.mp ht
    exact hlists l hl t ht
  cases params with
  | none =>
    have hall : ∃ lists, (args.mapM (argumentTexts (s.recall path) .value)).runOn env u = (.ok lists, u) ∧
        ∀ l ∈ lists, ∀ t ∈ l, Text.Balanced t :=
      exists_runOn_mapM fun x hx => exists_argumentTexts fun y hy => h y (List.mem_singleton.mp hy ▸ hx)
    obtain ⟨lists, hrun, hlists⟩ := hall
    exact ⟨lists.flatten, by rw [arguments, runOn_bind_ok hrun, runOn_pure], flat lists hlists⟩
  | some params =>
    have hall : ∃ lists, ((args.zip params).mapM fun x =>
        argumentTexts (s.recall path) x.2.modifier x.1).runOn env u = (.ok lists, u) ∧
        ∀ l ∈ lists, ∀ t ∈ l, Text.Balanced t :=
      exists_runOn_mapM fun x hx => exists_argumentTexts fun y hy => h y (List.mem_flatMap.mpr ⟨x, hx, hy⟩)
    obtain ⟨lists, hrun, hlists⟩ := hall
    refine ⟨lists.flatten, ?_, flat lists hlists⟩
    rw [arguments]
    dsimp only
    rw [if_pos hcount.symm, runOn_bind_ok hrun, runOn_pure]

theorem exists_indices (env : Env) (u : Session) {indices : List Expr}
    (h : ∀ x ∈ indices, Text.Balanced (s.textAt path x)) :
    ∃ texts, (arguments (s.recall path) indices none).runOn env u = (.ok texts, u) ∧
      ∀ t ∈ texts, Text.Balanced t :=
  exists_arguments trivial h

theorem exists_parameters (env : Env) (u : Session) {args : List Expr} {params : Option (List Parameter)}
    (hcount : Counted args params)
    (h : ∀ x ∈ argumentsNodes args params, Text.Balanced (s.textAt path x)) :
    ∃ texts, (parameters (s.recall path) args params).runOn env u =
      (.ok (env.settings.argumentList "(" ")" texts), u) ∧ ∀ t ∈ texts, Text.Balanced t := by
  obtain ⟨texts, hrun, htexts⟩ := exists_arguments hcount h
  exact ⟨texts, by rw [parameters, runOn_bind_ok hrun, runOn_argumentList], htexts⟩

end Children

end ExprText
