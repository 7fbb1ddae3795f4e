import Mathlib.Data.List.Nodup
import ExprText.Proofs.Frame.Scripts

/-! # Runs of scopes

Scopes are opened and closed, variables are declared and trees are shown, in any order and with closings
that match nothing. There is always an open scope, no two of the scopes have a variable in common, and
to close a scope leaves declared what was declared when it was opened. -/

namespace ExprText

namespace Session

/-! ### Operations -/

/-- What can be done with the scopes of a session. -/
inductive Operation where
  | openScope
  | closeScope
  | declare (v : Variable)
  /-- Shows a tree; `depth` bounds how many of its nodes lie below one another. -/
  | translate (depth : Nat) (e : Expr)

namespace Operation

/-- The operations in which every scope that is opened is closed, and no other. -/
inductive Matched : List Operation → Prop
  | nil : Matched []
  | declare {ops : List Operation} (v : Variable) : Matched ops → Matched (.declare v :: ops)
  | translate {ops : List Operation} (depth : Nat) (e : Expr) : Matched ops →
    Matched (.translate depth e :: ops)
  | scope {inside after : List Operation} : Matched inside → Matched after →
    Matched (.openScope :: inside ++ .closeScope :: after)

end Operation

/-- The session after an operation. A tree may fail to be shown. -/
def perform (scripts : Expr → Script String) (env : Env) (s : Session) : Operation → Session
  | .openScope => s.openScope
  | .closeScope => s.closeScope
  | .declare v => (s.declare v).2
  | .translate depth e => ((visitWith scripts depth e).runOn env s).2

/-- The session after some operations. -/
def performAll (scripts : Expr → Script String) (env : Env) (s : Session) (ops : List Operation) :
    Session :=
  ops.foldl (perform scripts env) s

section Runs
variable (scripts : Expr → Script String) (env : Env) (s : Session)

@[simp] theorem performAll_nil : s.performAll scripts env [] = s := rfl

@[simp] theorem performAll_cons (op : Operation) (ops : List Operation) :
    s.performAll scripts env (op :: ops) = (s.perform scripts env op).performAll scripts env ops := rfl

@[simp] theorem performAll_append (ops ops' : List Operation) :
    s.performAll scripts env (ops ++ ops') =
      (s.performAll scripts env ops).performAll scripts env ops' :=
  List.foldl_append

end Runs

/-! ### Declarations -/

theorem isDeclared_iff {s : Session} {v : Variable} :
    s.isDeclared v = true ↔ ∃ scope ∈ s.scopes, v.id ∈ scope := by
  simp only [isDeclared, List.any_eq_true, List.contains_iff_mem]

theorem isDeclared_congr {s t : Session} (h : t.scopes = s.scopes) (v : Variable) :
    t.isDeclared v = s.isDeclared v := by
  rw [isDeclared, h, isDeclared]

theorem declare_declared {s : Session} {v : Variable} (h : s.isDeclared v = true) :
    s.declare v = (false, s) :=
  if_pos h

theorem declare_new {s : Session} {v : Variable} {inner : List Nat} {outer : List (List Nat)}
    (h : s.isDeclared v = false) (hscopes : s.scopes = inner :: outer) :
    s.declare v = (true, { s with scopes := (v.id :: inner) :: outer }) := by
  rw [declare, if_neg (by rw [h]; exact Bool.false_ne_true), hscopes]

/-! ### What an operation keeps -/

/-- There is an open scope, and no variable is declared twice. -/
structure WellScoped (s : Session) : Prop where
  opened : s.scopes ≠ []
  once : s.scopes.flatten.Nodup

namespace WellScoped
variable {scripts : Expr → Script String} {env : Env} {s : Session}

theorem start (root : Expr) : (Session.start root).WellScoped :=
  ⟨List.cons_ne_nil _ _, List.nodup_nil⟩

theorem openScope (h : s.WellScoped) : s.openScope.WellScoped :=
  ⟨List.cons_ne_nil _ _, h.once⟩

theorem closeScope (h : s.WellScoped) : s.closeScope.WellScoped := by
  refine ⟨closeScope_opened h.opened, ?_⟩
  have honce := h.once
  unfold Session.closeScope
  split
  · next inner outer rest hscopes =>
    rw [hscopes, List.flatten_cons] at honce
    exact (List.nodup_append.mp honce).2.1
  · exact honce

theorem declare (h : s.WellScoped) (v : Variable) : (s.declare v).2.WellScoped := by
  cases hdeclared : s.isDeclared v with
  | true =>
    rw [declare_declared hdeclared]
    exact h
  | false =>
    obtain ⟨inner, outer, hscopes⟩ := List.exists_cons_of_ne_nil h.opened
    rw [declare_new hdeclared hscopes]
    refine ⟨List.cons_ne_nil _ _, ?_⟩
    have honce := h.once
    have hnew : v.id ∉ s.scopes.flatten := by
      rw [List.mem_flatten, ← isDeclared_iff, hdeclared]
      exact Bool.false_ne_true
    rw [hscopes] at honce hnew
    exact List.nodup_cons.mpr ⟨hnew, honce⟩

theorem translate (h : s.WellScoped) (depth : Nat) (e : Expr) :
    ((visitWith scripts depth e).runOn env s).2.scopes = s.scopes :=
  (Keeps.visitWith scripts depth false e env s h.opened).scopes.all rfl

theorem perform (h : s.WellScoped) (op : Operation) : (s.perform scripts env op).WellScoped := by
  cases op with
  | openScope => exact h.openScope
  | closeScope => exact h.closeScope
  | declare v => exact h.declare v
  | translate depth e =>
    have hscopes : (s.perform scripts env (.translate depth e)).scopes = s.scopes :=
      h.translate depth e
    exact ⟨hscopes ▸ h.opened, hscopes ▸ h.once⟩

theorem performAll (h : s.WellScoped) (ops : List Operation) :
    (s.performAll scripts env ops).WellScoped := by
  induction ops generalizing s with
  | nil => exact h
  | cons op ops ih => exact ih (h.perform op)

theorem disjoint (h : s.WellScoped) : s.scopes.Pairwise List.Disjoint :=
  (List.nodup_flatten.mp h.once).2

/-- Operations that match change only the innermost scope. -/
theorem matched {ops : List Operation} (hops : Operation.Matched ops) (h : s.WellScoped) :
    ScopesKept true s.scopes (s.performAll scripts env ops).scopes := by
  induction hops generalizing s with
  | nil => exact .refl _
  | declare v _ ih => exact (s.scopesKept_declare v).trans (ih (h.declare v))
  | translate depth e _ ih =>
    have hshown : ScopesKept true s.scopes (s.perform scripts env (.translate depth e)).scopes :=
      .of_eq (h.translate depth e)
    exact hshown.trans (ih (h.perform _))
  | @scope inside after _ _ inner outer =>
    rw [performAll_append, performAll_cons, performAll_cons]
    have hclosed : ((s.openScope.performAll scripts env inside).closeScope).scopes = s.scopes :=
      closeScope_scopes h.opened (inner h.openScope)
    exact (ScopesKept.of_eq hclosed).trans (outer ((h.openScope.performAll inside).closeScope))

/-- A scope that was opened and closed again leaves the scopes as they were. -/
theorem scope {inside : List Operation} (hinside : Operation.Matched inside) (h : s.WellScoped) :
    (s.performAll scripts env (.openScope :: inside ++ [.closeScope])).scopes = s.scopes := by
  rw [performAll_append, performAll_cons]
  exact closeScope_scopes h.opened (matched hinside h.openScope)

end WellScoped

/-- To declare a variable answers whether no scope has it. If none has, the innermost scope gains it,
    and otherwise nothing changes. -/
theorem declare_answer {s : Session} (h : s.scopes ≠ []) (v : Variable) :
    ((s.declare v).1 = true ↔ ∀ scope ∈ s.scopes, v.id ∉ scope) ∧
      ((s.declare v).1 = true → ∃ inner outer, s.scopes = inner :: outer ∧
        (s.declare v).2 = { s with scopes := (v.id :: inner) :: outer }) ∧
      ((s.declare v).1 = false → (s.declare v).2 = s) := by
  cases hdeclared : s.isDeclared v with
  | true =>
    obtain ⟨scope, hscope, hv⟩ := isDeclared_iff.mp hdeclared
    rw [declare_declared hdeclared]
    refine ⟨iff_of_false Bool.false_ne_true fun hnone => hnone scope hscope hv, ?_, fun _ => rfl⟩
    intro htrue
    cases htrue
  | false =>
    obtain ⟨inner, outer, hscopes⟩ := List.exists_cons_of_ne_nil h
    have hnone : ∀ scope ∈ s.scopes, v.id ∉ scope := by
      intro scope hscope hv
      rw [isDeclared_iff.mpr ⟨scope, hscope, hv⟩] at hdeclared
      cases hdeclared
    rw [declare_new hdeclared hscopes]
    refine ⟨iff_of_true rfl hnone, fun _ => ⟨inner, outer, hscopes, rfl⟩, ?_⟩
    intro hfalse
    cases hfalse

/-- After any operations there is an open scope and no two open scopes have a variable in common. To
    declare a variable answers whether no open scope has it; if so, the innermost scope gains it and
    nothing else changes, and otherwise nothing changes at all. A scope that is opened and closed again
    leaves every variable declared or not as it was, whatever was done inside, and so does showing a
    tree, whatever its nodes are and whether or not that fails. -/
theorem scopes_declare_once (scripts : Expr → Script String) (env : Env) (root : Expr)
    (ops : List Operation) :
    let s := (Session.start root).performAll scripts env ops
    s.scopes ≠ [] ∧ s.scopes.Pairwise List.Disjoint ∧
    (∀ v, ((s.declare v).1 = true ↔ ∀ scope ∈ s.scopes, v.id ∉ scope) ∧
      ((s.declare v).1 = true → ∃ inner outer, s.scopes = inner :: outer ∧
        (s.declare v).2 = { s with scopes := (v.id :: inner) :: outer }) ∧
      ((s.declare v).1 = false → (s.declare v).2 = s)) ∧
    (∀ inside, Operation.Matched inside → ∀ v,
      (s.performAll scripts env (.openScope :: inside ++ [.closeScope])).isDeclared v =
        s.isDeclared v) ∧
    ∀ depth e v, (s.perform scripts env (.translate depth e)).isDeclared v = s.isDeclared v := by
  intro s
  have h : s.WellScoped := (WellScoped.start root).performAll ops
  exact ⟨h.opened, h.disjoint, declare_answer h.opened,
    fun _ hinside => isDeclared_congr (h.scope hinside),
    fun depth e => isDeclared_congr (h.translate depth e)⟩

section Examples

private def total : Variable := ⟨0, some "total", .int⟩

private def counter : Variable := ⟨1, some "i", .int⟩

/-- The block declares the counter and fails at its break. -/
private def broken : Expr :=
  .block 2 [counter] [.variable 3 counter, .break 4 ⟨0, none, .void⟩] .void

private def inside : List Operation :=
  [.declare counter, .translate 3 broken, .openScope, .declare total, .closeScope]

/-- The first closing matches nothing. -/
private def declared : Session :=
  (Session.start broken).performAll Expr.script {} [.closeScope, .declare total]

/-- The total stays declared, though it is declared once more inside, and the counter is forgotten. -/
theorem scopes_declare_once_broken_block :
    ((visitWith Expr.script 3 broken).runOn {} declared).1.toOption = none ∧
      Operation.Matched inside ∧ declared.isDeclared total = true ∧ declared.isDeclared counter = false ∧
      ∀ v, (declared.performAll Expr.script {} (.openScope :: inside ++ [.closeScope])).isDeclared v =
        declared.isDeclared v := by
  have hinside : Operation.Matched inside :=
    .declare _ (.translate _ _ (.scope (.declare _ .nil) .nil))
  refine ⟨by decide +kernel, hinside, rfl, rfl, ?_⟩
  exact (scopes_declare_once Expr.script {} broken [.closeScope, .declare total]).2.2.2.1 inside hinside

end Examples

end Session

end ExprText
