import ExprText.Proofs.Lockstep.Basic

/-! # Plans of blocks

What a block writes is known before it is shown: the locals that it declares before its statements, and
the statements, each of which introduces a local, is written as it is or is returned. A plan depends on
the position of the block and on the variables that are declared above it. This module counts the
declarations of a variable in a plan. -/

namespace ExprText

open Render

/-- How a statement is written in its block. -/
inductive Line where
  /-- With `var` before it. -/
  | introduces (v : Variable) (statement : Expr)
  | plain (statement : Expr)
  | returned (statement : Expr)

namespace Line

def statement : Line → Expr
  | .introduces _ e | .plain e | .returned e => e

/-- Whether the line declares the variable with the given identity. -/
def declares (i : Nat) : Line → Bool
  | .introduces v _ => v.id == i
  | _ => false

end Line

structure Plan where
  /-- The locals that are declared before the statements. -/
  upFront : List Variable
  lines : List Line

/-- How often a plan declares the variable with the given identity. -/
def Plan.count (i : Nat) (p : Plan) : Nat :=
  p.upFront.countP (·.id == i) + p.lines.countP (·.declares i)

/-- The identities of the declared variables once `v` is declared. -/
def declareId (v : Variable) (known : List Nat) : List Nat :=
  known.insert v.id

def upFront (locals : List Variable) (statements : List Expr) : List Variable → List Nat → List Variable
  | [], _ => []
  | v :: rest, known =>
    if isAssigned locals statements v || known.contains v.id then upFront locals statements rest known
    else v :: upFront locals statements rest (declareId v known)

def lineOf (locals : List Variable) (known : List Nat) (statement : Expr) : Line :=
  match declaredBy locals statement with
  | some v => if known.contains v.id then .plain statement else .introduces v statement
  | none => .plain statement

def linesOf (returnsLast : Bool) (locals : List Variable) : List Expr → List Nat → List Line
  | [], _ => []
  | s :: rest, known =>
    if rest.isEmpty && returnsLast then [.returned s]
    else lineOf locals known s ::
      linesOf returnsLast locals rest (afterStatement declareId locals s known)

namespace Expr

/-- Whether a block under `parent` returns its last statement. -/
def returnsValue (parent : Option Expr) : Expr → Bool
  | e@(.block _ _ all ty) => returnsLast (Position.under e parent) ty (all.filter (!·.isEmpty))
  | _ => false

/-- The plan of a block under `parent`, where the variables with the given identities are declared. -/
def plan (parent : Option Expr) (known : List Nat) : Expr → Plan
  | e@(.block _ locals all _) =>
    let shown := all.filter (!·.isEmpty)
    ⟨upFront locals shown locals known,
      linesOf (e.returnsValue parent) locals shown (afterDeclarations declareId locals shown locals known)⟩
  | _ => ⟨[], []⟩

end Expr

/-! ### What is declared -/

section Moments
variable {locals : List Variable} {xs : List Expr} {known : List Nat} {i : Nat}

theorem mem_declareId {v : Variable} : i ∈ declareId v known ↔ i = v.id ∨ i ∈ known :=
  List.mem_insert_iff

/-- Whether a statement is a plain assignment to the local with the given identity. -/
def assigns (locals : List Variable) (i : Nat) (statement : Expr) : Bool :=
  (declaredBy locals statement).any (·.id == i)

theorem isAssigned_eq (v : Variable) : isAssigned locals xs v = xs.any (assigns locals v.id) :=
  rfl

theorem assigns_iff {s : Expr} : assigns locals i s = true ↔ ∃ v, declaredBy locals s = some v ∧ v.id = i := by
  rw [assigns, Option.any_eq_true]
  simp only [beq_iff_eq]

/-- Only locals are assigned. -/
theorem mem_of_assigns {s : Expr} (h : assigns locals i s = true) : i ∈ locals.map Variable.id := by
  obtain ⟨v, hv, rfl⟩ := assigns_iff.mp h
  obtain ⟨w, hw, hid⟩ := Expr.exists_local_of_declaredBy hv
  exact hid ▸ List.mem_map_of_mem hw

theorem mem_afterStatement {s : Expr} :
    i ∈ afterStatement declareId locals s known ↔ i ∈ known ∨ assigns locals i s = true := by
  rw [assigns_iff, afterStatement]
  cases declaredBy locals s with
  | none => simp
  | some v =>
    simp only [Option.elim_some, mem_declareId, Option.some.injEq, exists_eq_left']
    rw [or_comm, eq_comm]

theorem mem_afterDeclarations : ∀ {vs : List Variable} {known : List Nat},
    i ∈ afterDeclarations declareId locals xs vs known ↔
      i ∈ known ∨ i ∈ vs.map Variable.id ∧ xs.any (assigns locals i) = false
  | [], known => by simp [afterDeclarations]
  | v :: rest, known => by
    rw [afterDeclarations, mem_afterDeclarations, isAssigned_eq, List.map_cons, List.mem_cons]
    by_cases hi : i = v.id
    · subst hi
      cases hassigned : xs.any (assigns locals v.id) <;> simp [mem_declareId]
    · split <;> simp [mem_declareId, hi]

theorem mem_of_mem_statementSteps {x : Expr × List Nat} : ∀ {xs : List Expr} {known : List Nat},
    x ∈ statementSteps declareId locals xs known → i ∈ known → i ∈ x.2
  | [], _, h, _ => by cases h
  | s :: rest, known, h, hi => by
    rcases List.mem_cons.mp h with rfl | h
    · exact hi
    · exact mem_of_mem_statementSteps h (mem_afterStatement.mpr (.inl hi))

/-- What is declared at a node is declared at the nodes that it shows. -/
theorem mem_of_mem_steps {e : Expr} {x : Expr × List Nat} (h : x ∈ e.steps declareId known)
    (hi : i ∈ known) : i ∈ x.2 := by
  cases e with
  | block id locals all ty => exact mem_of_mem_statementSteps h (mem_afterDeclarations.mpr (.inl hi))
  | _ =>
    obtain ⟨c, -, rfl⟩ := List.mem_map.mp h
    exact hi

end Moments

/-! ### Counting -/

section Counting
variable {locals : List Variable} {xs : List Expr} {i : Nat}

theorem countP_upFront : ∀ (vs : List Variable) (known : List Nat),
    (upFront locals xs vs known).countP (·.id == i) =
      if i ∈ vs.map Variable.id ∧ xs.any (assigns locals i) = false ∧ i ∉ known then 1 else 0
  | [], known => by simp [upFront]
  | v :: rest, known => by
    have hrest := countP_upFront rest
    rw [upFront, isAssigned_eq]
    simp only [List.map_cons, List.mem_cons]
    split
    · next hskip =>
      rw [hrest]
      by_cases hi : i = v.id
      · subst hi
        have hnot : ¬(xs.any (assigns locals v.id) = false ∧ v.id ∉ known) := by
          rintro ⟨hassigned, hknown⟩
          simp [hassigned, hknown] at hskip
        rw [if_neg fun h => hnot h.2, if_neg fun h => hnot h.2]
      · simp [hi]
    · next hdeclare =>
      rw [List.countP_cons, hrest]
      by_cases hi : i = v.id
      · subst hi
        simp only [Bool.or_eq_true, List.contains_iff_mem, not_or, Bool.not_eq_true] at hdeclare
        simp [mem_declareId, hdeclare]
      · have hne : (v.id == i) = false := by simp [Ne.symm hi]
        simp [hne, hi, mem_declareId]

/-- The statements that are not returned. -/
def unreturned (returnsLast : Bool) (xs : List Expr) : List Expr :=
  if returnsLast then xs.dropLast else xs

theorem countP_linesOf (r : Bool) : ∀ (xs : List Expr) (known : List Nat),
    (linesOf r locals xs known).countP (·.declares i) =
      if i ∉ known ∧ (unreturned r xs).any (assigns locals i) = true then 1 else 0
  | [], known => by cases r <;> simp [linesOf, unreturned]
  | s :: rest, known => by
    rw [linesOf]
    split
    · next hlast =>
      obtain ⟨hrest, rfl⟩ : rest = [] ∧ r = true := by simpa using hlast
      subst hrest
      simp [unreturned, Line.declares]
    · next hlast =>
      have hcons : unreturned r (s :: rest) = s :: unreturned r rest := by
        cases r with
        | false => rfl
        | true =>
          have hne : rest ≠ [] := by simpa using hlast
          simp [unreturned, List.dropLast_cons_of_ne_nil hne]
      have hline : (lineOf locals known s).declares i = (assigns locals i s && !known.contains i) := by
        unfold lineOf assigns
        cases declaredBy locals s with
        | none => rfl
        | some v =>
          by_cases hv : v.id = i
          · subst hv
            by_cases hknown : v.id ∈ known <;> simp [Line.declares, hknown]
          · by_cases hknown : v.id ∈ known <;> simp [Line.declares, hknown, hv]
      rw [List.countP_cons, countP_linesOf r rest, hcons, List.any_cons, hline]
      simp only [mem_afterStatement]
      cases assigns locals i s <;> by_cases hi : i ∈ known <;> simp [hi]

theorem statement_lineOf (known : List Nat) (s : Expr) : (lineOf locals known s).statement = s := by
  unfold lineOf
  split
  · split <;> rfl
  · rfl

/-- A statement that is not returned and assigns a variable before all others introduces it. -/
theorem linesOf_eq_append {r : Bool} {c : Expr} {after : List Expr} (hc : assigns locals i c = true)
    (hlast : after ≠ [] ∨ r = false) : ∀ (before : List Expr) (known : List Nat),
    (∀ x ∈ before, assigns locals i x = false) → i ∉ known →
    ∃ front v rest, linesOf r locals (before ++ c :: after) known = front ++ .introduces v c :: rest ∧
      declaredBy locals c = some v ∧ v.id = i ∧ front.map Line.statement = before
  | [], known, _, hknown => by
    have hreturn : (after.isEmpty && r) = false := by
      rcases hlast with h | h
      · simp [h]
      · simp [h]
    obtain ⟨v, hv, rfl⟩ := assigns_iff.mp hc
    have hline : lineOf locals known c = .introduces v c := by
      simp [lineOf, hv, hknown]
    refine ⟨[], v, linesOf r locals after (afterStatement declareId locals c known), ?_, hv, rfl, rfl⟩
    rw [List.nil_append, linesOf, hreturn, if_neg Bool.false_ne_true, hline, List.nil_append]
  | x :: before, known, hbefore, hknown => by
    obtain ⟨hx, hbefore⟩ := List.forall_mem_cons.mp hbefore
    have hafter : i ∉ afterStatement declareId locals x known := by
      simp [mem_afterStatement, hknown, hx]
    obtain ⟨front, v, rest, hlines, hv, hid, hfront⟩ := linesOf_eq_append hc hlast before _ hbefore hafter
    refine ⟨lineOf locals known x :: front, v, rest, ?_, hv, hid, ?_⟩
    · rw [List.cons_append, linesOf, hlines]
      simp
    · rw [List.map_cons, statement_lineOf, hfront]

end Counting

/-! ### Declarations of blocks -/

namespace Expr

/-- Whether a statement is a plain assignment to the variable with the given identity. -/
def assignsTo (i : Nat) : Expr → Bool
  | .assign _ .assign (.variable _ v) _ => v.id == i
  | _ => false

theorem eq_assign_of_declaredBy {locals : List Variable} {s : Expr} {v : Variable}
    (h : declaredBy locals s = some v) :
    ∃ id target value, s = .assign id .assign (.variable target v) value := by
  unfold declaredBy at h
  split at h
  · split at h
    · cases h
      exact ⟨_, _, _, rfl⟩
    · cases h
  · cases h

theorem eq_assign_of_assignsTo {s : Expr} {i : Nat} (h : s.assignsTo i = true) :
    ∃ id target v value, s = .assign id .assign (.variable target v) value ∧ v.id = i := by
  unfold assignsTo at h
  split at h
  · exact ⟨_, _, _, _, rfl, beq_iff_eq.mp h⟩
  · cases h

theorem assigns_eq_assignsTo {locals : List Variable} {i : Nat} (hi : i ∈ locals.map Variable.id)
    (s : Expr) : assigns locals i s = s.assignsTo i := by
  rw [Bool.eq_iff_iff, assigns_iff]
  constructor
  · rintro ⟨v, hv, rfl⟩
    obtain ⟨id, target, value, rfl⟩ := eq_assign_of_declaredBy hv
    exact beq_self_eq_true v.id
  · intro h
    obtain ⟨id, target, v, value, rfl, rfl⟩ := eq_assign_of_assignsTo h
    obtain ⟨w, hw, hid⟩ := List.mem_map.mp hi
    have hany : locals.any (·.id == v.id) = true := List.any_eq_true.mpr ⟨w, hw, beq_iff_eq.mpr hid⟩
    exact ⟨v, if_pos hany, rfl⟩

variable {e : Expr} {parent : Option Expr} {known : List Nat} {i : Nat}

theorem count_plan (hi : i ∈ e.locals) (hknown : i ∉ known) :
    (e.plan parent known).count i = if e.shown.any (assignsTo i) = false ∨
      (unreturned (e.returnsValue parent) e.shown).any (assignsTo i) = true then 1 else 0 := by
  cases e with
  | block id locals all ty =>
    have hassigns : assigns locals i = assignsTo i := funext (assigns_eq_assignsTo hi)
    have hlocal : i ∈ locals.map Variable.id := hi
    have hsub : (unreturned (returnsValue parent (.block id locals all ty))
        (all.filter (!·.isEmpty))).any (assignsTo i) = true →
        (all.filter (!·.isEmpty)).any (assignsTo i) = true := by
      intro h
      obtain ⟨x, hx, hassigned⟩ := List.any_eq_true.mp h
      refine List.any_eq_true.mpr ⟨x, ?_, hassigned⟩
      unfold unreturned at hx
      split at hx
      · exact (List.dropLast_sublist _).subset hx
      · exact hx
    simp only [plan, Plan.count, countP_upFront, countP_linesOf, mem_afterDeclarations, hassigns, shown]
    by_cases hall : (all.filter (!·.isEmpty)).any (assignsTo i) = true
    · simp [hall, hknown]
    · have hnot := mt hsub hall
      rw [Bool.not_eq_true] at hall
      simp only [hall, hnot, hknown, hlocal]
      rfl
  | _ => cases hi

theorem count_plan_eq_zero (h : i ∉ e.locals ∨ i ∈ known) : (e.plan parent known).count i = 0 := by
  cases e with
  | block id locals all ty =>
    simp only [plan, Plan.count, countP_upFront, countP_linesOf, mem_afterDeclarations]
    rcases h with hlocal | hknown
    · have hassigns : ∀ s, assigns locals i s = false := fun s =>
        Bool.eq_false_iff.mpr fun hs => hlocal (mem_of_assigns hs)
      have hlocal : i ∉ locals.map Variable.id := hlocal
      simp [hlocal, hassigns]
    · simp [hknown]
  | _ => rfl

theorem exists_mem_upFront (hi : i ∈ e.locals) (hknown : i ∉ known)
    (hunassigned : ∀ c ∈ e.shown, c.assignsTo i = false) :
    ∃ v ∈ (e.plan parent known).upFront, v.id = i := by
  cases e with
  | block id locals all ty =>
    have hassigns := assigns_eq_assignsTo (show i ∈ locals.map Variable.id from hi)
    have hany : (all.filter (!·.isEmpty)).any (assigns locals i) = false :=
      List.any_eq_false.mpr fun c hc => by simp [hassigns, hunassigned c hc]
    have hcount : (upFront locals (all.filter (!·.isEmpty)) locals known).countP (·.id == i) = 1 := by
      rw [countP_upFront, if_pos ⟨hi, hany, hknown⟩]
    obtain ⟨v, hv, hid⟩ := List.countP_pos_iff.mp (hcount ▸ Nat.one_pos)
    exact ⟨v, hv, beq_iff_eq.mp hid⟩
  | _ => cases hi

/-- A plan declares nothing up front where each local is declared by a statement. -/
theorem upFront_eq_nil (h : ∀ i ∈ e.locals, e.shown.any (assignsTo i) = true)
    (parent : Option Expr) (known : List Nat) : (e.plan parent known).upFront = [] := by
  have hnone : ∀ (locals : List Variable) (xs : List Expr) (vs : List Variable) (known : List Nat),
      (∀ v ∈ vs, isAssigned locals xs v = true) → upFront locals xs vs known = [] := by
    intro locals xs vs
    induction vs with
    | nil => exact fun _ _ => rfl
    | cons v vs ih =>
      intro known hvs
      obtain ⟨hv, hvs⟩ := List.forall_mem_cons.mp hvs
      rw [upFront, hv, Bool.true_or, if_pos rfl]
      exact ih known hvs
  cases e with
  | block i locals all ty =>
    refine hnone _ _ _ _ fun v hv => ?_
    have hid : v.id ∈ locals.map Variable.id := List.mem_map_of_mem hv
    rw [isAssigned_eq, funext (assigns_eq_assignsTo hid)]
    exact h _ hid
  | _ => rfl

theorem exists_introducing_line {c : Expr} {before after : List Expr} (hi : i ∈ e.locals)
    (hknown : i ∉ known) (hshown : e.shown = before ++ c :: after)
    (hbefore : ∀ x ∈ before, x.assignsTo i = false) (hc : c.assignsTo i = true)
    (hlast : after ≠ [] ∨ e.returnsValue parent = false) :
    ∃ front v rest, (e.plan parent known).lines = front ++ .introduces v c :: rest ∧ v.id = i ∧
      (∃ id target value, c = .assign id .assign (.variable target v) value) ∧
      front.map Line.statement = before := by
  cases e with
  | block id locals all ty =>
    have hassigns := assigns_eq_assignsTo (show i ∈ locals.map Variable.id from hi)
    have hshown : all.filter (!·.isEmpty) = before ++ c :: after := hshown
    have hafter : i ∉ afterDeclarations declareId locals (before ++ c :: after) locals known := by
      simp [mem_afterDeclarations, hknown, hassigns, hc]
    simp only [plan, hshown]
    obtain ⟨front, v, rest, hlines, hv, hid, hfront⟩ := linesOf_eq_append ((hassigns c).trans hc) hlast
      before _ (fun x hx => (hassigns x).trans (hbefore x hx)) hafter
    exact ⟨front, v, rest, hlines, hid, eq_assign_of_declaredBy hv, hfront⟩
  | _ => cases hi

/-- A line of a plan is returned by a block that has a value, or its statement decides how it is written. -/
theorem line_of_plan (e : Expr) (parent : Option Expr) (known : List Nat) :
    ∀ l ∈ (e.plan parent known).lines, (∃ locals known x, l = lineOf locals known x) ∨
      e.returnsValue parent = true ∧ ∃ c, l = .returned c := by
  have hlines : ∀ (r : Bool) (locals : List Variable) (xs : List Expr) (known : List Nat),
      ∀ l ∈ linesOf r locals xs known, (∃ locals known x, l = lineOf locals known x) ∨
        r = true ∧ ∃ c, l = .returned c := by
    intro r locals xs
    induction xs with
    | nil => exact fun _ l hl => by cases hl
    | cons x rest ih =>
      intro known
      rw [linesOf]
      split
      · next hlast =>
        obtain ⟨-, rfl⟩ : rest = [] ∧ r = true := by simpa using hlast
        exact List.forall_mem_cons.mpr ⟨.inr ⟨rfl, x, rfl⟩, fun l hl => by cases hl⟩
      · exact List.forall_mem_cons.mpr ⟨.inl ⟨locals, known, x, rfl⟩, ih _⟩
  cases e with
  | block id locals all ty => exact hlines _ _ _ _
  | _ => exact fun l hl => by cases hl

theorem map_statement_plan (e : Expr) (parent : Option Expr) (known : List Nat) (h : e.isBlock = true) :
    (e.plan parent known).lines.map Line.statement = e.shown := by
  have hlines : ∀ (r : Bool) (locals : List Variable) (xs : List Expr) (known : List Nat),
      (linesOf r locals xs known).map Line.statement = xs := by
    intro r locals xs
    induction xs with
    | nil => exact fun _ => rfl
    | cons x rest ih =>
      intro known
      rw [linesOf]
      split
      · next hlast =>
        obtain ⟨hrest, -⟩ : rest = [] ∧ r = true := by simpa using hlast
        rw [hrest]
        rfl
      · rw [List.map_cons, statement_lineOf, ih]
  cases e with
  | block id locals all ty => exact hlines _ _ _ _
  | _ => cases h

end Expr

end ExprText
