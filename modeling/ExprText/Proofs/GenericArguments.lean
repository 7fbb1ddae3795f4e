import ExprText.Proofs.Composed.Calls

/-! # Type arguments of calls

A call shows its type arguments unless a reader can infer them: every generic parameter of the method must stand
somewhere in the types of its parameters. Where it stands is a position in a type, and a type tells the generic
parameters in it in the order of their positions. -/

namespace ExprText

open Text Render RenderM

namespace Ty

/-! ### Positions in types -/

/-- The types directly inside a type, from left to right. -/
def children : Ty → List Ty
  | .named _ _ args => args
  | .array inner _ | .nullable inner | .byRef inner => [inner]
  | .void | .param _ => []

/-- The type at a position, which tells from the outside to the inside which of the types inside to enter. -/
def at? (t : Ty) : List Nat → Option Ty
  | [] => some t
  | i :: position => t.children[i]?.bind (at? · position)

/-- A position in one of the types inside a type. -/
def inside (i : Nat) (leaf : List Nat × String) : List Nat × String :=
  (i :: leaf.1, leaf.2)

mutual

/-- The generic parameters in a type with the positions at which they stand. -/
def leaves : Ty → List (List Nat × String)
  | .void => []
  | .named _ _ args => leavesFrom 0 args
  | .array inner _ | .nullable inner | .byRef inner => (leaves inner).map (inside 0)
  | .param name => [([], name)]

def leavesFrom (i : Nat) : List Ty → List (List Nat × String)
  | [] => []
  | t :: ts => (leaves t).map (inside i) ++ leavesFrom (i + 1) ts

end

theorem map_snd_inside (i : Nat) (leaves : List (List Nat × String)) :
    (leaves.map (inside i)).map Prod.snd = leaves.map Prod.snd := by
  rw [List.map_map]
  rfl

mutual

theorem map_snd_leaves : ∀ t : Ty, t.leaves.map Prod.snd = t.params
  | .void => rfl
  | .named _ _ args => by rw [leaves, params, map_snd_leavesFrom 0 args]
  | .array inner _ | .nullable inner | .byRef inner => by
    rw [leaves, params, map_snd_inside, map_snd_leaves inner]
  | .param _ => rfl

theorem map_snd_leavesFrom (i : Nat) : ∀ ts : List Ty, (leavesFrom i ts).map Prod.snd = paramsOfAll ts
  | [] => rfl
  | t :: ts => by
    rw [leavesFrom, paramsOfAll, List.map_append, map_snd_inside, map_snd_leaves t, map_snd_leavesFrom (i + 1) ts]

end

/-! ### Every generic parameter has its leaf -/

theorem mem_map_inside {i : Nat} {leaves : List (List Nat × String)} {position : List Nat} {name : String} :
    (position, name) ∈ leaves.map (inside i) ↔ ∃ rest, position = i :: rest ∧ (rest, name) ∈ leaves := by
  simp only [List.mem_map, inside, Prod.mk.injEq, Prod.exists]
  constructor
  · rintro ⟨rest, _, hmem, rfl, rfl⟩
    exact ⟨rest, rfl, hmem⟩
  · rintro ⟨rest, rfl, hmem⟩
    exact ⟨rest, name, hmem, rfl, rfl⟩

/-- The one type inside a wrapper stands at its first place. -/
theorem at?_wrapper {t inner found : Ty} (h : t.children = [inner]) {i : Nat} {rest : List Nat} :
    t.at? (i :: rest) = some found ↔ i = 0 ∧ inner.at? rest = some found := by
  rw [at?, h]
  cases i with
  | zero => simp
  | succ i => simp

theorem mem_leaves_wrapper {t inner : Ty} {position : List Nat} {name : String} (h : t.children = [inner])
    (hparam : t ≠ .param name)
    (ih : ∀ rest, (rest, name) ∈ inner.leaves ↔ inner.at? rest = some (.param name)) :
    (position, name) ∈ inner.leaves.map (inside 0) ↔ t.at? position = some (.param name) := by
  rw [mem_map_inside]
  cases position with
  | nil => simp [at?, hparam]
  | cons i rest =>
    rw [at?_wrapper h, ← ih]
    simp [and_comm]

mutual

theorem mem_leaves : ∀ (t : Ty) (position : List Nat) (name : String),
    (position, name) ∈ t.leaves ↔ t.at? position = some (.param name)
  | .void, position, name => by cases position <;> simp [leaves, at?, children]
  | .named _ _ args, position, name => by
    rw [leaves, mem_leavesFrom 0 args position name]
    cases position <;> simp [at?, children, Option.bind_eq_some_iff]
  | .array inner _, position, name | .nullable inner, position, name | .byRef inner, position, name => by
    rw [leaves]
    exact mem_leaves_wrapper rfl (by simp) fun rest => mem_leaves inner rest name
  | .param _, position, name => by
    cases position <;> simp [leaves, at?, children, eq_comm]

theorem mem_leavesFrom (i : Nat) : ∀ (ts : List Ty) (position : List Nat) (name : String),
    (position, name) ∈ leavesFrom i ts ↔
      ∃ j rest t, position = (i + j) :: rest ∧ ts[j]? = some t ∧ t.at? rest = some (.param name)
  | [], position, name => by simp [leavesFrom]
  | t :: ts, position, name => by
    rw [leavesFrom, List.mem_append, mem_map_inside, mem_leavesFrom (i + 1) ts position name]
    constructor
    · rintro (⟨rest, rfl, hmem⟩ | ⟨j, rest, u, rfl, hget, hat⟩)
      · exact ⟨0, rest, t, rfl, rfl, (mem_leaves t rest name).mp hmem⟩
      · exact ⟨j + 1, rest, u, by rw [Nat.add_assoc, Nat.add_comm 1 j], hget, hat⟩
    · rintro ⟨j, rest, u, rfl, hget, hat⟩
      cases j with
      | zero =>
        cases hget
        exact .inl ⟨rest, rfl, (mem_leaves t rest name).mpr hat⟩
      | succ j => exact .inr ⟨j, rest, u, by rw [Nat.add_assoc, Nat.add_comm 1 j], hget, hat⟩

end

/-! ### Leaves stand from left to right -/

/-- Whether one leaf stands to the left of another one: its position comes first in the
    lexicographic order. -/
def LeftOf (a b : List Nat × String) : Prop :=
  a.1 < b.1

theorem pairwise_map_inside (i : Nat) {leaves : List (List Nat × String)} (h : leaves.Pairwise LeftOf) :
    (leaves.map (inside i)).Pairwise LeftOf := by
  rw [List.pairwise_map]
  exact h.imp fun hleft => List.cons_lt_cons_iff.mpr (.inr ⟨rfl, hleft⟩)

mutual

theorem pairwise_leaves : ∀ t : Ty, t.leaves.Pairwise LeftOf
  | .void => .nil
  | .named _ _ args => by
    rw [leaves]
    exact pairwise_leavesFrom 0 args
  | .array inner _ | .nullable inner | .byRef inner => by
    rw [leaves]
    exact pairwise_map_inside 0 (pairwise_leaves inner)
  | .param _ => by
    rw [leaves]
    exact List.pairwise_singleton _ _

theorem pairwise_leavesFrom (i : Nat) : ∀ ts : List Ty, (leavesFrom i ts).Pairwise LeftOf
  | [] => .nil
  | t :: ts => by
    rw [leavesFrom, List.pairwise_append]
    refine ⟨pairwise_map_inside i (pairwise_leaves t), pairwise_leavesFrom (i + 1) ts, ?_⟩
    rintro ⟨p, name⟩ hfirst ⟨q, other⟩ hlater
    -- Where the later leaf stands, the first step already goes further right.
    obtain ⟨rest, rfl, -⟩ := mem_map_inside.mp hfirst
    obtain ⟨j, rest', -, rfl, -⟩ := (mem_leavesFrom (i + 1) ts q other).mp hlater
    exact List.cons_lt_cons_iff.mpr (.inl (by omega))

end

/-- A type tells the generic parameters that stand anywhere in it. -/
theorem mem_params_iff {t : Ty} {name : String} :
    name ∈ t.params ↔ ∃ position, t.at? position = some (.param name) := by
  rw [← map_snd_leaves]
  simp only [List.mem_map, Prod.exists, exists_eq_right, mem_leaves]

end Ty

/-! ### What can be inferred -/

/-- Whether the types of the parameters leave a type argument open: there is a generic parameter that stands in
    none of them. -/
def Method.LeavesOpen (method : Method) : Prop :=
  ∃ name ∈ method.genericParams, ∀ p ∈ method.params, ∀ position, p.ty.at? position ≠ some (.param name)

theorem infersGenerics_iff {method : Method} : infersGenerics method = true ↔ ¬method.LeavesOpen := by
  simp only [infersGenerics, List.all_eq_true, List.any_eq_true, List.contains_iff_mem, Ty.mem_params_iff,
    Method.LeavesOpen]
  push Not
  rfl

/-! ### Calls -/

namespace Render

/-- What a call writes before the name of its method. -/
def leadText (env : Env) (u : Session) (e : Expr) : Option String → String
  | none => ""
  | some receiver => if u.inCallChain e then receiver ++ "\n" ++ env.indent ++ "." else receiver ++ "."

section Calls
variable {env : Env} {s u : Session} {visit : Visit} {e : Expr} {subject : Option Expr} {method : Method}
  {args : List Expr} {text : String}

/-- A method with a type argument for each of its generic parameters is never refused for them. -/
theorem runOn_genericArguments (h : method.genericArgs.length = method.genericParams.length) :
    (genericArguments method).runOn env s = (.ok (genericsText env method), s) := by
  unfold genericArguments genericsText
  cases hgeneric : method.isGeneric with
  | false => rfl
  | true =>
    simp only [Bool.not_true, Bool.false_eq_true, if_false, Bool.false_or, h, ne_eq, not_true_eq_false]
    rw [runOn_bind_ok runOn_read]
    split <;> rw [runOn_pure]

/-- The arguments of a call begin with their bracket. -/
theorem exists_of_runOn_parameters {rest : List Expr} {params : Option (List Parameter)} {list : String}
    (h : (parameters visit rest params).runOn env s = (.ok list, u)) : ∃ more, list = "(" ++ more := by
  obtain ⟨texts, _, -, hlist⟩ := exists_of_runOn_bind h
  rw [runOn_argumentList] at hlist
  cases hlist
  exact argumentList_eq_append env.settings "(" ")" texts

variable {receiver : Option String} {rest : List Expr} {params : List Parameter} {v : Session} {list : String}

/-- A call whose parts are shown is these parts, one after another. -/
theorem runOn_methodCall (h : method.genericArgs.length = method.genericParams.length)
    (hparts : (callParts visit subject method args).runOn env s = (.ok (receiver, rest, params), v))
    (hlist : (parameters visit rest (some params)).runOn env v = (.ok list, u)) :
    (methodCall visit e subject method args).runOn env s =
      (.ok (leadText env u e receiver ++ method.name ++ genericsText env method ++ list), u) := by
  rw [methodCall, runOn_bind_ok hparts]
  dsimp only
  rw [runOn_bind_ok (runOn_genericArguments h), runOn_bind_ok hlist]
  cases receiver with
  | none => rw [leadText, String.empty_append, runOn_pure]
  | some receiver =>
    dsimp only
    rw [runOn_bind_ok runOn_get, leadText]
    split
    · rw [runOn_bind_ok runOn_indent, runOn_pure]
      simp only [String.append_assoc]
    · rw [runOn_pure]
      simp only [String.append_assoc]

/-- A call is shown exactly if the parts of it are, and then it is these parts. -/
theorem runOn_methodCall_iff (h : method.genericArgs.length = method.genericParams.length) :
    (methodCall visit e subject method args).runOn env s = (.ok text, u) ↔
      ∃ receiver rest params v list,
        (callParts visit subject method args).runOn env s = (.ok (receiver, rest, params), v) ∧
        (parameters visit rest (some params)).runOn env v = (.ok list, u) ∧
        text = leadText env u e receiver ++ method.name ++ genericsText env method ++ list := by
  constructor
  · intro hrun
    obtain ⟨⟨receiver, rest, params⟩, v, hparts, hthen⟩ := exists_of_runOn_bind hrun
    dsimp only at hthen
    rw [runOn_bind_ok (runOn_genericArguments h)] at hthen
    obtain ⟨list, w, hlist, -⟩ := exists_of_runOn_bind hthen
    have hsame := hrun.symm.trans (runOn_methodCall h hparts hlist)
    cases hsame
    exact ⟨receiver, rest, params, v, list, hparts, hlist, rfl⟩
  · rintro ⟨receiver, rest, params, v, list, hparts, hlist, rfl⟩
    exact runOn_methodCall h hparts hlist

end Calls

/-- The type arguments of a generic call, where it shows them. -/
def typeArguments (env : Env) (method : Method) : String :=
  "<" ++ join ", " (method.genericArgs.map env.typeName) ++ ">"

theorem typeArguments_ne_empty (env : Env) (method : Method) : typeArguments env method ≠ "" := by
  intro h
  have htext := congrArg String.toList h
  simp [typeArguments, String.toList_append] at htext

/-- What a call of a generic method shows of its type arguments is all of them or nothing. -/
theorem genericsText_cases (env : Env) {method : Method} (hgeneric : method.genericParams ≠ []) :
    ((env.settings.explicitGenerics = true ∨ method.LeavesOpen) ∧
      genericsText env method = typeArguments env method) ∨
    (¬(env.settings.explicitGenerics = true ∨ method.LeavesOpen) ∧ genericsText env method = "") := by
  have hopen : (!env.settings.explicitGenerics && infersGenerics method) = true ↔
      ¬(env.settings.explicitGenerics = true ∨ method.LeavesOpen) := by
    rw [Bool.and_eq_true, infersGenerics_iff, Bool.not_eq_true', not_or, Bool.not_eq_true]
  have hmethod : method.isGeneric = true := by simpa [Method.isGeneric] using hgeneric
  rw [genericsText, hmethod, Bool.not_true, Bool.false_or]
  split
  · next h => exact .inr ⟨hopen.mp h, rfl⟩
  · next h => exact .inl ⟨not_not.mp (h ∘ hopen.mpr), rfl⟩

/-- A type tells exactly the generic parameters that stand in it, from left to right. A call of a generic method
    shows its type arguments right after the name, and so before the bracket of its arguments, exactly if the
    settings ask for them or the parameters of the method leave one of them open. -/
theorem typeArguments_shown_iff :
    (∀ t : Ty, ∃ leaves : List (List Nat × String), leaves.map Prod.snd = t.params ∧ leaves.Pairwise Ty.LeftOf ∧
      ∀ position name, (position, name) ∈ leaves ↔ t.at? position = some (.param name)) ∧
    ∀ method : Method, method.genericParams ≠ [] → method.genericArgs.length = method.genericParams.length →
    ∀ env : Env, ∃ clause : String,
      (clause = typeArguments env method ↔ env.settings.explicitGenerics = true ∨ method.LeavesOpen) ∧
      (clause = "" ↔ ¬(env.settings.explicitGenerics = true ∨ method.LeavesOpen)) ∧
      ∀ visit e subject args s text u,
        (methodCall visit e subject method args).runOn env s = (.ok text, u) ↔
          ∃ receiver rest params v list,
            (callParts visit subject method args).runOn env s = (.ok (receiver, rest, params), v) ∧
            (parameters visit rest (some params)).runOn env v = (.ok ("(" ++ list), u) ∧
            text = leadText env u e receiver ++ method.name ++ clause ++ "(" ++ list := by
  refine ⟨fun t => ⟨t.leaves, t.map_snd_leaves, t.pairwise_leaves, t.mem_leaves⟩, ?_⟩
  intro method hgeneric hcount env
  have hne := typeArguments_ne_empty env method
  refine ⟨genericsText env method, ?_, ?_, ?_⟩
  · rcases genericsText_cases env hgeneric with ⟨hshown, heq⟩ | ⟨hhidden, heq⟩
    · exact iff_of_true heq hshown
    · exact iff_of_false (heq ▸ hne.symm) hhidden
  · rcases genericsText_cases env hgeneric with ⟨hshown, heq⟩ | ⟨hhidden, heq⟩
    · exact iff_of_false (heq ▸ hne) (not_not.mpr hshown)
    · exact iff_of_true heq hhidden
  · intro visit e subject args s text u
    rw [runOn_methodCall_iff hcount]
    constructor
    · rintro ⟨receiver, rest, params, v, list, hparts, hlist, rfl⟩
      obtain ⟨more, rfl⟩ := exists_of_runOn_parameters hlist
      exact ⟨receiver, rest, params, v, more, hparts, hlist, String.append_assoc.symm⟩
    · rintro ⟨receiver, rest, params, v, more, hparts, hlist, rfl⟩
      exact ⟨receiver, rest, params, v, "(" ++ more, hparts, hlist, String.append_assoc⟩

section Examples

/-- A variable, on which a call is written without parentheses. -/
private def operand : Expr := .variable 0 ⟨0, some "xs", .array (.array .int 1) 1⟩

/-- An extension method whose generic parameter stands in the type of what it is called on. -/
private def flatten : Method :=
  ((Method.new .extension (.named none "Lists" []) "Flatten").generic "T" .int).param "xs"
    (.named none "List" [.array (.param "T") 1])

/-- A method whose second generic parameter stands in none of its parameters. -/
private def convert : Method :=
  (((Method.new .onInstance (.array (.array .int 1) 1) "Convert").generic "T" .int).generic "U" .string).param
    "item" (.byRef (.nullable (.param "T")))

private def showXs : Visit := fun _ => pure "xs"

theorem typeArguments_shown_iff_two_methods :
    (flatten.genericParams ≠ [] ∧ flatten.genericArgs.length = flatten.genericParams.length ∧
      ¬flatten.LeavesOpen) ∧
    (convert.genericParams ≠ [] ∧ convert.genericArgs.length = convert.genericParams.length ∧
      convert.LeavesOpen) ∧
    (methodCall showXs operand none flatten [operand]).runOn {} {} = (.ok "xs.Flatten()", {}) ∧
    (methodCall showXs operand (some operand) convert [operand]).runOn {} {} =
      (.ok "xs.Convert<int, string>(xs)", {}) := by
  have hflatten : ¬flatten.LeavesOpen := infersGenerics_iff.mp (by decide +kernel)
  have hconvert : convert.LeavesOpen := not_not.mp (mt infersGenerics_iff.mpr (by decide +kernel))
  have hmethods : (flatten.genericParams ≠ [] ∧ flatten.genericArgs.length = flatten.genericParams.length) ∧
      convert.genericParams ≠ [] ∧ convert.genericArgs.length = convert.genericParams.length := by
    decide +kernel
  obtain ⟨⟨hgeneric, hcount⟩, hgeneric', hcount'⟩ := hmethods
  obtain ⟨clause, -, hhidden, hcall⟩ := typeArguments_shown_iff.2 flatten hgeneric hcount {}
  obtain ⟨clause', hshown, -, hcall'⟩ := typeArguments_shown_iff.2 convert hgeneric' hcount' {}
  obtain rfl := hhidden.mpr (by simpa using hflatten)
  obtain rfl := hshown.mpr (.inr hconvert)
  refine ⟨⟨hgeneric, hcount, hflatten⟩, ⟨hgeneric', hcount', hconvert⟩, ?_, ?_⟩
  · exact (hcall _ _ _ _ _ _ _).mpr ⟨some "xs", [], [], {}, ")", rfl, by rfl, by decide +kernel⟩
  · exact (hcall' _ _ _ _ _ _ _).mpr ⟨some "xs", [operand], convert.params, {}, "xs)", rfl, by rfl,
      by decide +kernel⟩

end Examples

end Render

end ExprText
