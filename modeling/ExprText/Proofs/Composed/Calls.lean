import ExprText.Proofs.Composed.Tails

/-! # Texts of calls

A method call is written as what it is called on, a dot and the call itself: the name, the type arguments
and the arguments. Each of these parts is made of what is remembered of the nodes that the call shows, and of
nothing else. -/

namespace ExprText

open Text Render RenderM Session

namespace Expr

/-- Whether a node is a call that is written as one: neither a concatenation nor an indexed property. -/
def isMethodCall : Expr → Bool
  | .call _ subject method _ => !isConcatenation subject method && !isIndexer method
  | _ => false

def isStaticCall : Expr → Bool
  | .call _ _ method _ => method.kind == .static
  | _ => false

/-- Whether a call stands on a line of its own under the given nodes: it is written after another call, and
    with the calls before it and those after it there are at least three. -/
def isBroken (path : List Expr) (e : Expr) : Bool :=
  e.receiver?.any isCall && 3 ≤ e.callCount + linksAbove (e :: path)

end Expr

/-! ### Arguments -/

namespace Session

/-- The texts of an argument under the given nodes. -/
def argumentAt (s : Session) (path : List Expr) : Modifier → Expr → List String
  | .params, .newArray _ _ items => items.map (s.statementAt path)
  | .ref, arg => ["ref " ++ s.textAt path arg]
  | .out, arg => ["out " ++ s.textAt path arg]
  | _, arg => [s.statementAt path arg]

def argumentsAt (s : Session) (path : List Expr) (args : List Expr) : Option (List Parameter) → List String
  | none => args.flatMap (s.argumentAt path .value)
  | some params => (args.zip params).flatMap fun (arg, p) => s.argumentAt path p.modifier arg

end Session

section Arguments
variable {env : Env} {s u v : Session} {path : List Expr} (hpath : u.path = path)
include hpath

theorem runOn_strippedText_statementAt (c : Expr) :
    (strippedText (s.recall path) c).runOn env u = (.ok (s.statementAt path c), u) := by
  rw [runOn_strippedText_recall, stripped_eq_strippedAt hpath]
  rfl

theorem runOn_argumentTexts_recall (modifier : Modifier) (arg : Expr) :
    (argumentTexts (s.recall path) modifier arg).runOn env u = (.ok (s.argumentAt path modifier arg), u) := by
  have single : (show RenderM (List String) from do return [← strippedText (s.recall path) arg]).runOn env u =
      (.ok [s.statementAt path arg], u) := by
    rw [runOn_bind_ok (runOn_strippedText_statementAt hpath arg), runOn_pure]
  cases modifier with
  | value => exact single
  | ref | out => rfl
  | params =>
    cases arg with
    | newArray i element items => exact runOn_mapM fun c _ => runOn_strippedText_statementAt hpath c
    | _ => exact single

/-- Arguments that are shown are composed of what is remembered of them. -/
theorem eq_of_runOn_arguments {args : List Expr} {params : Option (List Parameter)} {texts : List String}
    (hrun : (arguments (s.recall path) args params).runOn env u = (.ok texts, v)) :
    texts = s.argumentsAt path args params ∧ v = u := by
  unfold arguments at hrun
  cases params with
  | none =>
    dsimp only at hrun
    rw [runOn_bind_ok (runOn_mapM fun c _ => runOn_argumentTexts_recall hpath .value c), runOn_pure] at hrun
    cases hrun
    exact ⟨List.flatMap_def.symm, rfl⟩
  | some params =>
    dsimp only at hrun
    split at hrun
    · rw [runOn_bind_ok (runOn_mapM fun x _ => runOn_argumentTexts_recall hpath x.2.modifier x.1), runOn_pure]
        at hrun
      cases hrun
      exact ⟨List.flatMap_def.symm, rfl⟩
    · cases hrun

end Arguments

/-! ### Method calls -/

/-- The type arguments of a call, where they are shown. -/
def genericsText (env : Env) (method : Method) : String :=
  if !method.isGeneric || (!env.settings.explicitGenerics && infersGenerics method) then ""
  else "<" ++ join ", " (method.genericArgs.map env.typeName) ++ ">"

namespace Session

/-- What a method call is written after: its receiver or its type. A call on a captured object is written
    after nothing. -/
def leadAt (s : Session) (env : Env) (path : List Expr) : Expr → Option String
  | e@(.call _ subject method args) =>
    if method.kind = .static then some (env.typeName method.declaringType)
    else (receiverNodes subject method args).head?.map (s.receiverAt (e :: path))
  | _ => none

/-- A method call without what it is written after. -/
def callAt (s : Session) (env : Env) (path : List Expr) : Expr → String
  | e@(.call _ _ method args) =>
    let texts :=
      if method.kind = .extension then s.argumentsAt (e :: path) args.tail (some method.params.tail)
      else s.argumentsAt (e :: path) args (some method.params)
    method.name ++ genericsText env method ++ env.settings.argumentList "(" ")" texts
  | _ => ""

end Session

section Calls
variable {env : Env} {s u v : Session} {path : List Expr} {known : List Nat} {text : String} {i : Nat}
  {subject : Option Expr} {method : Method} {args : List Expr}

theorem eq_of_runOn_genericArguments
    (hrun : (genericArguments method).runOn env u = (.ok text, v)) : text = genericsText env method ∧ v = u := by
  unfold genericArguments at hrun
  unfold genericsText
  split at hrun
  · next hplain =>
    cases hrun
    exact ⟨by rw [hplain]; rfl, rfl⟩
  · next hgeneric =>
    split at hrun
    · cases hrun
    · rw [runOn_bind_ok runOn_read] at hrun
      simp only [hgeneric, Bool.false_or]
      split at hrun
      · next hinfers =>
        cases hrun
        exact ⟨by rw [if_pos hinfers], rfl⟩
      · next hinfers =>
        cases hrun
        exact ⟨by rw [if_neg hinfers], rfl⟩

theorem eq_of_runOn_callParts {receiver : Option String} {rest : List Expr} {params : List Parameter}
    (hrun : (callParts (s.recall (.call i subject method args :: path)) subject method args).runOn env u =
      (.ok (receiver, rest, params), v)) :
    receiver = s.leadAt env path (.call i subject method args) ∧ v = u ∧
      (rest, params) = if method.kind = .extension then (args.tail, method.params.tail)
        else (args, method.params) := by
  unfold callParts at hrun
  cases hkind : method.kind with
  | extension =>
    simp only [hkind] at hrun
    cases args with
    | nil => cases hrun
    | cons first others =>
      rw [runOn_bind_ok runOn_receiverText_recall] at hrun
      cases hrun
      exact ⟨by simp [Session.leadAt, receiverNodes, hkind], rfl, rfl⟩
  | «static» =>
    simp only [hkind] at hrun
    cases hrun
    exact ⟨by simp [Session.leadAt, hkind], rfl, rfl⟩
  | onInstance =>
    simp only [hkind] at hrun
    cases subject with
    | none => cases hrun
    | some subject =>
      dsimp only at hrun
      split at hrun
      · next hcaptured =>
        cases hrun
        exact ⟨by simp [Session.leadAt, receiverNodes, hkind, Option.filter, hcaptured], rfl, rfl⟩
      · next hcaptured =>
        rw [runOn_bind_ok runOn_receiverText_recall] at hrun
        cases hrun
        exact ⟨by simp [Session.leadAt, receiverNodes, hkind, Option.filter, hcaptured], rfl, rfl⟩

/-- A node that is being shown stands first on the path. -/
theorem inCallChain_eq_isBroken {e : Expr} (hpath : u.path = e :: path) : u.inCallChain e = e.isBroken path := by
  have hfirst : u.pathFrom e = e :: path := by
    simp [Session.pathFrom, hpath, Expr.same]
  rw [Session.inCallChain, hfirst, Expr.isBroken]

/-- A method call is its name with type arguments and arguments, after what it is called on. -/
theorem Session.Composes.methodCall_eq {e : Expr} (h : s.Composes env path known e text)
    (hmethod : e.isMethodCall = true) :
    text = ((s.leadAt env path e).map fun lead =>
      lead ++ if e.isBroken path then "\n" ++ env.indent ++ "." else ".").getD "" ++ s.callAt env path e := by
  obtain ⟨u, v, hpath, -, hrun⟩ := h.exists_run
  cases e with
  | call i subject method args =>
    obtain ⟨hconcat, hindexer⟩ := (Bool.and_eq_true _ _ ▸ hmethod : _ ∧ _)
    rw [Bool.not_eq_true'] at hconcat hindexer
    have hrun : (call (s.recall (.call i subject method args :: path)) (.call i subject method args)).runOn
      env u = (.ok text, v) := hrun
    simp only [call, hconcat, hindexer, Bool.false_eq_true, if_false] at hrun
    obtain ⟨⟨receiver, rest, params⟩, _, hparts, hthen⟩ := exists_of_runOn_bind hrun
    obtain ⟨hlead, rfl, hrest⟩ := eq_of_runOn_callParts hparts
    dsimp only at hthen
    obtain ⟨generics, _, hgenerics, hlater⟩ := exists_of_runOn_bind hthen
    obtain ⟨rfl, rfl⟩ := eq_of_runOn_genericArguments hgenerics
    obtain ⟨list, _, hparameters, hend⟩ := exists_of_runOn_bind hlater
    obtain ⟨texts, _, htexts, hlist⟩ := exists_of_runOn_bind hparameters
    obtain ⟨rfl, rfl⟩ := eq_of_runOn_arguments hpath htexts
    rw [runOn_argumentList] at hlist
    cases hlist
    have hcall : method.name ++ genericsText env method ++ env.settings.argumentList "(" ")"
        (s.argumentsAt (.call i subject method args :: path) rest (some params)) =
          s.callAt env path (.call i subject method args) := by
      unfold Session.callAt
      split at hrest
      · next hextension =>
        cases hrest
        simp only [hextension, if_true]
      · next hplain =>
        cases hrest
        simp only [hplain, if_false]
    rw [← hlead, ← hcall]
    cases receiver with
    | none => exact (eq_of_runOn_pure hend).trans String.empty_append.symm
    | some receiver =>
      dsimp only at hend
      rw [runOn_bind_ok runOn_get, inCallChain_eq_isBroken hpath] at hend
      split at hend
      · next hbroken =>
        rw [runOn_bind_ok runOn_indent] at hend
        rw [eq_of_runOn_pure hend, hbroken]
        simp only [Option.map_some, Option.getD_some, if_true, String.append_assoc]
      · next hplain =>
        rw [eq_of_runOn_pure hend]
        simp only [Option.map_some, Option.getD_some, hplain, Bool.false_eq_true, if_false, String.append_assoc]
  | _ => cases hmethod

end Calls

end ExprText
