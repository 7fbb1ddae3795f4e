import Mathlib.Data.List.Chain
import ExprText.Proofs.Composed.Calls
import ExprText.Proofs.Sharing.Places

/-! # Chains of calls

Calls that are written one after another, each on the one before it. Every call of such a chain decides for
itself whether it stands on a line of its own: it counts the calls before it in the tree, and those after it
on the path. Both counts together are the length of the chain, whatever call does the counting, so a chain is
broken at all of its dots but the first or at none. -/

namespace ExprText

open Text Render RenderM Session

namespace Expr

/-- Whether a rendering of `root` shows the given method calls one after another, the last of them under the
    given nodes. No call is written before the first of them or after the last, and only the first may be
    static. -/
structure CallChain (root : Expr) (path calls : List Expr) : Prop where
  linked : calls.IsChain fun c d => d.receiver? = some c
  methods : ∀ c ∈ calls, c.isMethodCall = true
  dotted : ∀ c ∈ calls.tail, c.isStaticCall = false
  starts : ∀ c ∈ calls.head?, ∀ r ∈ c.receiver?, r.isCall = false
  reached : ∀ c ∈ calls.getLast?, root.Reaches path c
  ends : ∀ c ∈ calls.getLast?, ∀ p ∈ path.head?, p.receiver? ≠ some c

/-! ### Receivers -/

section Receivers
variable {e c : Expr}

theorem isCall_of_isMethodCall (h : e.isMethodCall = true) : e.isCall = true := by
  cases e with
  | call => rfl
  | _ => cases h

theorem callCount_eq (h : e.isCall = true) : e.callCount = (e.receiver?.map callCount).getD 0 + 1 := by
  cases e with
  | call i subject method args =>
    unfold callCount receiver?
    dsimp only
    split
    · cases args <;> rfl
    · cases subject <;> rfl
  | _ => cases h

theorem callCount_eq_zero (h : e.isCall = false) : e.callCount = 0 := by
  cases e with
  | call => cases h
  | _ => rfl

theorem mem_children_of_receiver? (h : e.receiver? = some c) : c ∈ e.children := by
  cases e with
  | call i subject method args =>
    rw [receiver?] at h
    split at h
    · exact List.mem_append_right _ (List.mem_of_mem_head? h)
    · exact List.mem_append_left _ (Option.mem_toList.mpr h)
  | _ => cases h

/-- A method call that is not static is written after its receiver, if that is a call. -/
theorem receiverNodes_of_receiver? {i : Nat} {subject : Option Expr} {method : Method} {args : List Expr}
    (h : (Expr.call i subject method args).receiver? = some c) (hdotted : method.kind ≠ .static)
    (hcall : c.isCall = true) : receiverNodes subject method args = [c] := by
  have hcaptured : c.isCaptured = false := by
    cases c with
    | call => rfl
    | _ => cases hcall
  rw [receiver?] at h
  unfold receiverNodes
  cases hkind : method.kind with
  | «static» => exact absurd hkind hdotted
  | extension =>
    rw [if_pos hkind] at h
    simp [h]
  | onInstance =>
    rw [if_neg (by simp [hkind])] at h
    simp [h, Option.filter, hcaptured]

end Receivers

/-! ### Counting -/

namespace CallChain

variable {root c d : Expr} {path calls front back : List Expr}

theorem receiver?_eq (h : root.CallChain path calls) (hcalls : calls = front ++ c :: d :: back) :
    d.receiver? = some c := by
  have hlinked := h.linked
  rw [hcalls, List.isChain_append_cons_cons] at hlinked
  exact hlinked.2.1

theorem isMethodCall (h : root.CallChain path calls) (hcalls : calls = front ++ c :: back) :
    c.isMethodCall = true :=
  h.methods c (by simp [hcalls])

theorem isStaticCall (h : root.CallChain path calls) (hcalls : calls = front ++ c :: d :: back) :
    d.isStaticCall = false := by
  refine h.dotted d ?_
  rw [hcalls]
  cases front with
  | nil => simp
  | cons b front => simp

/-- The calls before a call of a chain are those that the call counts. -/
theorem callCount_eq (h : root.CallChain path calls) (hcalls : calls = front ++ c :: back) :
    c.callCount = front.length + 1 := by
  have hcall := isCall_of_isMethodCall (h.isMethodCall hcalls)
  induction front using List.reverseRecOn generalizing c back with
  | nil =>
    have hstarts := h.starts c (by simp [hcalls])
    rw [Expr.callCount_eq hcall]
    rcases hreceiver : c.receiver? with _ | r
    · rfl
    · simp [callCount_eq_zero (hstarts r hreceiver)]
  | append_singleton front b ih =>
    rw [List.append_assoc, List.singleton_append] at hcalls
    have hbefore := ih hcalls (isCall_of_isMethodCall (h.isMethodCall hcalls))
    rw [Expr.callCount_eq hcall, h.receiver?_eq hcalls]
    simp [hbefore]

theorem reaches (h : root.CallChain path calls) (hcalls : calls = front ++ c :: back) :
    root.Reaches (back ++ path) c := by
  induction back generalizing front c with
  | nil => exact h.reached c (by simp [hcalls])
  | cons d back ih =>
    have hsplit : calls = (front ++ [c]) ++ d :: back := by simp [hcalls]
    refine .step (ih hsplit) ?_
    have hmethod := h.isMethodCall hsplit
    have hstatic := h.isStaticCall hcalls
    have hreceiver := h.receiver?_eq hcalls
    have hcall := isCall_of_isMethodCall (h.isMethodCall hcalls)
    cases d with
    | call i subject method args =>
      obtain ⟨hconcat, hindexer⟩ := (Bool.and_eq_true _ _ ▸ hmethod : _ ∧ _)
      refine mem_callNodes_of_mem_receiverNodes (by simpa using hconcat) (by simpa using hindexer) ?_
      rw [receiverNodes_of_receiver? hreceiver (by simpa [Expr.isStaticCall] using hstatic) hcall]
      exact List.mem_cons_self
    | _ => cases hmethod

/-- The calls after a call of a chain are those on the path that are linked to it. -/
theorem linksAbove_eq (h : root.CallChain path calls) (htree : root.IsTree)
    (hcalls : calls = front ++ c :: back) : linksAbove (c :: (back ++ path)) = back.length := by
  induction back generalizing front c with
  | nil =>
    have hreached := h.reached c (by simp [hcalls])
    have hends := h.ends c (by simp [hcalls])
    cases hreached with
    | root => rfl
    | @step rest p c hp hc =>
      have hother : ∀ r ∈ p.receiver?, r.id ≠ c.id := by
        intro r hr hid
        have hbelow : r ∈ root.nodes := by
          refine nodes_trans root hp.mem_nodes ?_
          rw [nodes_eq]
          exact List.mem_cons_of_mem _
            (List.mem_flatMap.mpr ⟨r, mem_children_of_receiver? hr, self_mem_nodes r⟩)
        have heq : r = c := htree.nodesCoherent r hbelow c (Reaches.step hp hc).mem_nodes hid
        exact hends p rfl (heq ▸ hr)
      rcases hreceiver : p.receiver? with _ | r
      · simp [linksAbove, hreceiver]
      · simp [linksAbove, hreceiver, Expr.same, hother r hreceiver]
  | cons d back ih =>
    have hsplit : calls = (front ++ [c]) ++ d :: back := by simp [hcalls]
    simp [linksAbove, h.receiver?_eq hcalls, Expr.same, ih hsplit]

/-- A call of a chain with a call before it is broken exactly if the chain has at least three calls. -/
theorem isBroken_iff (h : root.CallChain path calls) (htree : root.IsTree)
    (hcalls : calls = front ++ c :: d :: back) : d.isBroken (back ++ path) = true ↔ 3 ≤ calls.length := by
  have hsplit : calls = (front ++ [c]) ++ d :: back := by simp [hcalls]
  have hcall := isCall_of_isMethodCall (h.isMethodCall hcalls)
  have hlength : calls.length = front.length + 1 + 1 + back.length := by
    rw [hcalls]
    simp
    omega
  rw [isBroken, h.receiver?_eq hcalls, h.callCount_eq hsplit, h.linksAbove_eq htree hsplit, hlength]
  simp [hcall]

/-- The first call of a chain is not broken. -/
theorem isBroken_first (h : root.CallChain path (c :: back)) : c.isBroken (back ++ path) = false := by
  rcases hreceiver : c.receiver? with _ | r
  · simp [isBroken, hreceiver]
  · simp [isBroken, hreceiver, h.starts c rfl r hreceiver]

end CallChain

end Expr

/-! ### Texts -/

/-- A call that is not static is written after the text of its receiver, if that is a call. -/
theorem Session.leadAt_eq (s : Session) (env : Env) (path : List Expr) {c d : Expr}
    (hstatic : d.isStaticCall = false) (hreceiver : d.receiver? = some c) (hcall : c.isCall = true) :
    s.leadAt env path d = some (s.textAt (d :: path) c) := by
  have hplain : needsGrouping c = false := by
    cases c with
    | call => rfl
    | _ => cases hcall
  cases d with
  | call i subject method args =>
    have hdotted : method.kind ≠ .static := by simpa [Expr.isStaticCall] using hstatic
    simp [Session.leadAt, hdotted, Expr.receiverNodes_of_receiver? hreceiver hdotted hcall,
      Session.receiverAt, hplain]
  | _ => cases hreceiver

/-- The dot between two calls of a chain of the given length. -/
def chainDot (indent : String) (length : Nat) : String :=
  if 3 ≤ length then "\n" ++ indent ++ "." else "."

/-- A chain of calls is broken before all of its calls but the first, or before none. Each call is written
    after the text of the one before it, on a line of its own if there are at least three calls. What stands
    before the first call stays on its line. -/
theorem call_chain_broken_all_or_none (root : Expr) (htree : root.IsTree)
    (hext : ∀ e ∈ root.nodes, e.kind ≠ .extension) (env : Env) (henv : env.registry = .standard)
    (text : String) (s : Session)
    (hrun : (RenderM.textOf root).runOn env (.start root) = (.ok text, s)) (path calls : List Expr)
    (hchain : root.CallChain path calls) :
    (∀ front c d back, calls = front ++ c :: d :: back →
      s.memo.lookup (d.place (back ++ path)) = some
        (s.textAt (d :: (back ++ path)) c ++ chainDot env.indent calls.length ++ s.callAt env (back ++ path) d)) ∧
    ∀ c back, calls = c :: back →
      s.memo.lookup (c.place (back ++ path)) = some
        (((s.leadAt env (back ++ path) c).map (· ++ ".")).getD "" ++ s.callAt env (back ++ path) c) := by
  have hcomposed : ∀ {front c back}, calls = front ++ c :: back →
      s.memo.lookup (c.place (back ++ path)) = some (((s.leadAt env (back ++ path) c).map fun lead =>
        lead ++ if c.isBroken (back ++ path) then "\n" ++ env.indent ++ "." else ".").getD "" ++
          s.callAt env (back ++ path) c) := by
    intro front c back hcalls
    have hreaches := hchain.reaches hcalls
    obtain ⟨given, hgiven⟩ := exists_remembered htree hext henv hrun hreaches
    obtain ⟨_, -, hcomposes⟩ := composes_textOf htree hext henv hrun hreaches hgiven
    rw [hgiven, ← hcomposes.methodCall_eq (hchain.isMethodCall hcalls)]
  constructor
  · intro front c d back hcalls
    have hsplit : calls = (front ++ [c]) ++ d :: back := by simp [hcalls]
    have hcall := Expr.isCall_of_isMethodCall (hchain.isMethodCall hcalls)
    rw [hcomposed hsplit, s.leadAt_eq env _ (hchain.isStaticCall hcalls) (hchain.receiver?_eq hcalls) hcall]
    simp only [hchain.isBroken_iff htree hcalls, chainDot, Option.map_some, Option.getD_some]
  · intro c back hcalls
    have hfirst : c.isBroken (back ++ path) = false := (hcalls ▸ hchain).isBroken_first
    rw [hcomposed (show calls = [] ++ c :: back from hcalls)]
    simp only [hfirst, Bool.false_eq_true, if_false]

section Examples

private def listVariable : Variable := ⟨0, some "xs", .array .int 1⟩

private def onList (name : String) : Method :=
  Method.new .onInstance (.array .int 1) name

private def firstCall : Expr :=
  .call 3 (some (.variable 4 listVariable)) (onList "Where") []

/-- A call of an extension method. -/
private def secondCall : Expr :=
  .call 1 none (((Method.new .extension (.named none "Lists" []) "Take").param "xs" (.array .int 1)).param "n" .int)
    [firstCall, .constant 2 (.int 5) .int]

private def thirdCall : Expr :=
  .call 0 (some secondCall) (onList "Count") []

/-- What is remembered after the third call was shown. -/
private def shownCalls : Session :=
  ((RenderM.textOf thirdCall).runOn {} (.start thirdCall)).2

private theorem callChain_thirdCall : thirdCall.CallChain [] [firstCall, secondCall, thirdCall] where
  linked := .cons_cons rfl (.cons_cons rfl (.singleton _))
  methods := by decide +kernel
  dotted := by decide +kernel
  starts := by
    rintro _ ⟨⟩ _ ⟨⟩
    rfl
  reached := by
    rintro _ ⟨⟩
    exact .root
  ends := by
    rintro _ _ _ ⟨⟩

theorem call_chain_broken_all_or_none_three :
    thirdCall.IsTree ∧ (∀ e ∈ thirdCall.nodes, e.kind ≠ .extension) ∧
    thirdCall.CallChain [] [firstCall, secondCall, thirdCall] ∧
    ∃ text s, (RenderM.textOf thirdCall).runOn {} (.start thirdCall) = (.ok text, s) ∧
      s.memo.lookup (firstCall.place [secondCall, thirdCall]) = some "xs.Where()" ∧
      s.memo.lookup (secondCall.place [thirdCall]) = some "xs.Where()\n    .Take(5)" ∧
      s.memo.lookup (thirdCall.place []) = some "xs.Where()\n    .Take(5)\n    .Count()" := by
  have htree : thirdCall.IsTree := by decide +kernel
  have hext : ∀ e ∈ thirdCall.nodes, e.kind ≠ .extension := by decide +kernel
  have hok : ((RenderM.textOf thirdCall).runOn {} (.start thirdCall)).1.toOption.isSome = true := by
    decide +kernel
  have hparts : shownCalls.leadAt {} [secondCall, thirdCall] firstCall = some "xs" ∧
      shownCalls.callAt {} [secondCall, thirdCall] firstCall = "Where()" ∧
      shownCalls.callAt {} [thirdCall] secondCall = "Take(5)" ∧
      shownCalls.callAt {} [] thirdCall = "Count()" := by
    decide +kernel
  rcases hrun : (RenderM.textOf thirdCall).runOn {} (.start thirdCall) with ⟨fault | text, s⟩
  · rw [hrun] at hok
    cases hok
  · obtain ⟨hlead, hfirst, hsecond, hthird⟩ := (show shownCalls = s by rw [shownCalls, hrun]) ▸ hparts
    obtain ⟨hlater, hstart⟩ := call_chain_broken_all_or_none thirdCall htree hext {} (by simp) text s hrun [] _
      callChain_thirdCall
    have hone := hstart _ _ rfl
    have htwo := hlater [] _ _ _ rfl
    have hthree := hlater [firstCall] _ _ _ rfl
    simp only [List.append_nil] at hone htwo hthree
    rw [hlead, hfirst] at hone
    rw [Session.textAt, hone, hsecond] at htwo
    rw [Session.textAt, htwo, hthird] at hthree
    exact ⟨htree, hext, callChain_thirdCall, text, s, rfl, hone, htwo, hthree⟩

end Examples

end ExprText
