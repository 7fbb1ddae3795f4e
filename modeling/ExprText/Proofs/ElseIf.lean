import Mathlib.Data.List.Chain
import ExprText.Proofs.Composed.Expressed
import ExprText.Proofs.Composed.Layouts

/-! # Chains of conditionals

A conditional whose second branch is a conditional writes that one behind its `else`, without braces. What
is written there is again a condition with a body in braces, and so on down the chain, up to the first
conditional that does not continue it. If that one has its branches in braces, all of the second branch is
governed by the `else`. If it is an operator, no condition stands behind the `else`; and if it leaves with a
value, the statements of its own second branch stand after the chain, where no `else` governs them. -/

namespace ExprText

open Text Render RenderM Session

namespace Text

/-! ### Chains -/

/-- One or more conditions with bodies in braces, each behind the `else` of the one before it; the last may
    have an `else` with a body of its own. -/
inductive IfChain : String → Prop
  | last {test body : String} (htest : Balanced test) (hbody : Balanced body) : IfChain (ifBlock test body)
  | both {test body other : String} (htest : Balanced test) (hbody : Balanced body)
    (hother : Balanced other) : IfChain (ifBlock test body ++ "\nelse" ++ ("\n\x7b" ++ other ++ "\x7d"))
  | next {test body rest : String} (htest : Balanced test) (hbody : Balanced body) (hrest : IfChain rest) :
    IfChain (ifBlock test body ++ "\nelse " ++ rest)

namespace IfChain
variable {text : String}

theorem isPrefix (h : IfChain text) : "if (".toList <+: text.toList := by
  cases h with
  | last | both | next =>
    simp only [ifBlock, String.toList_append, List.append_assoc]
    exact List.prefix_append _ _

theorem balanced (h : IfChain text) : Balanced text := by
  have helse : Balanced "\nelse" := by decide
  have helse' : Balanced "\nelse " := by decide
  induction h with
  | last htest hbody => exact balanced_ifBlock htest hbody
  | both htest hbody hother =>
    exact ((balanced_ifBlock htest hbody).append helse).append (hother.within rfl (by decide))
  | next htest hbody _ ih => exact ((balanced_ifBlock htest hbody).append helse').append ih

/-- Outside of the brackets of a chain there is no question mark and no empty line. -/
theorem outermost (h : IfChain text) : '?' ∉ outermost text ∧
    (Text.outermost text).IsChain fun a b => ¬(a = '\n' ∧ b = '\n') := by
  have helse : Balanced "\nelse" := by decide
  have helse' : Balanced "\nelse " := by decide
  induction h with
  | last htest hbody =>
    rw [outermost_ifBlock htest hbody]
    decide
  | both htest hbody hother =>
    have hblock := balanced_ifBlock htest hbody
    rw [(hblock.append helse).outermost_append, hblock.outermost_append, outermost_ifBlock htest hbody,
      hother.outermost_within rfl rfl]
    decide
  | next htest hbody _ ih =>
    have hblock := balanced_ifBlock htest hbody
    rw [(hblock.append helse').outermost_append, hblock.outermost_append, outermost_ifBlock htest hbody]
    refine ⟨?_, ?_⟩
    · rw [List.mem_append, not_or]
      exact ⟨by decide, ih.1⟩
    · refine List.isChain_append.mpr ⟨by decide, ih.2, fun a ha b _ hab => ?_⟩
      cases ha
      exact absurd hab.1 (by decide)

theorem getLast?_eq (h : IfChain text) : text.toList.getLast? = some '\x7d' := by
  have hbrace : ∀ front : String, (front ++ "\x7d").toList.getLast? = some '\x7d' := by simp
  induction h with
  | last => exact hbrace _
  | both =>
    simp only [← String.append_assoc]
    exact hbrace _
  | next _ _ _ ih => rw [String.toList_append, List.getLast?_append, ih, Option.some_or]

/-- What stands after an empty line is not of the chain before it. -/
theorem not_append (h : IfChain text) (after : String) : ¬IfChain (text ++ "\n\n" ++ after) := by
  intro hwhole
  have hline : Balanced "\n\n" := by decide
  have houter := hwhole.outermost.2
  rw [(h.balanced.append hline).outermost_append, h.balanced.outermost_append, List.append_assoc] at houter
  have hgap := (List.isChain_append.mp (List.isChain_append.mp houter).2.1).1
  exact absurd hgap (by decide)

end IfChain

/-! ### Semicolons at the end -/

/-- Whether `rest` is `text` less some semicolons at its end. -/
def Shortened (text rest : String) : Prop :=
  ∃ n, text.toList = rest.toList ++ List.replicate n ';'

theorem shortened_unterminated (text : String) : Shortened text (unterminated text) := by
  unfold unterminated
  split
  · next hlast =>
    obtain ⟨front, hfront⟩ := List.getLast?_eq_some_iff.mp hlast
    exact ⟨1, by simp [hfront]⟩
  · exact ⟨0, by simp⟩

theorem Shortened.trans {a b c : String} (hab : Shortened a b) (hbc : Shortened b c) : Shortened a c := by
  obtain ⟨n, hn⟩ := hab
  obtain ⟨m, hm⟩ := hbc
  exact ⟨m + n, by rw [hn, hm, List.append_assoc, List.replicate_append_replicate]⟩

/-- Semicolons are taken off what follows a text that does not end in one. -/
theorem Shortened.exists_append {a b rest : String} {c : Char} (h : Shortened (a ++ b) rest)
    (ha : a.toList.getLast? = some c) (hc : c ≠ ';') : ∃ b', rest = a ++ b' ∧ Shortened b b' := by
  obtain ⟨n, hn⟩ := h
  rw [String.toList_append] at hn
  rcases List.append_eq_append_iff.mp hn with ⟨more, hrest, hb⟩ | ⟨off, hoff, hmarks⟩
  · exact ⟨String.ofList more, by simp [← String.toList_inj, hrest], n, by simpa using hb⟩
  · rcases List.eq_nil_or_concat off with rfl | ⟨front, d, rfl⟩
    · exact ⟨"", by simpa [← String.toList_inj] using hoff.symm, n, by simpa using hmarks.symm⟩
    · have hmem : d ∈ List.replicate n ';' := by simp [hmarks]
      have hd : d = ';' := List.eq_of_mem_replicate hmem
      rw [hoff, List.getLast?_append] at ha
      simp at ha
      exact absurd (ha.symm.trans hd) hc

theorem Shortened.eq_of_getLast? {text rest : String} {c : Char} (h : Shortened text rest)
    (hlast : text.toList.getLast? = some c) (hc : c ≠ ';') : rest = text := by
  have happend : Shortened (text ++ "") rest := by rwa [String.append_empty]
  obtain ⟨more, rfl, n, hn⟩ := happend.exists_append hlast hc
  have hmore : more = "" := by simpa using (List.append_eq_nil_iff.mp hn.symm).1
  rw [hmore, String.append_empty]

end Text

/-! ### Where a chain ends -/

/-- The conditional at which the chain of a conditional ends. -/
def Expr.lastElse : Expr → Expr
  | e@(.conditional _ _ ifTrue ifFalse ty) =>
    if Layout.of ifTrue ifFalse ty = .elseIf then ifFalse.lastElse else e
  | e => e

/-- The second branch of a conditional. -/
def Expr.second? : Expr → Option Expr
  | .conditional _ _ _ ifFalse _ => some ifFalse
  | _ => none

/-- What is written of a conditional behind an `else`, by the layout of the one that ends its chain. -/
structure Session.ElseWritten (s : Session) (root e : Expr) (indent rest : String) : Prop where
  braced : e.lastElse.layout? = some .alone ∨ e.lastElse.layout? = some .both → IfChain rest
  guard : e.lastElse.layout? = some .guard → ∃ path c chain after, root.Reaches path e.lastElse ∧
    e.lastElse.second? = some c ∧ IfChain chain ∧ rest = chain ++ "\n\n" ++ after ∧
    Shortened (s.bodyAt (e.lastElse :: path) indent c).statements after
  operator : e.lastElse.layout? = some .operator → '?' ∈ outermost rest

section Chains
variable {root : Expr} {settings : Settings} {qualified : Bool} {s : Session} {path : List Expr}
  {ifTrue ifFalse : Expr} {ty : Ty}

theorem isConditional_of_layout (h : Layout.of ifTrue ifFalse ty = .elseIf) :
    ifFalse.isConditional = true := by
  unfold Layout.of at h
  split at h
  · cases h
  · split at h
    · cases h
    · split at h
      · cases h
      · split at h
        · assumption
        · cases h

/-- A branch that is a conditional keeps its text. -/
theorem expression_of_isConditional {c : Expr} (indent : String) (h : c.isConditional = true) :
    (s.bodyAt path indent c).expression = unterminated (s.textAt path c) := by
  cases c with
  | conditional => rfl
  | _ => cases h

theorem Session.ElseWritten.of_braced {e : Expr} {indent rest : String} {layout : Layout}
    (hlast : e.lastElse.layout? = some layout) (hchain : IfChain rest)
    (hguard : layout ≠ .guard) (hoperator : layout ≠ .operator) : s.ElseWritten root e indent rest where
  braced _ := hchain
  guard h := absurd (Option.some.inj (hlast.symm.trans h)) hguard
  operator h := absurd (Option.some.inj (hlast.symm.trans h)) hoperator

/-- A chain goes on in front of the one that its second branch is. -/
theorem Session.ElseWritten.next {e c : Expr} {indent condition body rest : String}
    (h : s.ElseWritten root c indent rest) (hlast : e.lastElse = c.lastElse)
    (hcondition : Balanced condition) (hbody : Balanced body) :
    s.ElseWritten root e indent (ifBlock condition body ++ "\nelse " ++ rest) := by
  have helse : Balanced "\nelse " := by decide
  refine ⟨fun hbraced => ?_, fun hguard => ?_, fun hoperator => ?_⟩
  · exact .next hcondition hbody (h.braced (hlast ▸ hbraced))
  · obtain ⟨path, d, chain, after, hreaches, hd, hchain, rfl, hafter⟩ := h.guard (hlast ▸ hguard)
    rw [hlast]
    refine ⟨path, d, ifBlock condition body ++ "\nelse " ++ chain, after, hreaches, hd,
      .next hcondition hbody hchain, ?_, hafter⟩
    simp only [String.append_assoc]
  · have hmark := h.operator (hlast ▸ hoperator)
    rw [((balanced_ifBlock hcondition hbody).append helse).outermost_append]
    exact List.mem_append_right _ hmark

/-- What is written behind an `else`. The induction is on the chain: what is shortened at the end of a chain
    is shortened at the end of its last conditional. -/
theorem Session.Finishes.elseWritten (h : s.Finishes root settings qualified) {e : Expr}
    {text rest : String} (he : root.Reaches path e) (hconditional : e.isConditional = true)
    (htext : s.memo.lookup (e.place path) = some text) (hrest : Shortened text rest) :
    s.ElseWritten root e settings.indent rest := by
  -- Each conditional of the chain takes a semicolon off the text behind its `else`, so `rest` is any text that
  -- is left after some of these.
  induction e using Expr.childInduction generalizing path text rest with
  | step e ih =>
    cases e with
    | conditional i test ifTrue ifFalse ty =>
      have hwrites := h.layout_writes he htext
      generalize hlayout : Layout.of ifTrue ifFalse ty = layout at hwrites
      have hlast : layout ≠ .elseIf →
          (Expr.conditional i test ifTrue ifFalse ty).lastElse = .conditional i test ifTrue ifFalse ty :=
        fun hne => by rw [Expr.lastElse, if_neg (hlayout ▸ hne)]
      have hkind : layout ≠ .elseIf →
          (Expr.conditional i test ifTrue ifFalse ty).lastElse.layout? = some layout :=
        fun hne => by rw [hlast hne, Expr.layout?, hlayout]
      cases hwrites with
      | alone hcondition hbody =>
        have hchain : IfChain _ := .last hcondition hbody
        obtain rfl := hrest.eq_of_getLast? hchain.getLast?_eq (by decide)
        exact .of_braced (hkind (by decide)) hchain (by decide) (by decide)
      | both hcondition hbody hother =>
        have hchain : IfChain _ := .both hcondition hbody hother
        obtain rfl := hrest.eq_of_getLast? hchain.getLast?_eq (by decide)
        exact .of_braced (hkind (by decide)) hchain (by decide) (by decide)
      | operator htest =>
        obtain ⟨more, rfl, -⟩ := hrest.exists_append (c := ' ')
          (by rw [String.toList_append, List.getLast?_append]; rfl) (by decide)
        have hmark : Balanced " ? " := by decide
        refine ⟨fun hbraced => ?_, fun hguard => ?_, fun _ => ?_⟩
        · rw [hkind (by decide)] at hbraced
          rcases hbraced with hbraced | hbraced <;> cases hbraced
        · rw [hkind (by decide)] at hguard
          cases hguard
        · simp only [String.append_assoc]
          rw [htest.outermost_append, hmark.outermost_append]
          exact List.mem_append_right _ (List.mem_append_left _ (by decide))
      | guard hcondition hbody =>
        obtain ⟨after, rfl, hafter⟩ := hrest.exists_append (c := '\n') (by simp) (by decide)
        refine ⟨fun hbraced => ?_, fun _ => ?_, fun hoperator => ?_⟩
        · rw [hkind (by decide)] at hbraced
          rcases hbraced with hbraced | hbraced <;> cases hbraced
        · rw [hlast (by decide)]
          exact ⟨path, ifFalse, _, after, he, rfl, .last hcondition hbody, rfl, hafter⟩
        · rw [hkind (by decide)] at hoperator
          cases hoperator
      | elseIf hcondition hbody =>
        have hinner := isConditional_of_layout hlayout
        obtain ⟨hreaches, hgiven⟩ := h.exists_text he htext
          (Expr.mem_shown_second (by rw [hlayout]; decide))
        obtain ⟨more, rfl, hmore⟩ := hrest.exists_append (c := ' ') (by simp) (by decide)
        rw [expression_of_isConditional settings.indent hinner] at hmore
        have hwritten := ih ifFalse (by simp [Expr.children]) hreaches hinner hgiven
          ((shortened_unterminated _).trans hmore)
        refine hwritten.next ?_ hcondition hbody
        rw [Expr.lastElse, if_pos hlayout]
    | _ => cases hconditional

theorem Expr.exists_layout?_lastElse {e : Expr} (h : e.isConditional = true) :
    ∃ layout, e.lastElse.layout? = some layout ∧ layout ≠ .elseIf := by
  induction e using Expr.childInduction with
  | step e ih =>
    cases e with
    | conditional i test ifTrue ifFalse ty =>
      by_cases hlayout : Layout.of ifTrue ifFalse ty = .elseIf
      · rw [Expr.lastElse, if_pos hlayout]
        exact ih ifFalse (by simp [Expr.children]) (isConditional_of_layout hlayout)
      · rw [Expr.lastElse, if_neg hlayout]
        exact ⟨_, rfl, hlayout⟩
    | _ => cases h

theorem Session.ElseWritten.ifChain_iff {e : Expr} {indent rest : String}
    (h : s.ElseWritten root e indent rest) (hconditional : e.isConditional = true) :
    IfChain rest ↔ e.lastElse.layout? = some .alone ∨ e.lastElse.layout? = some .both := by
  refine ⟨fun hchain => ?_, h.braced⟩
  obtain ⟨layout, hlayout, hne⟩ := Expr.exists_layout?_lastElse hconditional
  cases layout with
  | alone => exact .inl hlayout
  | both => exact .inr hlayout
  | elseIf => exact absurd rfl hne
  | operator => exact absurd (h.operator hlayout) hchain.outermost.1
  | guard =>
    obtain ⟨_, _, chain, after, -, -, hfirst, rfl, -⟩ := h.guard hlayout
    exact absurd hchain (hfirst.not_append after)

end Chains

/-- What stands behind the `else` of a conditional whose second branch is a conditional: a chain of
    conditions with bodies in braces and nothing else, exactly if the conditional that ends the chain has its
    branches in braces. If that one leaves with a value, the statements of its second branch follow the chain;
    if it is an operator, its question mark stands outside of all brackets. -/
theorem else_if_governs_branch (root : Expr) (htree : root.IsTree)
    (hext : ∀ e ∈ root.nodes, e.kind ≠ .extension)
    (hspelled : ∀ e ∈ root.nodes, ∀ w ∈ e.spellings, IsName w) (settings : Settings) (qualified : Bool)
    (text : String) (s : Session)
    (hrun : (RenderM.textOf root).runOn { settings, qualified } (.start root) = (.ok text, s))
    (path : List Expr) (i : Nat) (test ifTrue ifFalse : Expr) (ty : Ty)
    (he : root.Reaches path (.conditional i test ifTrue ifFalse ty)) (hvoid : ty.isVoid = true)
    (hfirst : ifTrue.ty.isVoid = true) (hsecond : ifFalse.isConditional = true) :
    ∃ given condition body rest,
      s.memo.lookup ((Expr.conditional i test ifTrue ifFalse ty).place path) = some given ∧
      Balanced condition ∧ Balanced body ∧ given = ifBlock condition body ++ "\nelse " ++ rest ∧
      (IfChain rest ↔ ifFalse.lastElse.layout? = some .alone ∨ ifFalse.lastElse.layout? = some .both) ∧
      (IfChain rest → "if (".toList <+: rest.toList) ∧ s.ElseWritten root ifFalse settings.indent rest := by
  have h : s.Finishes root settings qualified := finishes_textOf htree hext hspelled hrun
  obtain ⟨given, hgiven⟩ := exists_remembered htree hext (by simp) hrun he
  have hlayout : Layout.of ifTrue ifFalse ty = .elseIf := by
    have hempty : ifFalse.isEmpty = false := by
      cases ifFalse with
      | conditional => rfl
      | _ => cases hsecond
    simp [Layout.of, hvoid, hfirst, hsecond, hempty]
  have hwrites := h.layout_writes he hgiven
  rw [hlayout] at hwrites
  cases hwrites with
  | elseIf hcondition hbody =>
    obtain ⟨hreaches, hinner⟩ := h.exists_text he hgiven (Expr.mem_shown_second (by rw [hlayout]; decide))
    have hwritten := h.elseWritten hreaches hsecond hinner (shortened_unterminated _)
    refine ⟨_, _, _, _, hgiven, hcondition, hbody, rfl, ?_, IfChain.isPrefix, ?_⟩
    · rw [expression_of_isConditional settings.indent hsecond]
      exact hwritten.ifChain_iff hsecond
    · rw [expression_of_isConditional settings.indent hsecond]
      exact hwritten

section Examples

private def condition (id : Nat) (n : String) : Expr :=
  .variable id ⟨id, some n, .bool⟩

private def effect (id : Nat) (n : String) : Expr :=
  .call id none (Method.new .static (.named none "T" []) n) []

/-- Two conditions, each with its call, and a call for the case that neither holds. -/
private def twoConditions : Expr :=
  .conditional 0 (condition 1 "a") (effect 2 "F")
    (.conditional 3 (condition 4 "b") (effect 5 "G") (effect 6 "H") .void) .void

theorem else_if_governs_branch_of_two :
    twoConditions.IsTree ∧ (∀ e ∈ twoConditions.nodes, e.kind ≠ .extension) ∧
    (∀ e ∈ twoConditions.nodes, ∀ w ∈ e.spellings, IsName w) ∧
    ∃ text s given front rest, (RenderM.textOf twoConditions).runOn {} (.start twoConditions) = (.ok text, s) ∧
      s.memo.lookup (twoConditions.place []) = some given ∧ given = front ++ "\nelse " ++ rest ∧
      IfChain rest := by
  have htree : twoConditions.IsTree := by decide +kernel
  have hext : ∀ e ∈ twoConditions.nodes, e.kind ≠ .extension := by decide +kernel
  have hspelled : ∀ e ∈ twoConditions.nodes, ∀ w ∈ e.spellings, IsName w := by decide +kernel
  have hok : ((RenderM.textOf twoConditions).runOn {} (.start twoConditions)).1.toOption.isSome = true := by
    decide +kernel
  rcases hrun : (RenderM.textOf twoConditions).runOn {} (.start twoConditions) with ⟨fault | text, s⟩
  · rw [hrun] at hok
    cases hok
  · obtain ⟨given, _, _, rest, hgiven, -, -, heq, hchain, -⟩ := else_if_governs_branch twoConditions htree hext
      hspelled {} false text s hrun [] 0 (condition 1 "a") (effect 2 "F")
      (.conditional 3 (condition 4 "b") (effect 5 "G") (effect 6 "H") .void) .void .root rfl rfl rfl
    exact ⟨htree, hext, hspelled, text, s, given, _, rest, rfl, hgiven, heq, hchain.mpr (.inr rfl)⟩

/-- A conditional whose second branch is the given one. -/
private def elseBranch (e : Expr) : Expr :=
  .conditional 0 (condition 1 "a") (effect 2 "F") e .void

/-- A conditional that leaves with a value in its first branch. -/
private def leavingBranch : Expr :=
  .conditional 3 (condition 4 "b")
    (.assign 5 .assign (.variable 6 ⟨6, some "v", .int⟩) (.constant 7 (.int 1) .int)) (effect 8 "G") .void

private def operatorBranch : Expr :=
  .conditional 3 (condition 4 "b") (.variable 5 ⟨5, some "x", .int⟩) (.variable 6 ⟨6, some "y", .int⟩) .int

/-- A call that the `else` before it does not govern, and an operator behind an `else`. -/
theorem else_if_loses_branch :
    (∀ e ∈ [leavingBranch, operatorBranch], (elseBranch e).IsTree ∧ e.isConditional = true ∧
      ∀ c ∈ (elseBranch e).nodes, c.kind ≠ .extension ∧ ∀ w ∈ c.spellings, IsName w) ∧
    (elseBranch leavingBranch).render {} = .ok ("if (a)\n\x7b\n    T.F();\n\x7d" ++ "\nelse " ++
      "if (b)\n\x7b\n    v = 1;\n\x7d\n\nT.G()") ∧
    ¬IfChain "if (b)\n\x7b\n    v = 1;\n\x7d\n\nT.G()" ∧
    (elseBranch operatorBranch).render {} = .ok ("if (a)\n\x7b\n    T.F();\n\x7d" ++ "\nelse " ++
      "b ? x : y") ∧
    ¬IfChain "b ? x : y" := by
  refine ⟨by decide +kernel, by decide +kernel, fun h => ?_, by decide +kernel, fun h => ?_⟩
  · exact absurd h.outermost.2 (by decide)
  · exact absurd h.outermost.1 (by decide)

end Examples

end ExprText
