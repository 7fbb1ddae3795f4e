import ExprText.Proofs.Locals.Writing

/-! # Locals that are declared once

A block declares a local up front if no statement assigns it, and with the first statement that assigns
it otherwise. So the local is declared once and before it is used if the first statement that mentions it
is that assignment. An assignment that is returned declares nothing, though, and one that comes late
leaves the statements before it with a variable that is not declared yet. -/

namespace ExprText

open Render Session

namespace Expr

/-- Whether the variable with the given identity occurs in a tree, as an operand, as a parameter or as a
    local. -/
def MentionsVariable (i : Nat) (e : Expr) : Prop :=
  ∃ x ∈ e.nodes, ∃ r ∈ x.requests, r.key = .variable i

instance (i : Nat) (e : Expr) : Decidable (e.MentionsVariable i) :=
  inferInstanceAs (Decidable (∃ x ∈ e.nodes, ∃ r ∈ x.requests, r.key = .variable i))

/-- Whether a block under `parent` meets a local first where it declares it. -/
inductive Leads (parent : Option Expr) (i : Nat) (e : Expr) : Prop
  | unassigned (h : ∀ c ∈ e.shown, c.assignsTo i = false)
  | assigned {before after : List Expr} {c : Expr} (shown : e.shown = before ++ c :: after)
    (first : ∀ x ∈ before, ¬x.MentionsVariable i) (assigns : c.assignsTo i = true)
    (unreturned : after ≠ [] ∨ e.returnsValue parent = false) (alone : ∀ x ∈ c.nodes, i ∉ x.locals)

section Mentions
variable {e : Expr} {i : Nat}

theorem exists_request_of_mem_locals (hi : i ∈ e.locals) : ∃ r ∈ e.requests, r.key = .variable i := by
  cases e with
  | block id locals all ty =>
    obtain ⟨v, hv, rfl⟩ := List.mem_map.mp hi
    exact ⟨.variable v, List.mem_map_of_mem hv, rfl⟩
  | _ => cases hi

theorem not_mem_locals_of_not_mentions (h : ¬e.MentionsVariable i) : ∀ x ∈ e.nodes, i ∉ x.locals :=
  fun x hx hi => h ⟨x, hx, exists_request_of_mem_locals hi⟩

theorem mentions_of_assignsTo (h : e.assignsTo i = true) : e.MentionsVariable i := by
  obtain ⟨id, target, v, value, rfl, rfl⟩ := eq_assign_of_assignsTo h
  refine ⟨.variable target v, ?_, .variable v, List.mem_singleton_self _, rfl⟩
  rw [nodes_eq]
  exact List.mem_cons_of_mem _ List.mem_cons_self

end Mentions

/-! ### What is declared where -/

section Covering
variable {root e : Expr} {path : List Expr} {known : List Nat} {i : Nat}

/-- Where a variable is declared, a block above lists it. -/
theorem mem_locals_of_mem_statementSteps {locals : List Variable} {x : Expr × List Nat} :
    ∀ {xs : List Expr} {known : List Nat}, x ∈ statementSteps declareId locals xs known → i ∈ x.2 →
      i ∈ known ∨ i ∈ locals.map Variable.id
  | [], _, h, _ => by cases h
  | s :: rest, known, h, hi => by
    rcases List.mem_cons.mp h with rfl | h
    · exact .inl hi
    · rcases mem_locals_of_mem_statementSteps h hi with hi | hi
      · exact (mem_afterStatement.mp hi).imp_right mem_of_assigns
      · exact .inr hi

theorem mem_locals_of_mem_steps {x : Expr × List Nat} (h : x ∈ e.steps declareId known) (hi : i ∈ x.2) :
    i ∈ known ∨ i ∈ e.locals := by
  cases e with
  | block id locals all ty =>
    rcases mem_locals_of_mem_statementSteps h hi with hi | hi
    · exact (mem_afterDeclarations.mp hi).imp_right And.left
    · exact .inr hi
  | _ =>
    obtain ⟨c, -, rfl⟩ := List.mem_map.mp h
    exact .inl hi

theorem Meets.mem_locals (h : root.Meets path e known) (hi : i ∈ known) : ∃ a ∈ path, i ∈ a.locals := by
  induction h with
  | root => cases hi
  | @step path e known _ x hx ih =>
    rcases mem_locals_of_mem_steps hx hi with hi | hi
    · obtain ⟨a, ha, hi⟩ := ih hi
      exact ⟨a, List.mem_cons_of_mem _ ha, hi⟩
    · exact ⟨e, List.mem_cons_self, hi⟩

/-- Whether no block in a tree can declare a variable where the given ones are declared. -/
def Settled (i : Nat) (e : Expr) (known : List Nat) : Prop :=
  i ∈ known ∨ ∀ x ∈ e.nodes, i ∉ x.locals

theorem Settled.step (h : e.Settled i known) {x : Expr × List Nat} (hx : x ∈ e.steps declareId known) :
    x.1.Settled i x.2 := by
  refine h.imp (mem_of_mem_steps hx) fun h y hy => h y ?_
  exact nodes_trans e (mem_nodes_of_mem_shown (mem_shown_of_mem_steps _ hx)) hy

theorem settled_statementSteps {locals : List Variable} {c : Expr} {after : List Expr}
    (hc : assigns locals i c = true) (halone : ∀ x ∈ c.nodes, i ∉ x.locals) : ∀ (before : List Expr)
    (known : List Nat), (∀ x ∈ before, ¬x.MentionsVariable i) →
    ∀ x ∈ statementSteps declareId locals (before ++ c :: after) known, x.1.Settled i x.2
  | [], known, _, x, hx => by
    rcases List.mem_cons.mp hx with rfl | hx
    · exact .inr halone
    · exact .inl (mem_of_mem_statementSteps hx (mem_afterStatement.mpr (.inr hc)))
  | b :: before, known, hbefore, x, hx => by
    obtain ⟨hb, hbefore⟩ := List.forall_mem_cons.mp hbefore
    rcases List.mem_cons.mp hx with rfl | hx
    · exact .inr (not_mem_locals_of_not_mentions hb)
    · exact settled_statementSteps hc halone before _ hbefore x hx

/-- Once a block has declared a local, no block below it does. -/
theorem Leads.settled {parent : Option Expr} (h : e.Leads parent i) (hi : i ∈ e.locals)
    {x : Expr × List Nat} (hx : x ∈ e.steps declareId known) : x.1.Settled i x.2 := by
  cases e with
  | block id locals all ty =>
    have hassigns := assigns_eq_assignsTo (show i ∈ locals.map Variable.id from hi)
    cases h with
    | unassigned h =>
      refine .inl (mem_of_mem_statementSteps hx (mem_afterDeclarations.mpr (.inr ⟨hi, ?_⟩)))
      exact List.any_eq_false.mpr fun c hc => by rw [hassigns, h c hc]; exact Bool.false_ne_true
    | assigned hshown hfirst hc _ halone =>
      have hshown : all.filter (!·.isEmpty) = _ := hshown
      rw [steps, hshown] at hx
      exact settled_statementSteps ((hassigns _).trans hc) halone _ _ hfirst x hx
  | _ => cases hi

theorem Meets.settled {parent : Option Expr} {path' : List Expr} {e' : Expr} {known' : List Nat}
    (h : root.Meets path' e' known') (he : e ∈ path') (hleads : e.Leads parent i) (hi : i ∈ e.locals) :
    e'.Settled i known' := by
  induction h with
  | root => cases he
  | step _ hx ih =>
    rcases List.mem_cons.mp he with rfl | he
    · exact hleads.settled hi hx
    · exact (ih he).step hx

theorem Settled.count_plan {parent : Option Expr} (h : e.Settled i known) :
    (e.plan parent known).count i = 0 :=
  count_plan_eq_zero (h.symm.imp_left fun h => h e (self_mem_nodes e))

theorem Leads.count_plan {parent : Option Expr} (h : e.Leads parent i) (hi : i ∈ e.locals)
    (hknown : i ∉ known) : (e.plan parent known).count i = 1 := by
  rw [Expr.count_plan hi hknown, if_pos]
  cases h with
  | unassigned h => exact .inl (List.any_eq_false.mpr fun c hc => by simp [h c hc])
  | @assigned before after c hshown _ hc hlast _ =>
    refine .inr (List.any_eq_true.mpr ⟨c, ?_, hc⟩)
    rw [hshown, ExprText.unreturned]
    split
    · next hreturns =>
      have hafter : after ≠ [] := hlast.resolve_right (by simp [hreturns])
      simp [List.dropLast_append_of_ne_nil, List.dropLast_cons_of_ne_nil hafter]
    · simp

end Covering

end Expr

/-! ### Renderings -/

section Renderings
variable {root e : Expr} {env : Env} {path : List Expr} {known : List Nat} {i : Nat} {s : Session}

/-- The session that a successful rendering ends with recorded how the nodes are shown. -/
theorem records_native (htree : root.IsTree) (hnative : ∀ e ∈ root.nodes, e.IsNative)
    (henv : env.registry = .standard) {text : String}
    (hrun : (RenderM.textOf root).runOn env (.start root) = (.ok text, s)) : s.Records root env [] [] :=
  (watches_visit htree hnative henv root.height .root (Nat.le_refl _) _ _ _ (.start root env) hrun).1

theorem records_textOf (htree : root.IsTree) (hext : ∀ e ∈ root.nodes, e.kind ≠ .extension)
    (henv : env.registry = .standard) {text : String}
    (hrun : (RenderM.textOf root).runOn env (.start root) = (.ok text, s)) : s.Records root env [] [] :=
  records_native htree (fun c hc => .of_kind (hext c hc)) henv hrun

/-- The text of an assignment to a variable starts with the name of the variable. -/
theorem Session.Records.textAt_assign (h : s.Records root env [] []) {id target : Nat} {v : Variable}
    {value : Expr} (hc : root.Reaches path (.assign id .assign (.variable target v) value))
    (hsome : (s.memo.lookup ((Expr.assign id .assign (.variable target v) value).place path)).isSome = true) :
    ∃ right, s.textAt path (.assign id .assign (.variable target v) value) =
      s.nameGiven v ++ " = " ++ right := by
  obtain ⟨text, htext⟩ := Option.isSome_iff_exists.mp hsome
  obtain ⟨_, -, htarget, right, hright⟩ := h.shown _ _ _ hc htext
  obtain ⟨name, hname⟩ := Option.isSome_iff_exists.mp htarget
  obtain ⟨_, -, hanswer⟩ := h.shown _ _ _ (.step hc List.mem_cons_self) hname
  have hgiven : s.nameGiven v = name := congrArg Prod.fst hanswer
  refine ⟨right, ?_⟩
  rw [textAt, htext, hgiven, Option.getD_some, hright, textAt, hname]
  simp only [Option.getD_some, AssignOp.symbol, String.append_assoc]
  rfl

/-- Whether a plan declares a variable before the statements that mention it. -/
inductive Plan.Opens (s : Session) (path : List Expr) (i : Nat) (p : Plan) : Prop
  | upFront {v : Variable} (mem : v ∈ p.upFront) (id : v.id = i)
  | line {front rest : List Line} {v : Variable} {c : Expr} {value : String}
    (lines : p.lines = front ++ .introduces v c :: rest) (id : v.id = i)
    (first : ∀ l ∈ front, ¬l.statement.MentionsVariable i)
    (text : s.textAt path c = s.nameGiven v ++ " = " ++ value)

theorem Expr.Leads.opens (h : s.Records root env [] []) (he : root.Reaches path e) {text : String}
    (hwrites : s.Writes env path e (e.plan path.head? known) text) (hi : i ∈ e.locals) (hknown : i ∉ known)
    (hleads : e.Leads path.head? i) : (e.plan path.head? known).Opens s (e :: path) i := by
  cases hleads with
  | unassigned hunassigned =>
    obtain ⟨v, hv, hid⟩ := Expr.exists_mem_upFront hi hknown hunassigned
    exact .upFront hv hid
  | @assigned before after c hshown hfirst hc hlast _ =>
    have hbefore : ∀ x ∈ before, x.assignsTo i = false := fun x hx =>
      Bool.eq_false_iff.mpr fun hx' => hfirst x hx (Expr.mentions_of_assignsTo hx')
    obtain ⟨front, v, rest, hlines, hid, ⟨_, _, _, rfl⟩, hfront⟩ :=
      Expr.exists_introducing_line hi hknown hshown hbefore hc hlast
    have hmem : _ ∈ e.shown := hshown ▸ List.mem_append_right before List.mem_cons_self
    obtain ⟨value, hvalue⟩ := h.textAt_assign (.step he hmem) (hwrites.remembered _ hmem)
    refine .line hlines hid (fun l hl => hfirst _ ?_) hvalue
    rw [← hfront]
    exact List.mem_map_of_mem hl

theorem Session.Records.writes (h : s.Records root env [] []) (he : root.Reaches path e)
    (hblock : e.isBlock = true) {text : String} (htext : s.memo.lookup (e.place path) = some text) :
    ∃ known, root.Meets path e known ∧ s.Writes env path e (e.plan path.head? known) text := by
  obtain ⟨known, hmeets, hshows⟩ := h.shown path e text he htext
  cases e with
  | block id locals all ty => exact ⟨known, hmeets, hshows⟩
  | _ => cases hblock

end Renderings

/-- The declarations of a local that no block above lists. The block declares it once if none of its
    statements assigns it or one that is not returned does, and not at all otherwise. It declares it before
    it is used, and no block below declares it again, if the first statement that mentions it is such an
    assignment, or if there is none. -/
theorem block_locals_declared_once (root : Expr) (htree : root.IsTree)
    (hext : ∀ e ∈ root.nodes, e.kind ≠ .extension) (settings : Settings) (qualified : Bool) (text : String)
    (s : Session) (hrun : (RenderM.textOf root).runOn { settings, qualified } (.start root) = (.ok text, s))
    (path : List Expr) (e : Expr) (he : root.Reaches path e) (blockText : String)
    (htext : s.memo.lookup (e.place path) = some blockText) (i : Nat) (hi : i ∈ e.locals)
    (hpath : ∀ a ∈ path, i ∉ a.locals) :
    ∃ known, root.Meets path e known ∧
      s.Writes { settings, qualified } path e (e.plan path.head? known) blockText ∧
      (e.plan path.head? known).count i = (if e.shown.any (·.assignsTo i) = false ∨
        (unreturned (e.returnsValue path.head?) e.shown).any (·.assignsTo i) = true then 1 else 0) ∧
      (e.Leads path.head? i → (e.plan path.head? known).count i = 1 ∧
        (e.plan path.head? known).Opens s (e :: path) i ∧
        ∀ path' e' text', root.Reaches path' e' → e ∈ path' → e'.isBlock = true →
          s.memo.lookup (e'.place path') = some text' →
          ∃ known', root.Meets path' e' known' ∧
            s.Writes { settings, qualified } path' e' (e'.plan path'.head? known') text' ∧
            (e'.plan path'.head? known').count i = 0) := by
  have hrecords : s.Records root { settings, qualified } [] [] :=
    records_textOf htree hext (by simp) hrun
  have hblock : e.isBlock = true := by cases e <;> first | rfl | cases hi
  obtain ⟨known, hmeets, hwrites⟩ := hrecords.writes he hblock htext
  have hknown : i ∉ known := by
    intro hknown
    obtain ⟨a, ha, hlocal⟩ := hmeets.mem_locals hknown
    exact hpath a ha hlocal
  refine ⟨known, hmeets, hwrites, Expr.count_plan hi hknown, fun hleads => ?_⟩
  refine ⟨hleads.count_plan hi hknown, hleads.opens hrecords he hwrites hi hknown, ?_⟩
  intro path' e' text' he' hbelow hblock' htext'
  obtain ⟨known', hmeets', hwrites'⟩ := hrecords.writes he' hblock' htext'
  exact ⟨known', hmeets', hwrites', (hmeets'.settled hbelow hleads hi).count_plan⟩

section Tallies

private def tally : Variable := ⟨0, some "v", .int⟩

private def spare : Variable := ⟨1, some "w", .int⟩

private def report : Method :=
  (Method.new .static (.named none "T" []) "F").param "p" .int

private def reported (id : Nat) (v : Variable) : Expr :=
  .call id none report [.variable (id + 1) v]

private def assigned (id : Nat) (v : Variable) (value : Int32) : Expr :=
  .assign id .assign (.variable (id + 1) v) (.constant (id + 2) (.int value) .int)

private def tallyAgain : Expr :=
  .block 7 [tally] [assigned 8 tally 2] .int

private def tallyBlock : Expr :=
  .block 1 [tally, spare] [reported 2 spare, assigned 4 tally 1, tallyAgain, .variable 11 tally] .int

/-- A function whose block assigns one local after a use of the other, with a block below that lists the
    first one again. -/
private def tallying : Expr :=
  .lambda 0 [] tallyBlock (.delegate [] .int)

/-- The local is introduced by the second statement and not declared by the block below. -/
theorem block_locals_declared_once_tally :
    tallying.IsTree ∧ (∀ e ∈ tallying.nodes, e.kind ≠ .extension) ∧
    tallyBlock.Leads (some tallying) 0 ∧
    ∃ text s blockText belowText, (RenderM.textOf tallying).runOn {} (.start tallying) = (.ok text, s) ∧
      s.memo.lookup (tallyBlock.place [tallying]) = some blockText ∧
      s.memo.lookup (tallyAgain.place [tallyBlock, tallying]) = some belowText ∧
      ∃ known below, s.Writes {} [tallying] tallyBlock (tallyBlock.plan (some tallying) known) blockText ∧
        (tallyBlock.plan (some tallying) known).count 0 = 1 ∧
        (tallyBlock.plan (some tallying) known).Opens s [tallyBlock, tallying] 0 ∧
        s.Writes {} [tallyBlock, tallying] tallyAgain (tallyAgain.plan (some tallyBlock) below) belowText ∧
        (tallyAgain.plan (some tallyBlock) below).count 0 = 0 := by
  have htree : tallying.IsTree := by decide +kernel
  have hext : ∀ e ∈ tallying.nodes, e.kind ≠ .extension := by decide +kernel
  have hleads : tallyBlock.Leads (some tallying) 0 := by
    have hshown : tallyBlock.shown =
        [reported 2 spare] ++ assigned 4 tally 1 :: [tallyAgain, .variable 11 tally] := rfl
    exact .assigned hshown (by decide +kernel) rfl (.inl (List.cons_ne_nil _ _)) (by decide +kernel)
  have hok : ((RenderM.textOf tallying).runOn {} (.start tallying)).1.toOption.isSome = true := by
    decide +kernel
  have hmemo : ∀ key ∈ [tallyBlock.place [tallying], tallyAgain.place [tallyBlock, tallying]],
      (((RenderM.textOf tallying).runOn {} (.start tallying)).2.memo.lookup key).isSome = true := by
    decide +kernel
  have hreaches : tallying.Reaches [tallying] tallyBlock := .step .root List.mem_cons_self
  have hbelow : tallying.Reaches [tallyBlock, tallying] tallyAgain :=
    .step hreaches (List.mem_cons_of_mem _ (List.mem_cons_of_mem _ List.mem_cons_self))
  rcases hrun : (RenderM.textOf tallying).runOn {} (.start tallying) with ⟨fault | text, s⟩
  · rw [hrun] at hok
    cases hok
  · rw [hrun] at hmemo
    obtain ⟨blockText, htext⟩ := Option.isSome_iff_exists.mp (hmemo _ List.mem_cons_self)
    obtain ⟨belowText, hbelowText⟩ := Option.isSome_iff_exists.mp
      (hmemo _ (List.mem_cons_of_mem _ List.mem_cons_self))
    obtain ⟨known, -, hwrites, -, hdeclared⟩ := block_locals_declared_once tallying htree hext {} false text s
      hrun [tallying] tallyBlock hreaches blockText htext 0 List.mem_cons_self (by decide)
    obtain ⟨hcount, hopens, hnone⟩ := hdeclared hleads
    obtain ⟨below, -, hwrites', hcount'⟩ := hnone _ _ _ hbelow List.mem_cons_self rfl hbelowText
    exact ⟨htree, hext, hleads, text, s, blockText, belowText, rfl, htext, hbelowText, known, below, hwrites,
      hcount, hopens, hwrites', hcount'⟩

/-- An assignment that is returned. -/
private def returning : Expr :=
  .lambda 0 [] (.block 1 [tally] [assigned 2 tally 1] .int) (.delegate [] .int)

/-- An assignment after a use. -/
private def late : Expr :=
  .block 0 [tally] [reported 1 tally, assigned 3 tally 1] .int

/-- An assignment after a block that lists its variable. -/
private def twice : Expr :=
  .block 0 [tally] [.block 1 [tally] [assigned 2 tally 1] .int, assigned 5 tally 2] .int

/-- A local that is not declared, one that is declared after it is used and one that is declared twice. -/
theorem block_locals_misdeclared :
    (returning.IsTree ∧ late.IsTree ∧ twice.IsTree) ∧
    (∀ root ∈ [returning, late, twice], ∀ e ∈ root.nodes, e.kind ≠ .extension) ∧
    returning.render {} = .ok "() =>\n\x7b\n    return v = 1;\n\x7d" ∧
    late.render {} = .ok "T.F(v);\nvar v = 1;" ∧
    twice.render {} = .ok "var v = 1;\nvar v = 2;" := by
  refine ⟨?_, ?_, ?_, ?_, ?_⟩ <;> decide +kernel

end Tallies

end ExprText
