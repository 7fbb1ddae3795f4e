import ExprText.Proofs.Composed.Endings
import ExprText.Proofs.Composed.Layouts
import ExprText.Proofs.Names.Rendering
import ExprText.Proofs.Text.Embedding

/-! # Comments of a tree

Comments can stand among the statements of blocks and as the bodies of loops and branches. The text of a
tree has all of them on lines of their own, in the order of the tree and behind blanks for the bodies that
they stand in, and nothing is added to their lines. -/

namespace ExprText

open Text Render RenderM Session

namespace Expr

/-! ### Comments in trees -/

mutual

/-- The comments of a node, each with the number of bodies in braces that it stands in. A conditional
    behind an `else` is in no braces. -/
def comments : Expr → List (Nat × String)
  | .extension _ (.comment text) _ _ => [(0, text)]
  | .block _ _ statements _ => commentsOfAll statements
  | .loop _ (some body) _ _ => deeper body.comments
  | .conditional _ _ ifTrue ifFalse _ =>
    deeper ifTrue.comments ++ if ifFalse.isConditional then ifFalse.comments else deeper ifFalse.comments
  | _ => []

def commentsOfAll : List Expr → List (Nat × String)
  | [] => []
  | e :: es => e.comments ++ commentsOfAll es

end

/-- Whether no node of a tree is an extension node. -/
def IsPlain (e : Expr) : Prop :=
  ∀ c ∈ e.nodes, c.kind ≠ .extension

instance (e : Expr) : Decidable e.IsPlain :=
  inferInstanceAs (Decidable (∀ c ∈ e.nodes, c.kind ≠ .extension))

/-- Whether the only extension nodes of a tree are comments, each of them a statement of a block or all of
    the body of a loop or of a branch. The nodes above them are such blocks and loops and conditionals that
    have no value, in the first branch neither. -/
inductive Annotated : Expr → Prop
  | plain {e : Expr} (plain : e.IsPlain) : Annotated e
  | comment {e : Expr} {text : String} (text : e.commentText? = some text) : Annotated e
  | block {i : Nat} {locals : List Variable} {statements : List Expr} {ty : Ty}
    (statement : ∀ c ∈ statements, c.Annotated) : Annotated (.block i locals statements ty)
  | loop {i : Nat} {body : Expr} {breakLabel continueLabel : Option Label} (inner : body.Annotated) :
    Annotated (.loop i (some body) breakLabel continueLabel)
  | conditional {i : Nat} {test ifTrue ifFalse : Expr} {ty : Ty} (void : ty.isVoid = true)
    (firstVoid : ifTrue.ty.isVoid = true) (condition : test.IsPlain) (first : ifTrue.Annotated)
    (second : ifFalse.Annotated) : Annotated (.conditional i test ifTrue ifFalse ty)

theorem commentsOfAll_eq (es : List Expr) : commentsOfAll es = es.flatMap comments := by
  induction es with
  | nil => rfl
  | cons e es ih => rw [commentsOfAll, ih, List.flatMap_cons]

theorem map_deeper (cs : List (Nat × String)) : (deeper cs).map Prod.snd = cs.map Prod.snd := by
  rw [deeper, List.map_map]
  rfl

theorem IsPlain.child {e c : Expr} (h : e.IsPlain) (hc : c ∈ e.children) : c.IsPlain :=
  fun x hx => h x (mem_nodes_of_mem_children hc hx)

theorem IsPlain.commentText? {e : Expr} (h : e.IsPlain) : e.commentText? = none := by
  have hkind := h e e.self_mem_nodes
  cases e with
  | extension => exact absurd rfl hkind
  | _ => rfl

theorem IsPlain.comments {e : Expr} (h : e.IsPlain) : e.comments = [] := by
  induction e using childInduction with
  | step e ih =>
    have hchild : ∀ c ∈ e.children, c.comments = [] := fun c hc => ih c hc (h.child hc)
    cases e with
    | extension => exact absurd rfl (h _ (self_mem_nodes _))
    | block i locals statements ty =>
      rw [Expr.comments, commentsOfAll_eq, List.flatMap_eq_nil_iff]
      exact hchild
    | loop i body =>
      cases body with
      | none => rfl
      | some body =>
        rw [Expr.comments, hchild body List.mem_cons_self]
        rfl
    | conditional i test ifTrue ifFalse ty =>
      rw [Expr.comments, hchild ifTrue (by simp [children]), hchild ifFalse (by simp [children])]
      split <;> rfl
    | _ => rfl

theorem comments_of_commentText? {e : Expr} {text : String} (h : e.commentText? = some text) :
    e.comments = [(0, text)] := by
  unfold commentText? at h
  split at h
  · cases h
    rfl
  · cases h

/-- The empty expression has no comments. -/
theorem comments_of_isEmpty {e : Expr} (h : e.isEmpty = true) : e.comments = [] := by
  cases e with
  | default => rfl
  | _ => cases h

theorem comments_of_isAssign {e : Expr} (h : e.isAssign = true) : e.comments = [] := by
  cases e with
  | assign => rfl
  | _ => cases h

theorem filterMap_commentText?_of_plain {e : Expr} (h : e.IsPlain) : e.nodes.filterMap Expr.commentText? = [] :=
  List.filterMap_eq_nil_iff.mpr fun _ hc => IsPlain.commentText? fun x hx => h x (nodes_trans e hc hx)

namespace Annotated
variable {e : Expr}

/-- The comments of a tree are those among its nodes. -/
theorem map_comments (h : e.Annotated) : e.comments.map Prod.snd = e.nodes.filterMap commentText? := by
  induction h with
  | plain hplain => rw [hplain.comments, filterMap_commentText?_of_plain hplain, List.map_nil]
  | @comment e text htext =>
    rw [comments_of_commentText? htext]
    cases e with
    | extension => simp [nodes, htext]
    | _ => cases htext
  | @block i locals statements ty _ ih =>
    rw [comments, commentsOfAll_eq, nodes_eq, List.filterMap_cons_none rfl, children, List.filterMap_flatMap,
      List.map_flatMap]
    exact List.flatMap_congr fun c hc => ih c hc
  | @loop i body breakLabel continueLabel _ ih =>
    rw [comments, map_deeper, ih, nodes, List.filterMap_cons_none rfl, nodesOf]
  | @conditional i test ifTrue ifFalse ty _ _ htest _ _ ihfirst ihsecond =>
    have hsecond : (if ifFalse.isConditional = true then ifFalse.comments else deeper ifFalse.comments).map Prod.snd =
        ifFalse.comments.map Prod.snd := by
      split
      · rfl
      · exact map_deeper _
    rw [comments, List.map_append, map_deeper, hsecond, ihfirst, ihsecond, nodes, List.filterMap_cons_none rfl,
      List.filterMap_append, List.filterMap_append, filterMap_commentText?_of_plain htest, List.nil_append]

theorem native (h : e.Annotated) : ∀ c ∈ e.nodes, c.IsNative := by
  induction h with
  | plain hplain => exact fun c hc => .of_kind (hplain c hc)
  | @comment e text htext =>
    cases e with
    | extension =>
      intro c hc _
      obtain rfl := List.mem_singleton.mp hc
      rw [htext]
      rfl
    | _ => cases htext
  | @block i locals statements ty _ ih =>
    rw [nodes_eq, List.forall_mem_cons]
    refine ⟨.of_kind Kind.noConfusion, fun c hc => ?_⟩
    obtain ⟨x, hx, hc⟩ := List.mem_flatMap.mp hc
    exact ih x hx c hc
  | @loop i body breakLabel continueLabel _ ih =>
    exact List.forall_mem_cons.mpr ⟨.of_kind Kind.noConfusion, ih⟩
  | @conditional i test ifTrue ifFalse ty _ _ htest _ _ ihfirst ihsecond =>
    rw [nodes, List.forall_mem_cons, List.forall_mem_append, List.forall_mem_append]
    exact ⟨.of_kind Kind.noConfusion, ⟨fun c hc => .of_kind (htest c hc), ihfirst⟩, ihsecond⟩

/-- A tree without comments has no extension nodes. -/
theorem isPlain (h : e.Annotated) (hnone : e.comments = []) : e.IsPlain := by
  intro c hc hkind
  have hall := h.map_comments
  rw [hnone, List.map_nil, eq_comm, List.filterMap_eq_nil_iff] at hall
  have hsome := h.native c hc hkind
  rw [hall c hc] at hsome
  cases hsome

end Annotated

end Expr

/-! ### Finished renderings -/

/-- What is known at the end of a rendering of a tree whose only extension nodes are comments and whose names
    have neither brackets nor quotes. -/
structure Session.Completes (root : Expr) (settings : Settings) (qualified : Bool) (s : Session) : Prop where
  tree : root.IsTree
  spelled : ∀ e ∈ root.nodes, ∀ w ∈ e.spellings, Free nestingMarks w
  records : s.Records root { settings, qualified } [] []
  given : ∀ path e, root.Reaches path e → s.memo.lookup (e.place path) = some (s.textAt path e)
  composed : ∀ path e, root.Reaches path e →
    ∃ known, s.Composes { settings, qualified } path known e (s.textAt path e)
  legible : s.names.Legible nestingMarks

theorem completes_textOf {root : Expr} (htree : root.IsTree) (hnative : ∀ e ∈ root.nodes, e.IsNative)
    (hspelled : ∀ e ∈ root.nodes, ∀ w ∈ e.spellings, Free nestingMarks w) {settings : Settings} {qualified : Bool}
    {text : String} {s : Session}
    (hrun : (RenderM.textOf root).runOn { settings, qualified } (.start root) = (.ok text, s)) :
    s.Completes root settings qualified := by
  have hgiven : ∀ path e, root.Reaches path e → s.memo.lookup (e.place path) = some (s.textAt path e) := by
    intro path e he
    obtain ⟨given, hgiven⟩ := exists_remembered_native htree (by simp) hrun he hnative
    rw [textAt, hgiven, Option.getD_some]
  have hlegible : ((RenderM.textOf root).runOn { settings, qualified } (.start root)).2.names.Gave
      (Free nestingMarks) := by
    refine gave_native hnative (by simp) fun t r hasked ht => ?_
    obtain ⟨e, he, hr⟩ := hasked
    exact (NameTable.Legible.answer (by decide) ht fun w hw =>
      hspelled e he w (List.mem_append_right _ (List.mem_flatMap.mpr ⟨r, hr, hw⟩))).2
  rw [hrun] at hlegible
  refine ⟨htree, hspelled, records_native htree hnative (by simp) hrun, hgiven, fun path e he => ?_, hlegible⟩
  obtain ⟨known, -, hcomposes⟩ := composes_native htree (by simp) hrun he hnative (hgiven path e he)
  exact ⟨known, hcomposes⟩

/-- A node without extension nodes makes a balanced text of balanced texts. -/
theorem Session.Composes.balanced {settings : Settings} {qualified : Bool} {s : Session} {path : List Expr}
    {known : List Nat} {e : Expr} {text : String} (h : s.Composes { settings, qualified } path known e text)
    (hplain : e.IsPlain) (hspelled : ∀ c ∈ e.nodes, ∀ w ∈ c.spellings, Free nestingMarks w)
    (hlegible : s.names.Legible nestingMarks) (hshown : ∀ c ∈ e.shown, Balanced (s.textAt (e :: path) c)) :
    Balanced text := by
  have hexact : (Comparison.balanced settings qualified).Exact := fun _ _ h => h.1
  have hsuits : (Comparison.balanced settings qualified).Suits e :=
    ⟨hplain, fun c hc w hw => ⟨hspelled c hc w hw, balanced_of_free (hspelled c hc w hw)⟩, .inl hexact⟩
  -- The node is rendered beside itself, from a session that remembers nothing.
  let u : Session := { path := e :: path, names := s.names, scopes := [known] }
  obtain ⟨v, hrun⟩ := h.again u ⟨rfl, by simp [u, Session.isDeclared], by simp [u]⟩ (.refl _)
  have hsessions : (Comparison.balanced settings qualified).Sessions e (e :: path) u u :=
    { left_path := rfl
      right_path := rfl
      names := rfl
      legible := hlegible
      scopes := rfl
      memo := fun _ => .none
      origin := fun _ _ h => by cases h }
  have hv : ∀ c ∈ e.shown, Parallel (Comparison.balanced settings qualified) e (e :: path)
      (Comparison.balanced settings qualified).Beside (s.recall (e :: path) c) (s.recall (e :: path) c) :=
    fun c hc => Parallel.pure ⟨rfl, hshown c hc⟩
  have hends := (Parallel.render hsuits e.self_mem_nodes hv u u hsessions).2
  have hleft : (e.kind.renderer.render (s.recall (e :: path)) e).runOn
      (Comparison.balanced settings qualified).left u = (.ok text, v) := hrun
  have hright : (e.kind.renderer.render (s.recall (e :: path)) e).runOn
      (Comparison.balanced settings qualified).right u = (.ok text, v) := hrun
  rw [hleft, hright] at hends
  exact hends.1.2

namespace Session.Completes
variable {root e : Expr} {settings : Settings} {qualified : Bool} {s : Session} {path : List Expr}

/-- The texts of nodes without extension nodes are balanced. -/
theorem balanced_textAt (h : s.Completes root settings qualified) (he : root.Reaches path e) (hplain : e.IsPlain) :
    Balanced (s.textAt path e) := by
  induction hn : e.height using Nat.strongRecOn generalizing e path with
  | ind n ih =>
    subst hn
    obtain ⟨known, hcomposes⟩ := h.composed path e he
    refine hcomposes.balanced hplain (fun c hc => h.spelled c (Expr.nodes_trans root he.mem_nodes hc)) h.legible
      fun c hc => ?_
    exact ih c.height (Expr.height_lt_of_mem_shown hc) (.step he hc)
      (fun x hx => hplain x (Expr.nodes_trans e (Expr.mem_nodes_of_mem_shown hc) hx)) rfl

end Session.Completes

/-! ### Parts with comments -/

section Parts
variable {unit : Nat} {cs : List (Nat × String)} {s : Session} {path : List Expr} {c : Expr}

theorem Text.Carries.statementAt (h : Carries unit cs (s.textAt path c)) :
    Carries unit cs (s.statementAt path c) := by
  rcases strippedAt_cases path c (s.textAt path c) with heq | heq <;> rw [Session.statementAt, heq]
  · exact h
  · exact h.withoutParens

theorem Text.Carries.bodyAt (h : Carries unit cs (s.textAt path c)) (indent : String) :
    Carries unit cs (s.bodyAt path indent c).text := by
  unfold Session.bodyAt
  dsimp only
  split
  · exact h
  · exact h.statementAt

/-! ### Blocks -/

/-- A line of a block has the comments of its statement. Nothing that has comments is introduced. -/
theorem Line.carries_write (position : Position) {l : Line} (hreturned : ∀ c, l ≠ .returned c)
    (hword : l.word = "" ∨ l.statement.comments = [])
    (h : Carries unit l.statement.comments (s.textAt path l.statement)) {lines : Lines}
    (hlines : Carries unit cs lines.text) :
    Carries unit (cs ++ l.statement.comments) (l.write s path position lines).text := by
  by_cases hempty : s.textAt path l.statement = ""
  -- A statement without a text has no line, and then it has no comments.
  · rw [hempty] at h
    rw [Line.write_of_empty hempty, h.embedded.eq_nil_of_empty, List.append_nil]
    exact hlines
  · have hstatement : Carries unit l.statement.comments (l.word ++ s.statementAt path l.statement) := by
      rcases hword with hword | hnone
      · rw [hword, String.empty_append]
        exact h.statementAt
      · have hwords : ∀ w ∈ ["", "var "], Balanced w := by decide
        have hbalanced := (hwords _ l.word_mem).append (h.statementAt.balanced hnone)
        rw [hnone]
        exact .of_balanced hbalanced
    obtain ⟨gap, hgap, hne, heq⟩ := Line.exists_write_terminated position hreturned hempty lines
    rw [heq]
    exact hlines.append hstatement.terminated hgap hne

theorem carries_foldl_write (position : Position) : ∀ {ls : List Line} {cs : List (Nat × String)} {lines : Lines},
    (∀ l ∈ ls, (∀ c, l ≠ .returned c) ∧ (l.word = "" ∨ l.statement.comments = []) ∧
      Carries unit l.statement.comments (s.textAt path l.statement)) → Carries unit cs lines.text →
    Carries unit (cs ++ (ls.map Line.statement).flatMap Expr.comments)
      (ls.foldl (Line.write s path position) lines).text
  | [], cs, lines, _, hlines => by simpa using hlines
  | l :: ls, cs, lines, h, hlines => by
    obtain ⟨⟨hreturned, hword, hl⟩, hls⟩ := List.forall_mem_cons.mp h
    have hrest := carries_foldl_write position hls (l.carries_write position hreturned hword hl hlines)
    rwa [List.append_assoc] at hrest

end Parts

namespace Expr

/-- What a block introduces is assigned. -/
theorem word_of_plan (e : Expr) (parent : Option Expr) (known : List Nat) :
    ∀ l ∈ (e.plan parent known).lines, l.word = "" ∨ l.statement.isAssign = true := by
  intro l hl
  rcases e.line_of_plan parent known l hl with ⟨locals, known, x, rfl⟩ | ⟨-, c, rfl⟩
  · unfold lineOf
    split
    · next v hv =>
      obtain ⟨_, _, _, rfl⟩ := eq_assign_of_declaredBy hv
      exact .inr (by split <;> rfl)
    · exact .inl rfl
  · exact .inl rfl

theorem comments_of_isBlock {e : Expr} (h : e.isBlock = true) : e.comments = e.shown.flatMap comments := by
  cases e with
  | block i locals statements ty =>
    rw [comments, commentsOfAll_eq, shown]
    induction statements with
    | nil => rfl
    | cons c rest ih =>
      rw [List.flatMap_cons, ih rfl]
      cases hempty : c.isEmpty with
      | true => rw [comments_of_isEmpty hempty, List.filter_cons_of_neg (by simp [hempty]), List.nil_append]
      | false => rw [List.filter_cons_of_pos (by simp [hempty]), List.flatMap_cons]
  | _ => cases h

/-- The branches of a conditional are statements. -/
theorem under_branch {i : Nat} {test ifTrue ifFalse c : Expr} {ty : Ty}
    (htree : (conditional i test ifTrue ifFalse ty).IsTree) (hc : c ∈ [ifTrue, ifFalse]) :
    Position.under c (some (conditional i test ifTrue ifFalse ty)) = .statement := by
  have hmem : c ∈ ifTrue.nodes ++ ifFalse.nodes := by
    rcases List.mem_cons.mp hc with rfl | hc
    · exact List.mem_append_left _ c.self_mem_nodes
    · obtain rfl := List.mem_singleton.mp hc
      exact List.mem_append_right _ c.self_mem_nodes
  rw [IsTree, nodes, List.pairwise_cons, List.append_assoc, List.pairwise_append] at htree
  have hne := htree.2.2.2 test test.self_mem_nodes c hmem
  rw [Position.under, same, beq_eq_false_iff_ne.mpr hne, if_neg Bool.false_ne_true]

end Expr

/-! ### Conditionals -/

section Layouts
variable {unit : Nat} {cs ds : List (Nat × String)} {first second : Body} (hfirst : first.indent = blanks unit)
  (h : Embeds unit cs (lines first.text)) (test : String)
include hfirst h

theorem framed_ifText : Framed unit (deeper cs) (ifText test first) := by
  obtain ⟨body, heq, hbody⟩ := h.exists_bracketed hfirst
  refine ⟨withParens test ++ body, "\x7d", ?_, ?_⟩
  · rw [ifText, heq]
    simp only [String.append_assoc]
  · rw [← String.append_assoc]
    exact hbody _

theorem framed_both (hsecond : second.indent = blanks unit) (h' : Embeds unit ds (lines second.text)) :
    Framed unit (deeper cs ++ deeper ds) (Layout.both.write test first second) := by
  obtain ⟨body, heq, hbody⟩ := h'.exists_bracketed hsecond
  have hbreak : ifText test first ++ "\nelse" ++ (body ++ "\n" ++ "\x7d") =
      ifText test first ++ "\n" ++ ("else" ++ body ++ "\n" ++ "\x7d") := by
    simp [← String.toList_inj]
  rw [Layout.write, heq, hbreak]
  exact (framed_ifText hfirst h test).continued (hbody "else") "\x7d"

/-- The comments of a conditional behind an `else` follow those of the branch before it. -/
theorem framed_elseIf (h' : ds ≠ [] → Framed unit ds second.text) :
    Framed unit (deeper cs ++ ds) (Layout.elseIf.write test first second) := by
  have hbreak : ∀ rest : String, ifText test first ++ "\nelse " ++ rest =
      ifText test first ++ "\n" ++ ("else " ++ rest) := by
    intro rest
    simp [← String.toList_inj]
  have hframed := framed_ifText hfirst h test
  rw [Layout.write, hbreak]
  by_cases hnone : ds = []
  · rw [hnone, List.append_nil]
    exact hframed.extend _
  · obtain ⟨a, b, heq, hembeds⟩ := (h' hnone).exists_else
    rw [Body.expression, heq]
    exact hframed.continued hembeds b

end Layouts

/-! ### Nodes with comments -/

namespace Session.Completes
variable {root e : Expr} {settings : Settings} {qualified : Bool} {s : Session} {path : List Expr}

theorem textAt_comment (h : s.Completes root settings qualified) (he : root.Reaches path e) {text : String}
    (htext : e.commentText? = some text) : s.textAt path e = asComment text := by
  obtain ⟨known, hcomposes⟩ := h.composed path e he
  obtain ⟨u, v, -, -, hrun⟩ := hcomposes.exists_run
  unfold Expr.commentText? at htext
  split at htext
  · cases htext
    exact eq_of_runOn_pure hrun
  · cases htext

theorem carries_block (h : s.Completes root settings qualified) (he : root.Reaches path e)
    (hblock : e.isBlock = true) (hposition : Position.under e path.head? = .statement)
    (hshown : ∀ c ∈ e.shown, Carries settings.indentWidth c.comments (s.textAt (e :: path) c)) :
    Carries settings.indentWidth e.comments (s.textAt path e) := by
  obtain ⟨known, -, hwrites⟩ := h.records.writes he hblock (h.given path e he)
  have hreturned := e.not_returned (e.returnsValue_of_statement hposition) known
  have hstart : Carries settings.indentWidth []
      ((e.plan path.head? known).declared { settings, qualified } s).text :=
    .of_balanced (Plan.balanced_declared (balanced_upFront (h.spelled e he.mem_nodes) h.legible))
  have hlines := carries_foldl_write (Position.under e path.head?) (fun l hl => ⟨hreturned l hl,
    (e.word_of_plan _ _ l hl).imp_right Expr.comments_of_isAssign,
    hshown _ (hwrites.statements ▸ List.mem_map_of_mem hl)⟩) hstart
  rw [hwrites.statements, ← Expr.comments_of_isBlock hblock, List.nil_append] at hlines
  rw [hwrites.text_eq (by rw [hposition]; decide)]
  exact hlines

theorem carries_loop (h : s.Completes root settings qualified) (he : root.Reaches path e) {i : Nat} {body : Expr}
    {breakLabel continueLabel : Option Label} (hloop : e = .loop i (some body) breakLabel continueLabel)
    (hplain : e.comments = [] → e.IsPlain)
    (hbody : Carries settings.indentWidth body.comments (s.textAt (e :: path) body)) :
    Carries settings.indentWidth e.comments (s.textAt path e) := by
  obtain ⟨known, hcomposes⟩ := h.composed path e he
  subst hloop
  have htext : s.textAt path (.loop i (some body) breakLabel continueLabel) = "while (true)" ++
      (s.bodyAt (.loop i (some body) breakLabel continueLabel :: path) settings.indent body).bracketed :=
    hcomposes.loop_eq
  have hembeds := (hbody.bodyAt settings.indent).embedded.bracketed rfl "while (true)"
  rw [← htext] at hembeds
  obtain ⟨rest, hrest⟩ := hcomposes.prefix_loop rfl
  refine .of_head (c := 'w') hembeds ?_ (by decide) fun hnone => h.balanced_textAt he (hplain hnone)
  rw [← hrest]
  rfl

/-- A conditional that has no value has the comments of its branches before its last line. -/
theorem framed_conditional (h : s.Completes root settings qualified) (he : root.Reaches path e) {i : Nat}
    {test ifTrue ifFalse : Expr} {ty : Ty} (hconditional : e = .conditional i test ifTrue ifFalse ty)
    (hvoid : ty.isVoid = true) (hfirstVoid : ifTrue.ty.isVoid = true)
    (hfirst : Carries settings.indentWidth ifTrue.comments (s.textAt (e :: path) ifTrue))
    (hsecond : ifFalse ∈ e.shown → Carries settings.indentWidth ifFalse.comments (s.textAt (e :: path) ifFalse))
    (hframed : ifFalse ∈ e.shown → ifFalse.isConditional = true → ifFalse.comments ≠ [] →
      Framed settings.indentWidth ifFalse.comments (s.textAt (e :: path) ifFalse)) :
    Framed settings.indentWidth e.comments (s.textAt path e) := by
  obtain ⟨known, hcomposes⟩ := h.composed path e he
  subst hconditional
  have htext := hcomposes.text_of_layout
  have hembeds := (hfirst.bodyAt settings.indent).embedded
  rw [Expr.comments, htext]
  -- Of the five layouts, those of values and of a branch that leaves with a value are excluded.
  cases hempty : ifFalse.isEmpty with
  | true =>
    have hlayout : Layout.of ifTrue ifFalse ty = .alone := by simp [Layout.of, hempty, hvoid]
    have hplain : ifFalse.isConditional = false := by
      cases ifFalse with
      | default => rfl
      | _ => cases hempty
    have hnone : deeper [] = [] := rfl
    rw [hlayout, hplain, if_neg Bool.false_ne_true, Expr.comments_of_isEmpty hempty, hnone, List.append_nil]
    exact framed_ifText rfl hembeds _
  | false =>
    have hshown : ifFalse ∈ (Expr.conditional i test ifTrue ifFalse ty).shown := by
      simp [Expr.shown, hempty]
    cases hinner : ifFalse.isConditional with
    | true =>
      have hlayout : Layout.of ifTrue ifFalse ty = .elseIf := by
        simp [Layout.of, hempty, hvoid, hfirstVoid, hinner]
      rw [hlayout, if_pos rfl]
      refine framed_elseIf rfl hembeds _ fun hne => ?_
      have hbehind := hframed hshown hinner hne
      cases ifFalse with
      | conditional => exact hbehind
      | _ => cases hinner
    | false =>
      have hlayout : Layout.of ifTrue ifFalse ty = .both := by
        simp [Layout.of, hempty, hvoid, hfirstVoid, hinner]
      rw [hlayout, if_neg Bool.false_ne_true]
      exact framed_both rfl hembeds _ rfl ((hsecond hshown).bodyAt settings.indent).embedded

/-- The text of a node that stands as a statement has its comments. Those of a conditional stand before its
    last line: behind an `else` it loses a semicolon at its end. -/
theorem carries (h : s.Completes root settings qualified) (ha : e.Annotated) : ∀ {path : List Expr},
    root.Reaches path e → Position.under e path.head? = .statement →
    Carries settings.indentWidth e.comments (s.textAt path e) ∧
      (e.isConditional = true → e.comments ≠ [] → Framed settings.indentWidth e.comments (s.textAt path e)) := by
  induction ha with
  | plain hplain =>
    intro path he _
    rw [hplain.comments]
    exact ⟨.of_balanced (h.balanced_textAt he hplain), fun _ hne => absurd rfl hne⟩
  | @comment e text htext =>
    intro path he _
    rw [Expr.comments_of_commentText? htext, h.textAt_comment he htext]
    refine ⟨.asComment text, fun hconditional => ?_⟩
    cases e with
    | conditional => cases htext
    | _ => cases hconditional
  | @block i locals statements ty _ ih =>
    intro path he hposition
    refine ⟨h.carries_block he rfl hposition fun c hc => ?_, fun hconditional => by cases hconditional⟩
    exact (ih c (List.mem_filter.mp hc).1 (.step he hc) rfl).1
  | @loop i body breakLabel continueLabel hbody ih =>
    intro path he _
    have hloop : (Expr.loop i (some body) breakLabel continueLabel).Annotated := .loop hbody
    refine ⟨h.carries_loop he rfl hloop.isPlain ?_, fun hconditional => by cases hconditional⟩
    exact (ih (.step he List.mem_cons_self) rfl).1
  | @conditional i test ifTrue ifFalse ty hvoid hfirstVoid htest hfirst hsecond ihfirst ihsecond =>
    intro path he _
    have hconditional : (Expr.conditional i test ifTrue ifFalse ty).Annotated :=
      .conditional hvoid hfirstVoid htest hfirst hsecond
    have hunder : ∀ c ∈ [ifTrue, ifFalse],
        Position.under c (some (.conditional i test ifTrue ifFalse ty)) = .statement :=
      fun c hc => Expr.under_branch (he.isTree h.tree) hc
    have hone := ihfirst (.step he (by simp [Expr.shown])) (hunder ifTrue List.mem_cons_self)
    have htwo := fun hc => ihsecond (.step he hc) (hunder ifFalse (List.mem_cons_of_mem _ List.mem_cons_self))
    by_cases hnone : (Expr.conditional i test ifTrue ifFalse ty).comments = []
    · rw [hnone]
      exact ⟨.of_balanced (h.balanced_textAt he (hconditional.isPlain hnone)), fun _ hne => absurd rfl hne⟩
    · have hframed := h.framed_conditional he rfl hvoid hfirstVoid hone.1 (fun hc => (htwo hc).1)
        fun hc => (htwo hc).2
      exact ⟨.of_head hframed.embedded hframed.head (by decide) fun hnil => absurd hnil hnone, fun _ _ => hframed⟩

end Session.Completes

/-! ### Whole trees -/

/-- A comment is made of lines with the mark of comments, one for each line of its text without the white
    space around it, and it needs no semicolon. A tree whose only extension nodes are comments, each of them
    a statement or a whole body, is rendered with the lines of all its comments: those of a comment stand
    next to each other behind the blanks of the bodies around it, and those of the next one after them. -/
theorem comments_survive_layout :
    (∀ text, (∀ line ∈ lines (asComment text), "// ".toList <+: line.toList) ∧
      Trimmed text.toList (trim text.toList) ∧
      (lines (asComment text)).length = (lines (String.ofList (trim text.toList))).length ∧
      terminated (asComment text) = asComment text) ∧
    ∀ root : Expr, root.IsTree → root.Annotated →
      (∀ e ∈ root.nodes, ∀ w ∈ e.spellings, Free nestingMarks w) →
      root.comments.map Prod.snd = root.nodes.filterMap Expr.commentText? ∧
      ∀ (settings : Settings) (qualified : Bool) (rendered : String),
        root.render { settings, qualified } = .ok rendered →
        Embeds settings.indentWidth root.comments (lines rendered) ∧
        ∀ text ∈ root.nodes.filterMap Expr.commentText?, ∃ n, commentAt n text <:+: lines rendered := by
  refine ⟨fun text => ⟨fun line hline => prefix_of_mem_asComment hline, trimmed_trim _, ?_,
    terminated_asComment text⟩, ?_⟩
  · rw [lines_asComment, lines, String.toList_ofList, List.length_map, List.length_map]
  · intro root htree ha hspelled
    refine ⟨ha.map_comments, fun settings qualified rendered hrender => ?_⟩
    rcases hrun : (RenderM.textOf root).runOn { settings, qualified } (.start root) with ⟨result, s⟩
    obtain rfl : result = .ok rendered := by rw [← hrender, Expr.render, hrun]
    have h := completes_textOf htree ha.native hspelled hrun
    have htext : s.textAt [] root = rendered := by
      rw [textAt, remembered_root htree (by simp) hrun ha.native, Option.getD_some]
    have hembeds := (h.carries ha .root rfl).1.embedded
    rw [htext] at hembeds
    refine ⟨hembeds, fun text hcomment => ?_⟩
    rw [← ha.map_comments] at hcomment
    obtain ⟨c, hc, rfl⟩ := List.mem_map.mp hcomment
    exact ⟨_, hembeds.isInfix c hc⟩

section Remarks

private def working (id : Nat) (n : String) : Expr :=
  .call id none (Method.new .static (.named none "T" []) n) []

private def question (id : Nat) (n : String) : Expr :=
  .variable id ⟨id, some n, .bool⟩

/-- Comments after a call, as all that a loop does and behind an `else`. -/
private def remarked : Expr :=
  .block 0 [] [working 1 "F", .comment 2 "done (;", .loop 3 (some (.comment 4 "wait \x7d\n  here\n")) none none,
    .conditional 5 (question 6 "a") (working 7 "G")
      (.conditional 8 (question 9 "b") (.comment 10 "\"") (.default 11 .void) .void) .void] .void

private theorem remarked_annotated : remarked.Annotated := by
  refine .block fun c hc => ?_
  simp only [List.mem_cons, List.not_mem_nil, or_false] at hc
  rcases hc with rfl | rfl | rfl | rfl
  · exact .plain (by decide +kernel)
  · exact .comment rfl
  · exact .loop (.comment rfl)
  · exact .conditional rfl rfl (by decide +kernel) (.plain (by decide +kernel))
      (.conditional rfl rfl (by decide +kernel) (.comment rfl) (.plain (by decide +kernel)))

/-- Marks that end a statement or open a bracket or a literal count for nothing in a comment. -/
theorem comments_survive_layout_remarked :
    remarked.IsTree ∧ remarked.Annotated ∧ (∀ e ∈ remarked.nodes, ∀ w ∈ e.spellings, Free nestingMarks w) ∧
    ∃ text, remarked.render {} = .ok text ∧
      Embeds 4 [(0, "done (;"), (1, "wait \x7d\n  here\n"), (1, "\"")] (lines text) ∧
      ∃ n, [blanks n ++ "// wait \x7d", blanks n ++ "//   here"] <:+: lines text := by
  have htree : remarked.IsTree := by decide +kernel
  have hspelled : ∀ e ∈ remarked.nodes, ∀ w ∈ e.spellings, Free nestingMarks w := by decide +kernel
  have hcomments : remarked.comments = [(0, "done (;"), (1, "wait \x7d\n  here\n"), (1, "\"")] := by decide +kernel
  have hmem : "wait \x7d\n  here\n" ∈ remarked.nodes.filterMap Expr.commentText? := by decide +kernel
  have hlines : lines (asComment "wait \x7d\n  here\n") = ["// wait \x7d", "//   here"] := by decide +kernel
  have hok : (remarked.render {}).toOption.isSome = true := by decide +kernel
  refine ⟨htree, remarked_annotated, hspelled, ?_⟩
  rcases hrender : remarked.render {} with fault | text
  · rw [hrender] at hok
    cases hok
  · obtain ⟨hembeds, hall⟩ := (comments_survive_layout.2 remarked htree remarked_annotated hspelled).2 {} false text
      hrender
    obtain ⟨n, hn⟩ := hall _ hmem
    rw [commentAt, hlines] at hn
    exact ⟨text, rfl, hcomments ▸ hembeds, n, hn⟩

end Remarks

end ExprText
