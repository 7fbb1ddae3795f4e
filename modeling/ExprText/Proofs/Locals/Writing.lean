import ExprText.Proofs.Frame.Scripts
import ExprText.Proofs.Locals.Plan
import ExprText.Proofs.Sharing.Replay

/-! # Plans and texts

The texts that a rendering remembers of blocks are written by their plans, from the texts that it
remembers of their statements. So the plan of a block says what its text declares. -/

namespace ExprText

open Render RenderM

/-! ### Writing -/

namespace Session

/-- The text that is remembered of a node under the given nodes. -/
def textAt (s : Session) (path : List Expr) (c : Expr) : String :=
  (s.memo.lookup (c.place path)).getD ""

def nameGiven (s : Session) (v : Variable) : String :=
  (s.names.answer (.variable v)).1

/-- The text of a statement under the given nodes without the parentheses around it. -/
def strippedAt (path : List Expr) (c : Expr) (text : String) : String :=
  ({ path } : Session).stripped c text

end Session

open Session

/-- Adds a line whose statement has the given text to those before it. -/
def Line.add (path : List Expr) (position : Position) (text : String) (lines : Lines) : Line → Lines
  | .introduces _ c => lines.push (Text.terminated ("var " ++ strippedAt path c text)) false
  | .plain c => lines.push (Text.terminated (strippedAt path c text)) false
  | .returned c => lines.pushReturn (if position = .value then text else strippedAt path c text)

/-- Adds a line to those before it; a statement without a text has no line. -/
def Line.write (s : Session) (path : List Expr) (position : Position) (lines : Lines) (l : Line) : Lines :=
  let text := s.textAt path l.statement
  if text.isEmpty then lines else l.add path position text lines

/-- The text of a block that is written by a plan, where the block is the first of the given nodes. -/
def Plan.write (p : Plan) (env : Env) (s : Session) (path : List Expr) (position : Position) : String :=
  let declared := p.upFront.map fun v => env.typeName v.ty ++ " " ++ s.nameGiven v ++ ";"
  let start : Lines := if declared.isEmpty then {} else ({} : Lines).push (Text.join "\n" declared) true
  let lines := p.lines.foldl (Line.write s path position) start
  match position with
  | .value => if lines.text.isEmpty then "\x7b\n\x7d" else Body.braces (Text.indented env.indent lines.text)
  | _ => lines.text

/-- Whether `text` is what the block `e` under the given nodes is written as by a plan. -/
structure Session.Writes (s : Session) (env : Env) (path : List Expr) (e : Expr) (p : Plan) (text : String) :
    Prop where
  text : text = p.write env s (e :: path) (Position.under e path.head?)
  statements : p.lines.map Line.statement = e.shown
  remembered : ∀ c ∈ e.shown, (s.memo.lookup (c.place (e :: path))).isSome = true
  named : ∀ v ∈ p.upFront, s.names.answer (.variable v) = (s.nameGiven v, s.names)

/-- What is known of the text of a node under the given nodes, where the variables with the given
    identities are declared. -/
def Session.Shows (s : Session) (env : Env) (path : List Expr) (known : List Nat) (text : String) : Expr → Prop
  | .variable _ v => s.names.answer (.variable v) = (text, s.names)
  | e@(.assign _ op target _) => (s.memo.lookup (target.place (e :: path))).isSome = true ∧
      ∃ value, text = s.textAt (e :: path) target ++ " " ++ op.symbol ++ " " ++ value
  | e@(.block ..) => s.Writes env path e (e.plan path.head? known) text
  | _ => True

/-- Whether a later session still knows the names and texts of an earlier one. -/
structure Session.Grows (s t : Session) : Prop where
  names : s.names.Extends t.names
  memo : ∀ key text, s.memo.lookup key = some text → t.memo.lookup key = some text

theorem Session.Kept.grows {declares : Bool} {s t : Session} (h : s.Kept declares t) : s.Grows t :=
  ⟨h.names, h.memo⟩

section Growing
variable {s t : Session} {env : Env} {path : List Expr}

theorem Session.Grows.of_eq (hnames : t.names = s.names) (hmemo : t.memo = s.memo) : s.Grows t :=
  ⟨hnames ▸ .refl _, fun _ _ h => hmemo ▸ h⟩

theorem Session.Grows.trans {u : Session} (h : s.Grows t) (h' : t.Grows u) : s.Grows u :=
  ⟨h.names.trans h'.names, fun key text hkey => h'.memo key text (h.memo key text hkey)⟩

theorem Session.Grows.ask (s : Session) (r : NameRequest) : s.Grows (s.ask r).2 :=
  ⟨s.names.extends_answer r, fun _ _ h => h⟩

theorem Session.Grows.textAt_eq (h : s.Grows t) {c : Expr}
    (hc : (s.memo.lookup (c.place path)).isSome = true) :
    (t.memo.lookup (c.place path)).isSome = true ∧ t.textAt path c = s.textAt path c := by
  obtain ⟨text, htext⟩ := Option.isSome_iff_exists.mp hc
  have hkept := h.memo _ _ htext
  rw [textAt, textAt, htext, hkept]
  exact ⟨rfl, rfl⟩

theorem Session.Grows.answer_eq (h : s.Grows t) {r : NameRequest} {name : String}
    (hr : s.names.answer r = (name, s.names)) : t.names.answer r = (name, t.names) := by
  have hagain : t.names.answer r = ((s.names.answer r).1, t.names) := by
    refine NameTable.answer_again ?_
    rw [hr]
    exact h.names
  rw [hagain, hr]

theorem Plan.write_congr {p : Plan} {position : Position}
    (hstatements : ∀ l ∈ p.lines, t.textAt path l.statement = s.textAt path l.statement)
    (hnames : ∀ v ∈ p.upFront, t.nameGiven v = s.nameGiven v) :
    p.write env t path position = p.write env s path position := by
  have hdeclared : (p.upFront.map fun v => env.typeName v.ty ++ " " ++ t.nameGiven v ++ ";") =
      p.upFront.map fun v => env.typeName v.ty ++ " " ++ s.nameGiven v ++ ";" :=
    List.map_congr_left fun v hv => by rw [hnames v hv]
  have hlines : ∀ start, p.lines.foldl (Line.write t path position) start =
      p.lines.foldl (Line.write s path position) start := by
    intro start
    refine List.foldl_ext _ _ _ fun lines l hl => ?_
    simp only [Line.write, hstatements l hl]
  simp only [Plan.write, hdeclared, hlines]

/-- What is remembered and what is named stays so. -/
theorem Session.Writes.grow (h : s.Grows t) {e : Expr} {p : Plan} {text : String}
    (hw : s.Writes env path e p text) : t.Writes env path e p text := by
  have htext : ∀ c ∈ e.shown, t.textAt (e :: path) c = s.textAt (e :: path) c :=
    fun c hc => (h.textAt_eq (hw.remembered c hc)).2
  have hanswer : ∀ v ∈ p.upFront, t.names.answer (.variable v) = (s.nameGiven v, t.names) :=
    fun v hv => h.answer_eq (hw.named v hv)
  have hname : ∀ v ∈ p.upFront, t.nameGiven v = s.nameGiven v := fun v hv => by
    rw [nameGiven, hanswer v hv]
  refine ⟨?_, hw.statements, fun c hc => (h.textAt_eq (hw.remembered c hc)).1, fun v hv => ?_⟩
  · rw [hw.text, Plan.write_congr (fun l hl => htext _ ?_) hname]
    rw [← hw.statements]
    exact List.mem_map_of_mem hl
  · rw [hanswer v hv, hname v hv]

theorem Session.Shows.grow (h : s.Grows t) {known : List Nat} {text : String} {e : Expr}
    (hs : s.Shows env path known text e) : t.Shows env path known text e := by
  cases e with
  | «variable» id v => exact h.answer_eq hs
  | assign id op target value =>
    obtain ⟨hsome, rest, hrest⟩ := hs
    obtain ⟨hsome', heq⟩ := h.textAt_eq hsome
    exact ⟨hsome', rest, by rw [hrest, heq]⟩
  | block id locals all ty => exact Writes.grow h hs
  | _ => trivial

end Growing

/-! ### Sessions -/

/-- Whether a node of `root` is shown under the given nodes, and which variables are declared there. -/
inductive Expr.Meets (root : Expr) : List Expr → Expr → List Nat → Prop
  | root : Meets root [] root []
  | step {path : List Expr} {e : Expr} {known : List Nat} (h : Meets root path e known)
    {x : Expr × List Nat} (hx : x ∈ e.steps declareId known) : Meets root (e :: path) x.1 x.2

theorem Expr.Meets.reaches {root e : Expr} {path : List Expr} {known : List Nat}
    (h : root.Meets path e known) : root.Reaches path e := by
  induction h with
  | root => exact .root
  | step _ hx ih => exact .step ih (Expr.mem_shown_of_mem_steps _ hx)

theorem Expr.Reaches.of_suffix {root e a : Expr} {path rest : List Expr} (h : root.Reaches path e)
    (ha : a :: rest <:+ path) : root.Reaches rest a := by
  induction h with
  | root => simp at ha
  | step h _ ih =>
    rcases List.suffix_cons_iff.mp ha with heq | ha
    · cases heq
      exact h
    · exact ih ha

/-- A session under the given nodes, where the variables with the given identities are declared: it
    remembers none of the nodes that are being shown, and how the others are shown. -/
structure Session.Records (root : Expr) (env : Env) (path : List Expr) (known : List Nat) (s : Session) :
    Prop where
  stands : s.Stands path (· ∈ known)
  unseen : ∀ a rest, a :: rest <:+ path → s.memo.lookup (a.place rest) = none
  shown : ∀ p e text, root.Reaches p e → s.memo.lookup (e.place p) = some text →
    ∃ known, root.Meets p e known ∧ s.Shows env p known text e

namespace Session.Records
variable {root : Expr} {env : Env} {path : List Expr} {known known' : List Nat} {s t : Session}

/-- At the start of a rendering nothing is declared and nothing remembered. -/
theorem start (root : Expr) (env : Env) : (Session.start root).Records root env [] [] := by
  refine ⟨⟨rfl, fun v => ?_, by simp [Session.start]⟩, fun a rest ha => by simp at ha, ?_⟩
  · simp [Session.start, Session.isDeclared]
  · intro p e text _ htext
    simp [Session.start] at htext

/-- What is recorded depends on the names and the memo only. -/
theorem change {path' : List Expr} (h : s.Records root env path known) (hstands : t.Stands path' (· ∈ known'))
    (hpath : path' <:+ path) (hgrows : s.Grows t) (hmemo : t.memo = s.memo) :
    t.Records root env path' known' where
  stands := hstands
  unseen a rest ha := by
    rw [hmemo]
    exact h.unseen a rest (ha.trans hpath)
  shown p e text he htext := by
    rw [hmemo] at htext
    obtain ⟨k, hmeets, hshows⟩ := h.shown p e text he htext
    exact ⟨k, hmeets, hshows.grow hgrows⟩

theorem isDeclared_eq (h : s.Records root env path known) (v : Variable) :
    s.isDeclared v = known.contains v.id := by
  rw [Bool.eq_iff_iff, h.stands.declared v, List.contains_iff_mem]

theorem declare (h : s.Records root env path known) (v : Variable) :
    (s.declare v).2.Records root env path (declareId v known) := by
  obtain ⟨hstands, -, hnames, hmemo, -⟩ := h.stands.declare v
  refine h.change ⟨hstands.path, fun w => ?_, hstands.opened⟩ (List.suffix_refl _) (.of_eq hnames hmemo) hmemo
  rw [hstands.declared w, mem_declareId]
  rfl

theorem ask (h : s.Records root env path known) (r : NameRequest) :
    (s.ask r).2.Records root env path known :=
  h.change ⟨h.stands.path, h.stands.declared, h.stands.opened⟩ (List.suffix_refl _)
    (.ask s r) rfl

theorem openScope (h : s.Records root env path known) : s.openScope.Records root env path known :=
  h.change h.stands.openScope (List.suffix_refl _) (.of_eq rfl rfl) rfl

theorem closeScope (h : s.Records root env path known) (ht : t.Records root env path known')
    (htail : t.scopes.tail = s.scopes) :
    t.closeScope.Records root env path known ∧ t.closeScope.scopes = s.scopes := by
  obtain ⟨hstands, hscopes, hnames, hmemo⟩ := h.stands.closeScope ht.stands htail
  exact ⟨ht.change hstands (List.suffix_refl _) (.of_eq hnames hmemo) hmemo, hscopes⟩

theorem push (h : s.Records root env path known) {e : Expr} (hnew : s.memo.lookup (e.place path) = none) :
    (s.push e).Records root env (e :: path) known := by
  refine ⟨h.stands.push e, fun a rest ha => ?_, fun p f text hf htext => ?_⟩
  · rcases List.suffix_cons_iff.mp ha with heq | ha
    · cases heq
      exact hnew
    · exact h.unseen a rest ha
  · obtain ⟨k, hmeets, hshows⟩ := h.shown p f text hf htext
    have hgrows : s.Grows (s.push e) := .of_eq rfl rfl
    exact ⟨k, hmeets, hshows.grow hgrows⟩

/-- A node that was shown is remembered. -/
theorem remember (htree : root.IsTree) {e : Expr} (he : root.Meets path e known)
    (h : s.Records root env (e :: path) known) {text : String} (hshows : s.Shows env path known text e) :
    (s.pop.remember (e.place path) text).Records root env path known := by
  have hnew : s.memo.lookup (e.place path) = none := h.unseen e path (List.suffix_refl _)
  have hgrows : s.Grows (s.pop.remember (e.place path) text) := by
    refine ⟨.refl _, fun key text' hkey => ?_⟩
    rw [Session.remember, lookup_cons_eq, if_neg]
    · exact hkey
    · rintro rfl
      rw [hnew] at hkey
      cases hkey
  refine ⟨⟨h.stands.pop.path, h.stands.pop.declared, h.stands.pop.opened⟩, fun a rest ha => ?_,
    fun p f text' hf htext => ?_⟩
  · rw [Session.remember, lookup_cons_eq, if_neg]
    · exact h.unseen a rest (ha.trans (List.suffix_cons e path))
    · -- A node of the path of `e` is not `e` itself.
      intro hplace
      obtain ⟨hrest, -⟩ := (he.reaches.of_suffix ha).unique htree he.reaches (congrArg Prod.fst hplace)
      have hlength := ha.length_le
      rw [hrest, List.length_cons] at hlength
      omega
  · rw [Session.remember, lookup_cons_eq] at htext
    split at htext
    · next hplace =>
      cases htext
      obtain ⟨rfl, rfl⟩ := hf.unique htree he.reaches (congrArg Prod.fst hplace)
      exact ⟨known, he, hshows.grow hgrows⟩
    · obtain ⟨k, hmeets, hshows⟩ := h.shown p f text' hf htext
      exact ⟨k, hmeets, hshows.grow hgrows⟩

end Session.Records

/-! ### Blocks -/

section Blocks
variable {root : Expr} {env : Env} {path : List Expr} {locals : List Variable} {xs : List Expr}

/-- The declarations before the statements are those of the plan. -/
theorem runOn_declarations : ∀ (vs : List Variable) (known : List Nat) {s t : Session} {declared : List String},
    s.Records root env path known → (declarations locals xs vs).runOn env s = (.ok declared, t) →
    t.Records root env path (afterDeclarations declareId locals xs vs known) ∧ s.Grows t ∧
      declared = (upFront locals xs vs known).map (fun v =>
        env.typeName v.ty ++ " " ++ t.nameGiven v ++ ";") ∧
      ∀ v ∈ upFront locals xs vs known, t.names.answer (.variable v) = (t.nameGiven v, t.names)
  | [], known, s, t, declared, h, hrun => by
    cases hrun
    exact ⟨h, .of_eq rfl rfl, rfl, fun v hv => by cases hv⟩
  | v :: rest, known, s, t, declared, h, hrun => by
    rw [declarations, runOn_bind_ok runOn_get, h.isDeclared_eq] at hrun
    rw [afterDeclarations, upFront]
    split at hrun
    · next hskip =>
      rw [if_pos hskip]
      have hsame : (if isAssigned locals xs v = true then known else declareId v known) = known := by
        split
        · rfl
        · next hassigned =>
          rw [Bool.not_eq_true] at hassigned
          rw [hassigned, Bool.false_or, List.contains_iff_mem] at hskip
          exact List.insert_of_mem hskip
      rw [hsame]
      exact runOn_declarations rest known h hrun
    · next hskip =>
      rw [if_neg hskip]
      rw [Bool.not_eq_true, Bool.or_eq_false_iff] at hskip
      rw [if_neg (by simp [hskip.1])]
      obtain ⟨-, -, hnames, hmemo, -⟩ := h.stands.declare v
      have hline : (typeName v.ty).runOn env (((s.declare v).2).ask (.variable v)).2 =
          (.ok (env.typeName v.ty), (((s.declare v).2).ask (.variable v)).2) := rfl
      rw [runOn_bind_ok (runOn_modifyGet _), nameOf, runOn_bind_ok (runOn_ask _),
        runOn_bind_ok hline] at hrun
      obtain ⟨lines, u, hrest, hlast⟩ := exists_of_runOn_bind hrun
      cases hlast
      have hasked := (h.declare v).ask (.variable v)
      obtain ⟨hrecords, hgrows, hlines, hnamed⟩ := runOn_declarations rest _ hasked hrest
      have hagain : t.names.answer (.variable v) =
          (((s.declare v).2.names.answer (.variable v)).1, t.names) := NameTable.answer_again hgrows.names
      have hname : t.nameGiven v = (((s.declare v).2).ask (.variable v)).1 := by
        rw [nameGiven, hagain]
        rfl
      refine ⟨hrecords, ?_, ?_, ?_⟩
      · exact (Grows.of_eq hnames hmemo).trans (.trans (.ask _ _) hgrows)
      · rw [List.map_cons, hlines, hname]
      · refine List.forall_mem_cons.mpr ⟨?_, hnamed⟩
        rw [hagain, hname]
        rfl

/-- What is known of a way to show a node under the given nodes. -/
def Watches (root : Expr) (env : Env) (path : List Expr) (visit : Visit) (c : Expr) (known : List Nat) : Prop :=
  ∀ s t text, s.Records root env path known → (visit c).runOn env s = (.ok text, t) →
    t.Records root env path known ∧ s.Grows t ∧ t.scopes.tail = s.scopes.tail ∧
      t.memo.lookup (c.place path) = some text ∧ ∀ op, c.kind = .assign op → text ≠ ""

theorem stripped_eq_strippedAt {s : Session} (h : s.path = path) (c : Expr) (text : String) :
    s.stripped c text = strippedAt path c text := by
  have hkeeps : s.keepsParens c = ({ path } : Session).keepsParens c := by
    cases c <;> simp [keepsParens, h]
  rw [strippedAt, Session.stripped, Session.stripped, hkeeps]

theorem runOn_stripped {known : List Nat} {s : Session} (h : s.Records root env path known) (c : Expr)
    (text : String) : (stripped c text).runOn env s = (.ok (strippedAt path c text), s) := by
  rw [← stripped_eq_strippedAt h.stands.path]
  rfl

/-- A statement is written as its line says. -/
theorem runOn_statementText {known : List Nat} {s t : Session} {c : Expr} {text line : String}
    (h : s.Records root env path known) (hrun : (statementText locals c text).runOn env s = (.ok line, t)) :
    t.Records root env path (afterStatement declareId locals c known) ∧ s.Grows t ∧
      ∀ position lines, lines.push (Text.terminated line) false =
        (lineOf locals known c).add path position text lines := by
  rw [statementText, runOn_bind_ok (runOn_stripped h c text)] at hrun
  rw [afterStatement, lineOf]
  cases hv : declaredBy locals c with
  | none =>
    rw [hv] at hrun
    cases hrun
    exact ⟨h, .of_eq rfl rfl, fun _ _ => rfl⟩
  | some v =>
    rw [hv] at hrun
    obtain ⟨-, -, hnames, hmemo, hanswer⟩ := h.stands.declare v
    rw [runOn_bind_ok (runOn_modifyGet _), hanswer, h.isDeclared_eq] at hrun
    dsimp only [Option.elim_some]
    cases hknown : known.contains v.id <;> rw [hknown] at hrun <;> cases hrun <;>
      exact ⟨h.declare v, .of_eq hnames hmemo, fun _ _ => rfl⟩

/-- The statements are written line by line. -/
theorem runOn_statements {visit : Visit} (position : Position) (r : Bool) : ∀ (xs : List Expr)
    (known : List Nat) {s t : Session} {lines lines' : Lines}, s.Records root env path known →
    (∀ x ∈ statementSteps declareId locals xs known, Watches root env path visit x.1 x.2) →
    (statements visit position r locals xs lines).runOn env s = (.ok lines', t) →
    s.Grows t ∧ lines' = (linesOf r locals xs known).foldl (Line.write t path position) lines ∧
      ∀ c ∈ xs, (t.memo.lookup (c.place path)).isSome = true
  | [], known, s, t, lines, lines', h, _, hrun => by
    cases hrun
    exact ⟨.of_eq rfl rfl, rfl, fun c hc => by cases hc⟩
  | c :: rest, known, s, t, lines, lines', h, hv, hrun => by
    obtain ⟨hc, hrest⟩ := List.forall_mem_cons.mp hv
    rw [statements] at hrun
    obtain ⟨text, s₁, hvisit, hthen⟩ := exists_of_runOn_bind hrun
    obtain ⟨hrecords, hgrows, -, htext, hnonempty⟩ := hc s s₁ text h hvisit
    -- The statement keeps its text in all that follows, so its line can be written in the end.
    have hsome : ∀ {u : Session}, s₁.Grows u → (u.memo.lookup (c.place path)).isSome = true := by
      intro u hu
      rw [hu.memo _ _ htext]
      rfl
    have hwrite : ∀ {u : Session} (l : Line), s₁.Grows u → l.statement = c →
        l.write u path position lines = if text.isEmpty then lines else l.add path position text lines := by
      intro u l hu hl
      rw [Line.write, hl, textAt, hu.memo _ _ htext, Option.getD_some]
    split at hthen
    · next hblank =>
      -- An empty statement has no line, and it declares nothing.
      have hafter : afterStatement declareId locals c known = known := by
        rw [afterStatement]
        cases hdeclared : declaredBy locals c with
        | none => rfl
        | some v =>
          obtain ⟨op, hop⟩ := Expr.kind_of_declaredBy hdeclared
          exact absurd (String.isEmpty_iff.mp hblank) (hnonempty op hop)
      rw [hafter] at hrest
      obtain ⟨hgrows', hlines, hall⟩ := runOn_statements position r rest known hrecords hrest hthen
      refine ⟨hgrows.trans hgrows', ?_, List.forall_mem_cons.mpr ⟨hsome hgrows', hall⟩⟩
      rw [linesOf]
      split
      · next hlast =>
        obtain ⟨rfl, -⟩ : rest = [] ∧ r = true := by simpa using hlast
        rw [List.foldl_cons, hwrite _ hgrows' rfl, if_pos hblank, hlines]
        rfl
      · rw [List.foldl_cons, hwrite _ hgrows' (statement_lineOf known c), if_pos hblank, hafter, hlines]
    · next hblank =>
      split at hthen
      · next hlast =>
        obtain ⟨rfl, -⟩ : rest = [] ∧ r = true := by simpa using hlast
        have hreturned : (.ok lines', t) = (Except.ok (ε := Fault)
            (lines.pushReturn (if position = .value then text else strippedAt path c text)), s₁) := by
          rw [← hthen]
          split
          · rfl
          · rw [runOn_bind_ok (runOn_stripped hrecords c text)]
            rfl
        have hsame : s₁.Grows s₁ := .of_eq rfl rfl
        cases hreturned
        refine ⟨hgrows, ?_, List.forall_mem_cons.mpr ⟨hsome hsame, fun d hd => by cases hd⟩⟩
        rw [linesOf, if_pos hlast, List.foldl_cons, List.foldl_nil, hwrite _ hsame rfl, if_neg hblank]
        rfl
      · next hlast =>
        obtain ⟨line, s₂, hstatement, hothers⟩ := exists_of_runOn_bind hthen
        obtain ⟨hrecords₂, hgrows₂, hline⟩ := runOn_statementText hrecords hstatement
        obtain ⟨hgrows', hlines, hall⟩ := runOn_statements position r rest _ hrecords₂ hrest hothers
        have hlater := hgrows₂.trans hgrows'
        refine ⟨hgrows.trans hlater, ?_, List.forall_mem_cons.mpr ⟨hsome hlater, hall⟩⟩
        rw [linesOf, if_neg hlast, List.foldl_cons, hwrite _ hlater (statement_lineOf known c),
          if_neg hblank, ← hline, hlines]

/-- The text of a block is written by its plan. -/
theorem runOn_block {visit : Visit} {i : Nat} {locals : List Variable} {all : List Expr} {ty : Ty}
    {known : List Nat} {s t : Session} {text : String}
    (h : s.Records root env (.block i locals all ty :: path) known)
    (hv : ∀ x ∈ (Expr.block i locals all ty).steps declareId known,
      Watches root env (.block i locals all ty :: path) visit x.1 x.2)
    (hrun : (block visit (.block i locals all ty)).runOn env s = (.ok text, t)) :
    t.Writes env path (.block i locals all ty) ((Expr.block i locals all ty).plan path.head? known) text := by
  obtain ⟨u, hbody, rfl⟩ := exists_of_runOn_between hrun
  have hclose : u.Grows u.closeScope := by
    obtain ⟨scopes, heq⟩ := u.closeScope_eq
    rw [heq]
    exact .of_eq rfl rfl
  refine Writes.grow hclose ?_
  have hparent : s.openScope.parent? = path.head? := by
    rw [Session.parent?, h.openScope.stands.path]
    rfl
  rw [blockBody, runOn_bind_ok runOn_get, hparent] at hbody
  obtain ⟨declared, s₁, hdeclared, hthen⟩ := exists_of_runOn_bind hbody
  obtain ⟨lines, s₂, hstatements, hfinish⟩ := exists_of_runOn_bind hthen
  obtain ⟨hrecords, -, hlines, hnamed⟩ := runOn_declarations locals known h.openScope hdeclared
  obtain ⟨hgrows, hwritten, hsome⟩ := runOn_statements _ _ _ _ hrecords hv hstatements
  have hanswer : ∀ v ∈ upFront locals (all.filter (!·.isEmpty)) locals known,
      s₂.names.answer (.variable v) = (s₁.nameGiven v, s₂.names) :=
    fun v hv => hgrows.answer_eq (hnamed v hv)
  have hname : ∀ v ∈ upFront locals (all.filter (!·.isEmpty)) locals known,
      s₂.nameGiven v = s₁.nameGiven v := fun v hv => by rw [nameGiven, hanswer v hv]
  have hdeclared : declared = (upFront locals (all.filter (!·.isEmpty)) locals known).map fun v =>
      env.typeName v.ty ++ " " ++ s₂.nameGiven v ++ ";" := by
    rw [hlines]
    exact List.map_congr_left fun v hv => by rw [hname v hv]
  have hplan : ((Expr.block i locals all ty).plan path.head? known).write env s₂
      (.block i locals all ty :: path) (Position.under (.block i locals all ty) path.head?) =
      match Position.under (.block i locals all ty) path.head? with
      | .value => if lines.text.isEmpty then "\x7b\n\x7d"
        else Body.braces (Text.indented env.indent lines.text)
      | _ => lines.text := by
    rw [hwritten, hdeclared]
    rfl
  have hend : u = s₂ ∧ text = ((Expr.block i locals all ty).plan path.head? known).write env s₂
      (.block i locals all ty :: path) (Position.under (.block i locals all ty) path.head?) := by
    rw [hplan]
    generalize Position.under (.block i locals all ty) path.head? = position at hfinish ⊢
    cases position with
    | value =>
      dsimp only at hfinish ⊢
      split at hfinish <;> cases hfinish
      · next hempty => exact ⟨rfl, by rw [if_pos hempty]⟩
      · next hempty => exact ⟨rfl, by rw [if_neg hempty]⟩
    | _ =>
      cases hfinish
      exact ⟨rfl, rfl⟩
  obtain ⟨rfl, htext⟩ := hend
  refine ⟨htext, Expr.map_statement_plan _ _ _ rfl, hsome, fun v hv => ?_⟩
  rw [hanswer v hv, hname v hv]

end Blocks

/-! ### Whole renderings -/

/-- An action that a recording session goes through under the given nodes. -/
def Watched (root : Expr) (env : Env) (path : List Expr) (α : Type) (known : List Nat) (_ : Prop)
    (Q : α → α → List Nat → Prop) (x _ : RenderM α) : Prop :=
  ∀ s, s.Records root env path known → ∀ a t, x.runOn env s = (.ok a, t) →
    ∃ b n, Q a b n ∧ t.Records root env path n ∧ t.scopes.tail = s.scopes.tail

theorem watched_lockstep (root : Expr) (env : Env) (path : List Expr) (e : Expr) :
    Lockstep declareId path path e e (Watched root env (e :: path)) where
  alike := .refl e
  seen := ⟨rfl, fun _ _ => rfl, fun _ _ => Iff.rfl, fun _ => rfl, fun _ _ _ => rfl, fun _ _ _ => rfl⟩
  congr _ h := h
  answer {_ known _ _ b} h s hs a t hrun := by
    cases hrun
    exact ⟨b, known, h, hs, rfl⟩
  sequel {_ _ _ _ _ _ _ _ x _ f _} h hf _ s hs c u hrun := by
    obtain ⟨a, t, hx, hrun⟩ := exists_of_runOn_bind hrun
    obtain ⟨b, n, hab, ht, htail⟩ := h s hs a t hx
    obtain ⟨d, k, hcd, hu, htail'⟩ := hf a b n hab t ht c u hrun
    exact ⟨d, k, hcd, hu, htail'.trans htail⟩
  refusal cause s hs a t hrun := by cases hrun
  reading {known} s hs a t hrun := by
    cases hrun
    exact ⟨env, known, ⟨⟨rfl, rfl⟩, rfl⟩, hs, rfl⟩
  looking {known} s hs a t hrun := by
    cases hrun
    refine ⟨s, known, ⟨⟨hs.stands.path, hs.stands.path, fun _ _ => rfl, fun v _ hv => ?_⟩, rfl⟩, hs, rfl⟩
    exact List.insert_of_mem ((hs.stands.declared v).mp hv)
  declaring {known v} _ s hs a t hrun := by
    rw [runOn_modifyGet] at hrun
    cases hrun
    obtain ⟨-, htail, -⟩ := hs.stands.declare v
    exact ⟨_, _, ⟨rfl, rfl⟩, hs.declare v, htail⟩
  asking {known r} _ s hs a t hrun := by
    rw [runOn_ask] at hrun
    cases hrun
    exact ⟨_, known, ⟨rfl, rfl⟩, hs.ask r, rfl⟩
  scoping {_ known _ _ x _} h s hs a t hrun := by
    obtain ⟨u, hx, rfl⟩ := exists_of_runOn_between hrun
    obtain ⟨b, n, hab, hu, htail⟩ := h s.openScope hs.openScope _ u hx
    obtain ⟨hclosed, hscopes⟩ := hs.closeScope hu htail
    exact ⟨b, known, hab, hclosed, by rw [hscopes]⟩

section Nodes
variable {root : Expr} {env : Env} {path : List Expr} {known : List Nat}

theorem shows_of_render {visit : Visit} {e : Expr} {s t : Session} {text : String}
    (h : s.Records root env (e :: path) known) (hkeeps : ∀ declares c, Keeps declares (visit c))
    (hv : ∀ x ∈ e.steps declareId known, Watches root env (e :: path) visit x.1 x.2)
    (hrun : (e.kind.renderer.render visit e).runOn env s = (.ok text, t)) : t.Shows env path known text e := by
  cases e with
  | «variable» id v =>
    have hasked : (RenderM.ask (.variable v)).runOn env s = (.ok text, t) := hrun
    rw [runOn_ask] at hasked
    cases hasked
    exact NameTable.answer_again (.refl _)
  | assign id op target value =>
    have hassign : (assign visit (.assign id op target value)).runOn env s = (.ok text, t) := hrun
    obtain ⟨left, s₁, htarget, hassign⟩ := exists_of_runOn_bind hassign
    obtain ⟨right, s₂, hvalue, hassign⟩ := exists_of_runOn_bind hassign
    cases hassign
    obtain ⟨hrecords, -, -, hleft, -⟩ := hv (target, known) List.mem_cons_self s s₁ left h htarget
    have hkept : s₁.Kept true ((assignedText visit value).runOn env s₁).2 :=
      Keeps.assignedText hkeeps value env s₁ hrecords.stands.opened
    rw [hvalue] at hkept
    have hsome := hkept.memo _ _ hleft
    refine ⟨by rw [hsome]; rfl, right, ?_⟩
    rw [textAt, hsome]
    rfl
  | block id locals all ty => exact runOn_block h hv hrun
  | _ => trivial

/-- A rendering of a tree records how it shows its nodes. -/
theorem watches_visit (htree : root.IsTree) (hnative : ∀ e ∈ root.nodes, e.IsNative)
    (henv : env.registry = .standard) : ∀ (depth : Nat) {path : List Expr} {e : Expr} {known : List Nat},
    root.Meets path e known → e.height ≤ depth → Watches root env path (visit depth) e known
  | 0, path, e, known, _, hdepth => by
    have : e.height ≠ 0 := by cases e <;> simp [Expr.height]
    omega
  | depth + 1, path, e, known, he, hdepth => by
    intro s t text hs hrun
    have hkeeps : ∀ depth declares c, Keeps declares (visit depth c) := by
      intro depth declares c
      rw [← visitWith_script]
      exact Keeps.visitWith Expr.script depth declares c
    have hkey := Session.keyOf_eq hs.stands.path e
    have hgrows : s.Grows t := by
      have hkept := hkeeps (depth + 1) true e env s hs.stands.opened
      rw [hrun] at hkept
      exact hkept.grows
    cases hmemo : s.memo.lookup (s.keyOf e) with
    | some given =>
      rw [runOn_visit_known hmemo] at hrun
      cases hrun
      rw [hkey] at hmemo
      refine ⟨hs, hgrows, rfl, hmemo, fun op hop hempty => ?_⟩
      obtain ⟨k, -, hshows⟩ := hs.shown path e text he.reaches hmemo
      cases e <;> cases hop
      obtain ⟨-, value, hvalue⟩ := hshows
      rw [hempty] at hvalue
      simpa using congrArg String.toList hvalue
    | none =>
      have hfind : env.registry.find? e.kind = some (.of e.kind.renderer) := by
        rw [henv, Registry.standard_find?]
      have hv : ∀ x ∈ e.steps declareId known, Watches root env (e :: path) (visit depth) x.1 x.2 := by
        intro x hx
        have hlt := Expr.height_lt_of_mem_shown (Expr.mem_shown_of_mem_steps _ hx)
        exact watches_visit htree hnative henv depth (.step he hx) (by omega)
      have htold : List.Forall₂ (fun x y => Visits declareId e (Watched root env (e :: path))
          (ExprText.visit depth) (ExprText.visit depth) (fun _ => True) x.2 x.1 y.1)
          (e.steps declareId known) (e.steps declareId known) := by
        refine List.forall₂_same.mpr fun x hx => ⟨Expr.mem_shown_of_mem_steps _ hx, .refl _, ?_⟩
        intro s hs text t hrun
        obtain ⟨ht, -, htail, -, hnonempty⟩ := hv x hx s t text hs hrun
        exact ⟨text, x.2, ⟨⟨rfl, rfl⟩, fun op hop hempty => absurd hempty (hnonempty op hop)⟩, ht, htail⟩
      rw [runOn_visit_new hmemo hfind] at hrun
      rw [hkey] at hmemo hrun
      rcases hrender : (e.kind.renderer.render (ExprText.visit depth) e).runOn env (s.push e) with
        ⟨fault | text', u⟩
      · simp only [Registration.of, hrender] at hrun
        cases hrun
      · simp only [Registration.of, hrender] at hrun
        cases hrun
        obtain ⟨_, _, ⟨⟨rfl, rfl⟩, hnonempty⟩, hu, htail⟩ :=
          (watched_lockstep root env path e).render_native (hnative e he.reaches.mem_nodes) htold (s.push e)
            (hs.push hmemo) _ u hrender
        have hshows := shows_of_render (hs.push hmemo) (fun _ _ => hkeeps depth _ _) hv hrender
        refine ⟨hu.remember htree he hshows, hgrows, htail, ?_, fun op hop hempty => ?_⟩
        · rw [Session.remember, lookup_cons_eq, if_pos rfl]
        · exact absurd (hnonempty op hop hempty ⟨0, none, .void⟩ []) (by decide)

end Nodes

end ExprText
