import ExprText.Proofs.Composed.Blocks
import ExprText.Proofs.Locals.Once

/-! # Expressions in finished renderings

A node is shown as an expression where no loop, no conditional that is laid out as a statement and no block
that is not in braces is exposed in it. The text that a finished rendering remembers of such a node is a
phrase, by induction over what is exposed. -/

namespace ExprText

open Text Render RenderM Session

/-! ### Nodes that are shown as expressions -/

namespace Expr

/-- Whether a node by itself is laid out as an expression. -/
def isInline : Expr → Bool
  | .block .. | .loop .. => false
  | e@(.conditional ..) => e.isTernary
  | _ => true

/-- Whether a node under `parent` is shown as an expression. A block is in braces, or it is a branch with a
    single statement; no other node is laid out as a statement, nor is any that is exposed in it. -/
inductive Expressed : Option Expr → Expr → Prop
  | braced {parent : Option Expr} {e : Expr} (block : e.isBlock = true)
    (value : Position.under e parent = .value) : Expressed parent e
  | branch {parent e : Expr} (conditional : parent.isConditional = true) (block : e.isBlock = true)
    (single : e.isSingle = true) (statement : ∀ c ∈ e.shown, Expressed (some e) c) :
    Expressed (some parent) e
  | inline {parent : Option Expr} {e : Expr} (inline : e.isInline = true)
    (exposed : ∀ c ∈ e.exposed, Expressed (some e) c) : Expressed parent e

/-- Only conditionals expose blocks that are not in braces. -/
theorem under_of_mem_exposed {e c : Expr} (hinline : e.isInline = true)
    (hconditional : e.isConditional = false) (hc : c ∈ e.exposed) (hblock : c.isBlock = true) :
    Position.under c (some e) = .value := by
  cases e with
  | block | loop => cases hinline
  | conditional => cases hconditional
  | lambda i params body ty =>
    rw [exposed] at hc
    split at hc
    · cases hc
    · next hbraced =>
      obtain rfl := List.mem_singleton.mp hc
      cases c with
      | block => exact absurd rfl hbraced
      | _ => cases hblock
  | _ => rfl

theorem under_conditional {parent : Expr} (h : parent.isConditional = true) (e : Expr) :
    Position.under e (some parent) = .value ∨ Position.under e (some parent) = .statement := by
  cases parent with
  | conditional i test ifTrue ifFalse ty =>
    rw [Position.under]
    split
    · exact .inl rfl
    · exact .inr rfl
  | _ => cases h

/-- In a block only what is no block is an expression. -/
theorem Expressed.isBlock_eq_false {e c : Expr} (h : c.Expressed (some e)) (hblock : e.isBlock = true) :
    c.isBlock = false := by
  cases h with
  | braced _ hvalue =>
    cases e with
    | block => cases hvalue
    | _ => cases hblock
  | branch hconditional =>
    cases e with
    | block => cases hconditional
    | _ => cases hblock
  | inline hinline =>
    cases c with
    | block => cases hinline
    | _ => rfl

/-- What a block declares up front are variables that it asks the names of. -/
theorem variable_mem_requests {parent : Option Expr} {known : List Nat} {e : Expr} {v : Variable}
    (h : v ∈ (e.plan parent known).upFront) : .variable v ∈ e.requests := by
  have hmem : ∀ (locals : List Variable) (xs : List Expr) (vs : List Variable) (known : List Nat),
      v ∈ upFront locals xs vs known → v ∈ vs := by
    intro locals xs vs
    induction vs with
    | nil => exact fun _ hv => hv
    | cons w vs ih =>
      intro known hv
      rw [upFront] at hv
      split at hv
      · exact List.mem_cons_of_mem _ (ih _ hv)
      · rcases List.mem_cons.mp hv with rfl | hv
        · exact List.mem_cons_self
        · exact List.mem_cons_of_mem _ (ih _ hv)
  cases e with
  | block i locals all ty => exact List.mem_map_of_mem (hmem _ _ _ _ h)
  | _ => cases h

end Expr

/-- What a block declares up front is balanced where no name that it is spelled with has a bracket. -/
theorem balanced_upFront {e : Expr} {s : Session} {settings : Settings} {qualified : Bool}
    (hspelled : ∀ w ∈ e.spellings, Free nestingMarks w) (hlegible : s.names.Legible nestingMarks)
    {parent : Option Expr} {known : List Nat} : ∀ v ∈ (e.plan parent known).upFront,
      Balanced (({ settings, qualified } : Env).typeName v.ty) ∧ Balanced (s.nameGiven v) := by
  intro v hv
  have hfree : ∀ w ∈ NameRequest.spellings (.variable v), Free nestingMarks w := fun w hw =>
    hspelled w (List.mem_append_right _ (List.mem_flatMap.mpr ⟨_, Expr.variable_mem_requests hv, hw⟩))
  obtain ⟨hname, -⟩ := NameTable.Legible.answer (by decide) hlegible hfree
  refine ⟨?_, balanced_of_free hname⟩
  exact Comparison.display (C := Comparison.balanced {} qualified) qualified v.ty fun w hw =>
    balanced_of_free (hfree w (List.mem_append_right _ hw))

/-! ### Finished renderings -/

/-- What is known at the end of a rendering of a tree that is spelled with names. -/
structure Session.Finishes (root : Expr) (settings : Settings) (qualified : Bool) (s : Session) : Prop where
  plain : ∀ e ∈ root.nodes, e.kind ≠ .extension
  spelled : ∀ e ∈ root.nodes, ∀ w ∈ e.spellings, IsName w
  records : s.Records root { settings, qualified } [] []
  composed : ∀ path e text, root.Reaches path e → s.memo.lookup (e.place path) = some text →
    ∃ known, s.Composes { settings, qualified } path known e text
  balanced : ∀ key text, s.memo.lookup key = some text → Balanced text
  legible : s.names.Legible phraseMarks

/-- A rendering beside itself, all texts of which are balanced and no name of which breaks a phrase. -/
def Comparison.legible (settings : Settings) (qualified : Bool) : Comparison :=
  { Comparison.balanced settings qualified with
    marks := phraseMarks
    punctuation := punctuation_phraseMarks
    free := fun h => ⟨rfl, balanced_of_free (h.mono (by decide))⟩ }

theorem finishes_textOf {root : Expr} (htree : root.IsTree) (hext : ∀ e ∈ root.nodes, e.kind ≠ .extension)
    (hspelled : ∀ e ∈ root.nodes, ∀ w ∈ e.spellings, IsName w) {settings : Settings} {qualified : Bool}
    {text : String} {s : Session}
    (hrun : (RenderM.textOf root).runOn { settings, qualified } (.start root) = (.ok text, s)) :
    s.Finishes root settings qualified := by
  have hexact : (Comparison.legible settings qualified).Exact := fun _ _ h => h.1
  have hsuits : (Comparison.legible settings qualified).Suits root :=
    ⟨hext, fun e he w hw => ⟨(hspelled e he w hw).2,
      balanced_of_free ((hspelled e he w hw).2.mono (by decide))⟩, .inl hexact⟩
  have hboth : (Comparison.legible settings qualified).Sessions root []
      ((RenderM.textOf root).runOn { settings, qualified } (.start root)).2
      ((RenderM.textOf root).runOn { settings, qualified } (.start root)).2 := (Parallel.textOf hsuits).1
  rw [hrun] at hboth
  refine ⟨hext, hspelled, records_textOf htree hext (by simp) hrun, fun path e given he hgiven => ?_,
    fun key given hkey => ?_, hboth.legible⟩
  · obtain ⟨known, -, hcomposes⟩ := composes_textOf htree hext (by simp) hrun he hgiven
    exact ⟨known, hcomposes⟩
  · have hmemo := hboth.memo key
    rw [hkey] at hmemo
    cases hmemo with
    | some h => exact h.2

namespace Session.Finishes
variable {root e : Expr} {settings : Settings} {qualified : Bool} {s : Session} {path : List Expr}
  {text : String}

theorem exists_text (h : s.Finishes root settings qualified) (he : root.Reaches path e)
    (htext : s.memo.lookup (e.place path) = some text) {c : Expr} (hc : c ∈ e.shown) :
    root.Reaches (e :: path) c ∧ s.memo.lookup (c.place (e :: path)) = some (s.textAt (e :: path) c) := by
  obtain ⟨known, hcomposes⟩ := h.composed path e text he htext
  obtain ⟨given, hgiven⟩ := Option.isSome_iff_exists.mp (hcomposes.remembered c hc)
  exact ⟨.step he hc, by rw [textAt, hgiven, Option.getD_some]⟩

theorem balanced_shown (h : s.Finishes root settings qualified) (he : root.Reaches path e)
    (htext : s.memo.lookup (e.place path) = some text) {c : Expr} (hc : c ∈ e.shown) :
    Balanced (s.textAt (e :: path) c) :=
  h.balanced _ _ (h.exists_text he htext hc).2

theorem balanced_lines (h : s.Finishes root settings qualified) (he : root.Reaches path e) {env : Env}
    (htext : s.memo.lookup (e.place path) = some text) {p : Plan} (hwrites : s.Writes env path e p text) :
    ∀ l ∈ p.lines, Balanced (s.textAt (e :: path) l.statement) := by
  intro l hl
  refine h.balanced_shown he htext ?_
  rw [← hwrites.statements]
  exact List.mem_map_of_mem hl

theorem balanced_upFront (h : s.Finishes root settings qualified) (he : root.Reaches path e)
    {parent : Option Expr} {known : List Nat} : ∀ v ∈ (e.plan parent known).upFront,
      Balanced (({ settings, qualified } : Env).typeName v.ty) ∧ Balanced (s.nameGiven v) :=
  ExprText.balanced_upFront (fun w hw => (h.spelled e he.mem_nodes w hw).2.mono (by decide))
    fun key name hname => (h.legible key name hname).mono (by decide)

/-- A block in braces. -/
theorem portable_braced (h : s.Finishes root settings qualified) (he : root.Reaches path e)
    (htext : s.memo.lookup (e.place path) = some text) (hblock : e.isBlock = true)
    (hvalue : Position.under e path.head? = .value) : Portable text := by
  obtain ⟨known, -, hwrites⟩ := h.records.writes he hblock htext
  have hinner : Balanced ((e.plan path.head? known).written { settings, qualified } s (e :: path) .value).text :=
    Plan.balanced_written (h.balanced_upFront he) (h.balanced_lines he htext hwrites)
  rw [hwrites.text, Plan.write_eq, hvalue, Position.enclose]
  split
  · exact Unbroken.portable (c := '\x7b') (by decide) (by simp) (by decide)
  · exact (Unbroken.braces (hinner.indented _)).portable (c := '\x7b') (by simp [Body.braces]) (by decide)

/-- A block that is not in braces is broken by a statement that does not end by itself. -/
theorem broken_block (h : s.Finishes root settings qualified) (he : root.Reaches path e)
    (htext : s.memo.lookup (e.place path) = some text) (hblock : e.isBlock = true)
    (hposition : Position.under e path.head? = .statement) {c : Expr} (hc : c ∈ e.shown)
    (hopen : s.NeedsSemicolon (e :: path) c) : Broken text := by
  obtain ⟨known, -, hwrites⟩ := h.records.writes he hblock htext
  exact hwrites.broken hposition (h.balanced_upFront he) (fun d hd => h.balanced_shown he htext hd) hc hopen

/-- A node that is no block, where what it exposes are phrases. -/
theorem portable_inline (h : s.Finishes root settings qualified) (he : root.Reaches path e)
    (htext : s.memo.lookup (e.place path) = some text) (hinline : e.isInline = true)
    (hparts : ∀ c ∈ e.exposed, Phrase (unterminated (s.textAt (e :: path) c)) ∧
      ((c.isBlock = true → Position.under c (some e) = .value) → Portable (s.textAt (e :: path) c))) :
    Portable text := by
  obtain ⟨known, hcomposes⟩ := h.composed path e text he htext
  have hbalanced : ∀ c ∈ e.shown, Balanced (s.textAt (e :: path) c) :=
    fun c hc => h.balanced_shown he htext hc
  have hlines : ∀ c ∈ e.shown, c.isConditional = true → c.ty.isVoid = true →
      isMultiLine (s.textAt (e :: path) c) = true := by
    intro c hc hconditional hvoid
    obtain ⟨hreaches, hgiven⟩ := h.exists_text he htext hc
    obtain ⟨_, hbelow⟩ := h.composed _ _ _ hreaches hgiven
    exact hbelow.isMultiLine_of_isVoid hconditional hvoid
  cases hconditional : e.isConditional with
  | false =>
    have hblock : e.isBlock = false := by
      cases e with
      | block => cases hinline
      | _ => rfl
    have hloop : e.kind ≠ .loop := by
      intro hloop
      cases e with
      | loop => cases hinline
      | _ => cases hloop
    refine portable_node hcomposes (h.plain e he.mem_nodes) hblock hconditional hloop
      (h.spelled e he.mem_nodes) h.legible hbalanced (fun c hc => (hparts c hc).2 fun hcblock => ?_) hlines
    exact Expr.under_of_mem_exposed hinline hconditional hc hcblock
  | true =>
    cases e with
    | conditional i test ifTrue ifFalse ty =>
      have hvoid : ty.isVoid = false := by
        cases hvoid : ty.isVoid <;> simp [Expr.isInline, Expr.isTernary, hvoid] at hinline ⊢
      have hall : ∀ c ∈ [test, ifTrue, ifFalse], c ∈ (Expr.conditional i test ifTrue ifFalse ty).exposed := by
        simp [Expr.exposed, Expr.shown, hvoid]
      refine portable_ternary hcomposes hinline ((hparts test (hall test List.mem_cons_self)).2 fun _ => ?_)
        fun c hc => ?_
      · simp [Position.under, Expr.same]
      · obtain ⟨hphrase, hportable⟩ := hparts c (hall c (List.mem_cons_of_mem _ hc))
        exact ⟨hphrase, fun hblock => hportable fun hblock' => by rw [hblock] at hblock'; cases hblock'⟩
    | _ => cases hconditional

/-- What is shown as an expression is a phrase, once the semicolon of a branch is taken off. -/
theorem phrase_of_expressed (h : s.Finishes root settings qualified) {parent : Option Expr}
    (hexpressed : e.Expressed parent) : ∀ {path : List Expr} {text : String}, path.head? = parent →
    root.Reaches path e → s.memo.lookup (e.place path) = some text →
    Phrase (unterminated text) ∧ ((e.isBlock = true → Position.under e parent = .value) → Portable text) := by
  have hwhole : ∀ {text : String} {P : Prop}, Portable text →
      Phrase (unterminated text) ∧ (P → Portable text) := by
    intro text P ht
    rw [ht.unterminated_eq]
    exact ⟨ht.toPhrase, fun _ => ht⟩
  induction hexpressed with
  | braced hblock hvalue =>
    rintro path text rfl he htext
    exact hwhole (h.portable_braced he htext hblock hvalue)
  | @branch parent e hconditional hblock hsingle hstatement ih =>
    intro path text hparent he htext
    have hunder := Expr.under_conditional hconditional e
    rw [← hparent] at hunder ⊢
    rcases hunder with hvalue | hposition
    · exact hwhole (h.portable_braced he htext hblock hvalue)
    · obtain ⟨known, -, hwrites⟩ := h.records.writes he hblock htext
      refine ⟨?_, fun hvalue => ?_⟩
      · have hreturns : e.returnsValue path.head? = false := e.returnsValue_of_statement hposition
        rcases hwrites.text_of_isSingle hblock hsingle (by simp [hposition]) with
          ⟨rfl, -⟩ | ⟨c, hshown, htextual⟩
        · decide
        · have hc : c ∈ e.shown := hshown ▸ List.mem_cons_self
          rw [hreturns, if_neg Bool.false_ne_true] at htextual
          subst htextual
          obtain ⟨hreaches, hgiven⟩ := h.exists_text he htext hc
          obtain ⟨-, hportable⟩ := ih c hc rfl hreaches hgiven
          have hplain : c.isBlock = false := (hstatement c hc).isBlock_eq_false hblock
          have hphrase : Phrase (strippedAt (e :: path) c (s.textAt (e :: path) c)) :=
            phrase_stripped (hportable (by simp [hplain]))
          rw [hphrase.unterminated_terminated]
          exact hphrase
      · rw [hposition] at hvalue
        cases hvalue hblock
  | @inline parent e hinline _ ih =>
    rintro path text rfl he htext
    refine hwhole (h.portable_inline he htext hinline fun c hc => ?_)
    obtain ⟨hreaches, hgiven⟩ := h.exists_text he htext (Expr.mem_shown_of_mem_exposed hc)
    exact ih c hc rfl hreaches hgiven

end Session.Finishes

end ExprText
