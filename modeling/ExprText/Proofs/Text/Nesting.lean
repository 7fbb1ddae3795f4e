import ExprText.Proofs.Group
import ExprText.Proofs.Names.Spelling
import ExprText.Proofs.Text.Lines
import ExprText.Proofs.Text.Scan
import ExprText.Text.Statement

/-! # Nested brackets

A text is balanced if its round, square and curly brackets are properly nested and all its literals are
closed. The brackets in literals do not count; where a literal ends is decided as it is for groups. All
ways to put balanced texts together make balanced texts, and so do those that take parentheses and
semicolons off them. -/

namespace ExprText.Text

/-- Where a reader of brackets stands: the place of its scan, and the closing brackets that are due, the
    innermost first. Nothing is due any more once a bracket was closed that was not open. -/
@[ext]
structure Nesting where
  scan : Scan := {}
  due : Option (List Char) := some []
deriving DecidableEq, Repr

namespace Nesting

/-- What is due after a character outside of literals. -/
def bracket (c : Char) (due : List Char) : Option (List Char) :=
  if c = '(' then some (')' :: due)
  else if c = '[' then some (']' :: due)
  else if c = '\x7b' then some ('\x7d' :: due)
  else if c = ')' ∨ c = ']' ∨ c = '\x7d' then
    if due.head? = some c then some due.tail else none
  else some due

def step (n : Nesting) (c : Char) : Nesting where
  scan := n.scan.step c
  due := if n.scan.quote = none then n.due.bind (bracket c) else n.due

end Nesting

/-- Whether the brackets of a text are properly nested and none of its literals is left open. -/
def Balanced (text : String) : Prop :=
  (text.toList.foldl Nesting.step {}).due = some [] ∧
    (text.toList.foldl Nesting.step {}).scan.quote = none

instance (text : String) : Decidable (Balanced text) :=
  inferInstanceAs (Decidable ((text.toList.foldl Nesting.step {}).due = some [] ∧
    (text.toList.foldl Nesting.step {}).scan.quote = none))

namespace Nesting

/-! ### Steps -/

/-- What holds wherever a reader comes to. -/
structure Sound (n : Nesting) : Prop where
  depth : ∀ due, n.due = some due → n.scan.depth = due.count ')'
  fair : n.scan.Fair

theorem sound_start : Sound {} where
  depth due h := by
    cases h
    rfl
  fair := Scan.fair_start

/-- The same place inside of further brackets. -/
def inside (n : Nesting) (depth : Nat) (due : List Char) : Nesting where
  scan := { n.scan with depth := n.scan.depth + depth }
  due := n.due.map (· ++ due)

theorem due_step_quoted {n : Nesting} {q : Char} (h : n.scan.quote = some q) (c : Char) :
    (n.step c).due = n.due := by
  simp [step, h]

theorem due_step_plain {n : Nesting} (h : n.scan.quote = none) (c : Char) :
    (n.step c).due = n.due.bind (bracket c) := by
  simp [step, h]

theorem bracket_eq_some {c : Char} {due due' : List Char} (h : bracket c due = some due') :
    (c = '(' ∧ due' = ')' :: due) ∨ (c = ')' ∧ due = ')' :: due') ∨
      (c ≠ '(' ∧ c ≠ ')' ∧ due'.count ')' = due.count ')') := by
  unfold bracket at h
  split at h
  · next hc =>
    cases h
    exact .inl ⟨hc, rfl⟩
  · next hopen =>
    split at h
    · next hc =>
      cases h
      subst hc
      exact .inr (.inr ⟨by decide, by decide, by simp⟩)
    · split at h
      · next hc =>
        cases h
        subst hc
        exact .inr (.inr ⟨by decide, by decide, by simp⟩)
      · split at h
        · split at h
          · next hhead =>
            cases h
            obtain ⟨rest, rfl⟩ := List.head?_eq_some_iff.mp hhead
            by_cases hc : c = ')'
            · subst hc
              exact .inr (.inl ⟨rfl, rfl⟩)
            · exact .inr (.inr ⟨hopen, hc, by simp [hc]⟩)
          · cases h
        · next hclose =>
          cases h
          refine .inr (.inr ⟨hopen, ?_, rfl⟩)
          rintro rfl
          exact hclose (.inl rfl)

theorem Sound.step {n : Nesting} (h : n.Sound) (c : Char) : (n.step c).Sound where
  depth due hdue := by
    cases hquote : n.scan.quote with
    | some q =>
      rw [due_step_quoted hquote] at hdue
      exact (Scan.step_quoted hquote c).1.trans (h.depth due hdue)
    | none =>
      rw [due_step_plain hquote] at hdue
      obtain ⟨before, hbefore, hbracket⟩ := Option.bind_eq_some_iff.mp hdue
      obtain ⟨-, -, hdepth⟩ := Scan.step_plain hquote c
      rw [h.depth before hbefore] at hdepth
      refine hdepth.trans ?_
      rcases bracket_eq_some hbracket with ⟨rfl, rfl⟩ | ⟨rfl, rfl⟩ | ⟨hopen, hclose, heq⟩
      · simp
      · simp
      · rw [if_neg hopen, if_neg hclose, heq]
  fair := h.fair.step c

theorem Sound.foldl {n : Nesting} (h : n.Sound) (cs : List Char) : (cs.foldl Nesting.step n).Sound := by
  induction cs generalizing n with
  | nil => exact h
  | cons c cs ih => exact ih (h.step c)

/-! ### Inside of further brackets -/

theorem due_isSome {n : Nesting} {c : Char} (h : (n.step c).due ≠ none) : n.due ≠ none := by
  intro hnone
  apply h
  simp only [step, hnone]
  split <;> rfl

theorem foldl_due_isSome : ∀ (cs : List Char) {n : Nesting}, (cs.foldl step n).due ≠ none → n.due ≠ none
  | [], _, h => h
  | _ :: cs, _, h => due_isSome (foldl_due_isSome cs h)

theorem bracket_append {c : Char} {due due' : List Char} (h : bracket c due = some due')
    (outer : List Char) : bracket c (due ++ outer) = some (due' ++ outer) := by
  unfold bracket at h ⊢
  split
  · rw [if_pos ‹_›] at h
    cases h
    rfl
  · rw [if_neg ‹_›] at h
    split
    · rw [if_pos ‹_›] at h
      cases h
      rfl
    · rw [if_neg ‹_›] at h
      split
      · rw [if_pos ‹_›] at h
        cases h
        rfl
      · rw [if_neg ‹_›] at h
        split
        · rw [if_pos ‹_›] at h
          split at h
          · next hhead =>
            cases h
            obtain ⟨rest, rfl⟩ := List.head?_eq_some_iff.mp hhead
            simp
          · cases h
        · rw [if_neg ‹_›] at h
          cases h
          rfl

theorem scan_step_inside {s : Scan} {c : Char} (depth : Nat)
    (h : s.quote = none → c = ')' → s.depth ≠ 0) :
    Scan.step { s with depth := s.depth + depth } c = { s.step c with depth := (s.step c).depth + depth } := by
  obtain ⟨own, quote, escaped⟩ := s
  cases quote with
  | some q =>
    simp only [Scan.step]
    split
    · rfl
    · split
      · rfl
      · split <;> rfl
  | none =>
    simp only [Scan.step]
    split
    · rfl
    · split
      · simp only [Scan.mk.injEq, and_true]
        omega
      · split
        · next hclose =>
          have hown : own ≠ 0 := h rfl hclose
          simp only [Scan.mk.injEq, and_true]
          omega
        · rfl

/-- A bracket that closes nothing closes nothing inside of further brackets either, unless it closes
    these. -/
theorem bracket_append_eq_none {c : Char} {due : List Char} (h : bracket c due = none) (outer : List Char) :
    (due = [] ∧ outer.head? = some c) ∨ bracket c (due ++ outer) = none := by
  unfold bracket at h ⊢
  split at h
  · cases h
  · split at h
    · cases h
    · split at h
      · cases h
      · split at h
        · split at h
          · cases h
          · next hopen hsquare hcurly hclose hhead =>
            simp only [if_neg hopen, if_neg hsquare, if_neg hcurly, if_pos hclose]
            cases due with
            | nil =>
              by_cases houter : outer.head? = some c
              · exact .inl ⟨rfl, houter⟩
              · exact .inr (if_neg houter)
            | cons d due => exact .inr (if_neg hhead)
        · cases h

/-- The brackets around a reader do not matter to it until it closes them. -/
theorem step_inside {n : Nesting} (hn : n.Sound) {c : Char} (h : (n.step c).due ≠ none) (depth : Nat)
    (due : List Char) : (n.inside depth due).step c = (n.step c).inside depth due := by
  have hopen : n.scan.quote = none → ∃ before after, n.due = some before ∧ bracket c before = some after := by
    intro hquote
    rw [due_step_plain hquote] at h
    obtain ⟨after, hafter⟩ := Option.ne_none_iff_exists'.mp h
    obtain ⟨before, hbefore, hbracket⟩ := Option.bind_eq_some_iff.mp hafter
    exact ⟨before, after, hbefore, hbracket⟩
  have hdepth : n.scan.quote = none → c = ')' → n.scan.depth ≠ 0 := by
    intro hquote hc
    obtain ⟨before, after, hbefore, hbracket⟩ := hopen hquote
    rw [hn.depth before hbefore]
    rcases bracket_eq_some hbracket with ⟨hopen, -⟩ | ⟨-, rfl⟩ | ⟨-, hclose, -⟩
    · rw [hc] at hopen
      cases hopen
    · simp
    · exact absurd hc hclose
  have hscan := scan_step_inside depth hdepth
  have hdue : (if n.scan.quote = none then (n.due.map (· ++ due)).bind (bracket c) else n.due.map (· ++ due)) =
      (if n.scan.quote = none then n.due.bind (bracket c) else n.due).map (· ++ due) := by
    split
    · next hquote =>
      obtain ⟨before, after, hbefore, hbracket⟩ := hopen hquote
      rw [hbefore]
      simp only [Option.map_some, Option.bind_some, hbracket, bracket_append hbracket due]
    · rfl
  rw [step, step, inside, inside, hscan, hdue]

theorem foldl_inside {cs : List Char} (depth : Nat) (due : List Char) : ∀ {n : Nesting}, n.Sound →
    (cs.foldl step n).due ≠ none → cs.foldl step (n.inside depth due) = (cs.foldl step n).inside depth due := by
  induction cs with
  | nil => exact fun _ _ => rfl
  | cons c cs ih =>
    intro n hn h
    rw [List.foldl_cons, List.foldl_cons, step_inside hn (foldl_due_isSome cs h)]
    exact ih (hn.step c) h

theorem Sound.eq_start {n : Nesting} (hn : n.Sound) (hdue : n.due = some []) (hquote : n.scan.quote = none) :
    n = {} := by
  have hdepth := hn.depth [] hdue
  have hescaped := hn.fair.escaped hquote
  obtain ⟨⟨depth, quote, escaped⟩, due⟩ := n
  cases hdue
  cases hquote
  cases hdepth
  cases hescaped
  rfl

/-- A character that delimits no literal ends none. -/
theorem Sound.plain_of_step {n : Nesting} (hn : n.Sound) {c : Char} (hc : c ≠ '"' ∧ c ≠ '\x27')
    (h : (n.step c).scan.quote = none) : n.scan.quote = none := by
  cases hquote : n.scan.quote with
  | none => rfl
  | some q =>
    obtain ⟨-, hq | ⟨-, -, hq⟩⟩ := Scan.step_quoted hquote c
    · exact absurd (hq.symm.trans h) (Option.some_ne_none q)
    · subst hq
      rcases hn.fair.quote c hquote with hc' | hc'
      · exact absurd hc' hc.1
      · exact absurd hc' hc.2

theorem Sound.step_blank {n : Nesting} (hn : n.Sound) : (n.step '\n').step ' ' = n.step '\n' := by
  have hidle : (n.scan.step '\n').step ' ' = n.scan.step '\n' := (hn.fair.step_idle (by decide)).1
  have hdue : ((n.step '\n').step ' ').due = (n.step '\n').due := by
    rw [Nesting.step]
    dsimp only
    split
    · cases (n.step '\n').due <;> rfl
    · rfl
  exact Nesting.ext hidle hdue

end Nesting

/-! ### Balanced texts -/

open Nesting

/-- A reader comes out of a balanced text as it went in. -/
theorem Balanced.foldl_start {text : String} (h : Balanced text) : text.toList.foldl step {} = {} :=
  (sound_start.foldl text.toList).eq_start h.1 h.2

theorem balanced_of_foldl {text : String} (h : text.toList.foldl step {} = {}) : Balanced text := by
  rw [Balanced, h]
  exact ⟨rfl, rfl⟩

theorem Balanced.foldl {text : String} (h : Balanced text) (depth : Nat) (due : List Char) :
    text.toList.foldl step ⟨⟨depth, none, false⟩, some due⟩ = ⟨⟨depth, none, false⟩, some due⟩ := by
  have hstart := h.foldl_start
  have hsome : (text.toList.foldl step {}).due ≠ none := by
    rw [hstart]
    exact Option.some_ne_none _
  have hinside := foldl_inside depth due sound_start hsome
  rw [hstart] at hinside
  simpa [inside] using hinside

theorem Balanced.append {a b : String} (ha : Balanced a) (hb : Balanced b) : Balanced (a ++ b) := by
  apply balanced_of_foldl
  rw [String.toList_append, List.foldl_append, ha.foldl_start, hb.foldl_start]

/-- A balanced text fits wherever a balanced text is cut outside of its literals. -/
theorem Balanced.within {opening text closing : String} (h : Balanced text)
    (hopen : (opening.toList.foldl step {}).scan.quote = none) (hboth : Balanced (opening ++ closing)) :
    Balanced (opening ++ text ++ closing) := by
  have hend := hboth.foldl_start
  rw [String.toList_append, List.foldl_append] at hend
  have hsome : (opening.toList.foldl step {}).due ≠ none := by
    refine foldl_due_isSome closing.toList ?_
    rw [hend]
    exact Option.some_ne_none _
  have hescaped := (sound_start.foldl opening.toList).fair.escaped hopen
  apply balanced_of_foldl
  rw [String.toList_append, String.toList_append, List.foldl_append, List.foldl_append]
  rcases hn : opening.toList.foldl step {} with ⟨⟨depth, quote, escaped⟩, due⟩
  rw [hn] at hopen hend hsome hescaped
  obtain ⟨due, rfl⟩ := Option.ne_none_iff_exists'.mp hsome
  cases hopen
  cases hescaped
  rw [h.foldl, hend]

theorem Balanced.parens {text : String} (h : Balanced text) : Balanced ("(" ++ text ++ ")") :=
  h.within (by decide) (by decide)

theorem Balanced.join {sep : String} (hsep : Balanced sep) : ∀ {texts : List String},
    (∀ t ∈ texts, Balanced t) → Balanced (join sep texts)
  | [], _ => balanced_of_foldl rfl
  | [t], h => h t List.mem_cons_self
  | t :: u :: rest, h => by
    obtain ⟨ht, hrest⟩ := List.forall_mem_cons.mp h
    exact (ht.append hsep).append (Balanced.join hsep hrest)

theorem Balanced.indented {text : String} (h : Balanced text) (n : Nat) :
    Balanced (indented (blanks n) text) := by
  have hread := read_indented (fun (n : { n : Nesting // n.Sound }) cs => cs.foldl step n.1)
    (fun n c => ⟨n.1.step c, n.2.step c⟩) (fun _ _ _ _ h => h)
    (fun n cs => congrArg (cs.foldl step) n.2.step_blank) n text (s := ⟨{}, sound_start⟩)
    (fun _ => rfl)
  apply balanced_of_foldl
  rw [hread, h.foldl_start]

/-! ### Names and literals -/

def nestingMarks : List Char :=
  ['(', ')', '[', ']', '\x7b', '\x7d', '\x27', '"']

theorem balanced_of_free {text : String} (h : Free nestingMarks text) : Balanced text := by
  have hstep : ∀ c, c ∉ nestingMarks → ({} : Nesting).step c = {} := by
    intro c hc
    simp only [nestingMarks, List.mem_cons, List.not_mem_nil, or_false, not_or] at hc
    simp [step, Scan.step, bracket, hc]
  have hfold : ∀ cs : List Char, (∀ c ∈ cs, c ∉ nestingMarks) → cs.foldl step {} = {} := by
    intro cs hcs
    induction cs with
    | nil => rfl
    | cons c cs ih =>
      obtain ⟨hc, hcs⟩ := List.forall_mem_cons.mp hcs
      rw [List.foldl_cons, hstep c hc, ih hcs]
  exact balanced_of_foldl (hfold _ h)

theorem foldl_escapeChar {quote : Char} (hquote : quote = '"' ∨ quote = '\x27') (c : Char) :
    (escapeChar quote c).foldl step ⟨⟨0, some quote, false⟩, some []⟩ = ⟨⟨0, some quote, false⟩, some []⟩ := by
  have hpair : ∀ d, ['\\', d].foldl step ⟨⟨0, some quote, false⟩, some []⟩ = ⟨⟨0, some quote, false⟩, some []⟩ := by
    intro d
    rcases hquote with rfl | rfl <;> rfl
  rcases escapeChar_cases hquote c with ⟨heq, hslash, hc, -⟩ | ⟨d, heq, -, -⟩
  · rw [heq]
    simp [step, Scan.step, hslash, hc]
  · rw [heq]
    exact hpair d

theorem balanced_quoted {quote : Char} (hquote : quote = '"' ∨ quote = '\x27') (cs : List Char) :
    Balanced (quoted quote cs) := by
  have hinner : ∀ cs : List Char, (escape quote cs).foldl step ⟨⟨0, some quote, false⟩, some []⟩ =
      ⟨⟨0, some quote, false⟩, some []⟩ := by
    intro cs
    induction cs with
    | nil => rfl
    | cons c cs ih =>
      rw [escape, List.flatMap_cons, List.foldl_append, foldl_escapeChar hquote]
      exact ih
  have hopen : ({} : Nesting).step quote = ⟨⟨0, some quote, false⟩, some []⟩ := by
    rcases hquote with rfl | rfl <;> rfl
  have hclose : (⟨⟨0, some quote, false⟩, some []⟩ : Nesting).step quote = {} := by
    rcases hquote with rfl | rfl <;> rfl
  apply balanced_of_foldl
  rw [quoted, String.toList_ofList, List.foldl_cons, List.foldl_append, hopen, hinner, List.foldl_cons,
    List.foldl_nil, hclose]

/-! ### Texts taken apart -/

/-- A semicolon at the end of a balanced text stands outside of its literals. -/
theorem Balanced.unterminated {text : String} (h : Balanced text) : Balanced (unterminated text) := by
  unfold Text.unterminated
  split
  · next hlast =>
    obtain ⟨front, hfront⟩ := List.getLast?_eq_some_iff.mp hlast
    have hsound := sound_start.foldl front
    have hend := h.foldl_start
    rw [hfront, List.foldl_append, List.foldl_cons, List.foldl_nil] at hend
    have hquote : (front.foldl step {}).scan.quote = none :=
      hsound.plain_of_step ⟨by decide, by decide⟩ (congrArg (·.scan.quote) hend)
    have hdue : (front.foldl step {}).due = some [] := by
      have hstep := due_step_plain hquote ';'
      rw [hend] at hstep
      obtain ⟨due, hdue, hbracket⟩ := Option.bind_eq_some_iff.mp hstep.symm
      cases hbracket
      exact hdue
    rw [hfront, List.dropLast_concat, Balanced, String.toList_ofList]
    exact ⟨hdue, hquote⟩
  · exact h

/-- Inside of the parentheses of a group, which nothing closes before its end, a reader stands as if
    they were not there. -/
theorem foldl_of_closesAtEnd : ∀ (cs : List Char) {n : Nesting}, n.Sound → n.due ≠ none →
    (n.inside 1 [')']).scan.closesAtEnd (cs ++ [')']) = true →
    cs.foldl step (n.inside 1 [')']) = ⟨⟨1, none, false⟩, some [')']⟩ → cs.foldl step n = {}
  | [], n, hn, hdue, _, hend => by
    obtain ⟨due, hdue⟩ := Option.ne_none_iff_exists'.mp hdue
    have hquote : (n.inside 1 [')']).scan.quote = none := by rw [List.foldl_nil.symm.trans hend]
    have hafter : (n.inside 1 [')']).due = some [')'] := by rw [List.foldl_nil.symm.trans hend]
    refine hn.eq_start ?_ hquote
    rw [inside, hdue, Option.map_some, Option.some.injEq] at hafter
    rw [hdue, List.append_left_eq_self.mp hafter]
  | c :: cs, n, hn, hdue, hclose, hend => by
    rw [List.cons_append, Scan.closesAtEnd] at hclose
    split at hclose
    · -- The group would end here, before its last character.
      simp at hclose
    · next hinner =>
      have hstep : (n.step c).due ≠ none := by
        intro hnone
        obtain ⟨due, hdue⟩ := Option.ne_none_iff_exists'.mp hdue
        have hquote : n.scan.quote = none := by
          cases hquote : n.scan.quote with
          | none => rfl
          | some q =>
            rw [due_step_quoted hquote, hdue] at hnone
            cases hnone
        rw [due_step_plain hquote, hdue, Option.bind_some] at hnone
        rcases bracket_append_eq_none hnone [')'] with ⟨rfl, hc⟩ | houter
        · cases hc
          have hdepth := hn.depth [] hdue
          refine hinner ⟨hquote, rfl, ?_⟩
          simp [inside, Scan.step, hquote, hdepth]
        · have hafter : ((n.inside 1 [')']).step c).due = none := by
            simp [step, inside, hquote, hdue, houter]
          have hsome : (cs.foldl step ((n.inside 1 [')']).step c)).due ≠ none := by
            rw [← List.foldl_cons, hend]
            exact Option.some_ne_none _
          exact foldl_due_isSome cs hsome hafter
      have hinside := step_inside hn hstep 1 [')']
      have hscan : (n.inside 1 [')']).scan.step c = ((n.step c).inside 1 [')']).scan :=
        congrArg Nesting.scan hinside
      rw [hscan] at hclose
      rw [List.foldl_cons, hinside] at hend
      exact foldl_of_closesAtEnd cs (hn.step c) hstep hclose hend

theorem Balanced.withoutParens {text : String} (h : Balanced text) : Balanced (withoutParens text) := by
  unfold Text.withoutParens
  split
  · next hgroup =>
    obtain ⟨inner, hinner⟩ := eq_cons_of_isGroup hgroup
    have hopen : ({} : Nesting).step '(' = ({} : Nesting).inside 1 [')'] := rfl
    have hsound := (sound_start.step '(').foldl inner
    have hend := h.foldl_start
    rw [hinner, List.foldl_cons, List.foldl_append, List.foldl_cons, List.foldl_nil] at hend
    rw [hinner, List.tail_cons, List.dropLast_concat]
    apply balanced_of_foldl
    rw [String.toList_ofList]
    refine foldl_of_closesAtEnd inner sound_start (Option.some_ne_none _) ?_ ?_
    · simp only [isGroup, Bool.and_eq_true, hinner] at hgroup
      exact hgroup.2
    · rw [← hopen]
      have hquote : (inner.foldl step (({} : Nesting).step '(')).scan.quote = none :=
        hsound.plain_of_step ⟨by decide, by decide⟩ (congrArg (·.scan.quote) hend)
      have hdue : (inner.foldl step (({} : Nesting).step '(')).due = some [')'] := by
        have hstep := due_step_plain hquote ')'
        rw [hend] at hstep
        obtain ⟨due, hdue, hbracket⟩ := Option.bind_eq_some_iff.mp hstep.symm
        rcases bracket_eq_some hbracket with ⟨hc, -⟩ | ⟨-, rfl⟩ | ⟨-, hc, -⟩
        · cases hc
        · exact hdue
        · exact absurd rfl hc
      have hdepth := hsound.depth _ hdue
      have hescaped := hsound.fair.escaped hquote
      rcases hn : inner.foldl step (({} : Nesting).step '(') with ⟨⟨depth, quote, escaped⟩, due⟩
      rw [hn] at hquote hdue hdepth hescaped
      cases hquote
      cases hdue
      cases hdepth
      cases hescaped
      rfl
  · exact h

/-- What a reader passes inside of parentheses does not close them. -/
theorem closesAtEnd_append : ∀ (cs rest : List Char) {n : Nesting}, n.Sound → (cs.foldl step n).due ≠ none →
    (n.inside 1 [')']).scan.closesAtEnd (cs ++ rest) =
      ((cs.foldl step n).inside 1 [')']).scan.closesAtEnd rest
  | [], _, _, _, _ => rfl
  | c :: cs, rest, n, hn, hdue => by
    have hinside := step_inside hn (foldl_due_isSome cs hdue) 1 [')']
    have hscan : (n.inside 1 [')']).scan.step c = ((n.step c).inside 1 [')']).scan :=
      congrArg Nesting.scan hinside
    rw [List.cons_append, Scan.closesAtEnd, if_neg, hscan]
    · exact closesAtEnd_append cs rest (hn.step c) hdue
    · rintro ⟨-, -, hdepth⟩
      rw [hscan] at hdepth
      simp [inside] at hdepth

theorem scan_foldl (cs : List Char) (n : Nesting) : (cs.foldl step n).scan = cs.foldl Scan.step n.scan := by
  induction cs generalizing n with
  | nil => rfl
  | cons c cs ih => exact ih (n.step c)

/-- Where the last of several characters closes all parentheses, those before it leave some open. -/
theorem foldl_depth_ne_zero {rest : List Char} (hrest : rest ≠ []) : ∀ (cs : List Char) {s : Scan}, s.depth ≠ 0 →
    s.closesAtEnd (cs ++ rest) = true → (cs.foldl Scan.step s).depth ≠ 0
  | [], _, hs, _ => hs
  | c :: cs, s, hs, hclose => by
    rw [List.cons_append, Scan.closesAtEnd] at hclose
    split at hclose
    · exact absurd (List.isEmpty_iff.mp hclose) (List.append_ne_nil_of_right_ne_nil cs hrest)
    · next hopen =>
      refine foldl_depth_ne_zero hrest cs ?_ hclose
      cases hquote : s.quote with
      | some q => rwa [(Scan.step_quoted hquote c).1]
      | none =>
        by_cases hc : c = ')'
        · exact fun hdepth => hopen ⟨hquote, hc, hdepth⟩
        · obtain ⟨-, -, hdepth⟩ := Scan.step_plain hquote c
          rw [hdepth, if_neg hc]
          split
          · exact Nat.succ_ne_zero _
          · exact hs

/-- The parenthesis that a balanced text starts with is closed before anything follows. -/
theorem Balanced.not_isGroup_append {a b : String} (ha : Balanced a) (hane : a ≠ "") (hbne : b ≠ "") :
    Text.isGroup (a ++ b) = false := by
  rw [Bool.eq_false_iff]
  intro hgroup
  simp only [Text.isGroup, Bool.and_eq_true, beq_iff_eq, String.toList_append] at hgroup
  obtain ⟨⟨hhead, -⟩, hclose⟩ := hgroup
  have hbs : b.toList ≠ [] := fun hnil => hbne (String.toList_eq_nil_iff.mp hnil)
  have hend := congrArg Nesting.scan ha.foldl_start
  rw [scan_foldl] at hend
  cases hcs : a.toList with
  | nil => exact hane (String.toList_eq_nil_iff.mp hcs)
  | cons c cs =>
    rw [hcs, List.cons_append] at hhead hclose
    obtain rfl := Option.some.inj hhead
    rw [hcs, List.foldl_cons] at hend
    have hopen : ({} : Scan).closesAtEnd ('(' :: (cs ++ b.toList)) =
        (({} : Scan).step '(').closesAtEnd (cs ++ b.toList) := rfl
    rw [hopen] at hclose
    refine foldl_depth_ne_zero hbs cs (s := ({} : Scan).step '(') (by decide) hclose ?_
    rw [hend]

/-- A balanced text in parentheses is a group. -/
theorem Balanced.isGroup {text : String} (h : Balanced text) : isGroup ("(" ++ text ++ ")") = true := by
  have hlist : ("(" ++ text ++ ")").toList = '(' :: (text.toList ++ [')']) := by
    simp [String.toList_append]
  have hlast : ('(' :: (text.toList ++ [')'])).getLast? = some ')' := by
    rw [← List.cons_append, List.getLast?_append]
    rfl
  have hsome : (text.toList.foldl step {}).due ≠ none := by
    rw [h.foldl_start]
    exact Option.some_ne_none _
  have hscan : ({} : Scan).closesAtEnd ('(' :: (text.toList ++ [')'])) = true := by
    have hpassed := closesAtEnd_append text.toList [')'] sound_start hsome
    rw [h.foldl_start] at hpassed
    exact hpassed
  simp [Text.isGroup, hlist, hlast, hscan]

end ExprText.Text
