import ExprText.Proofs.Composed.Calls
import ExprText.Proofs.Names.Rendering
import ExprText.Proofs.Text.Opening

/-! # Starts of rendered texts

A node that is not put in parentheses starts with a letter or a mark of its own, with its own parentheses, with
the sign of a number, or with the text of the node that it reads from or changes. Where the names of a tree are
words without signs, there is nothing else. -/

namespace ExprText

open Text Render RenderM Session

/-! ### Signs -/

/-- The sign of a floating-point literal. -/
def floatSign? (format : Decimal.Format) (bits : Nat) : Option Char :=
  match format.decode bits with
  | .finite true _ _ _ => some '-'
  | _ => none

/-- The sign that a literal starts with. -/
def Constant.sign? : Constant → Option Char
  | .int value => if value.toInt < 0 then some '-' else none
  | .long value => if value.toInt < 0 then some '-' else none
  | .float bits => floatSign? Decimal.binary32 bits.toNat
  | .double bits => floatSign? Decimal.binary64 bits.toNat
  | .decimal digits => digits.toList.head?.filter signs.contains
  | _ => none

namespace Expr

/-- The sign that a node starts with by itself. -/
def sign? : Expr → Option Char
  | .constant _ value _ => value.sign?
  | _ => none

/-- The sign that is written right behind the operand of a node. -/
def trailingSign? : Expr → Option Char
  | .unary _ .postIncrementAssign _ _ => some '+'
  | .unary _ .postDecrementAssign _ _ => some '-'
  | _ => none

def isDecimal : Expr → Bool
  | .constant _ (.decimal _) _ => true
  | _ => false

/-- The node that a member, an index or a call is read from. -/
def readFrom? : Expr → Option Expr
  | e@(.member ..) => e.shown.head?
  | .index _ subject _ _ => some subject
  | .invoke _ target _ _ => some target
  | .call _ subject method args =>
    if isConcatenation subject method then none
    else if isIndexer method then subject
    else (receiverNodes subject method args).head?
  | _ => none

/-- The node whose text a node starts with: what it reads from, or the operand before its operator. -/
def front? : Expr → Option Expr
  | .unary _ op operand _ =>
    match op with
    | .postIncrementAssign | .postDecrementAssign | .arrayLength => some operand
    | _ => none
  | e => e.readFrom?

/-- Whether the names of a node are words. The digits of a decimal may have a sign. -/
def Worded (e : Expr) : Prop :=
  ∀ w ∈ e.spellings, IsName w ∧ (e.isDecimal = true ∨ Free signs w)

instance (e : Expr) : Decidable e.Worded :=
  inferInstanceAs (Decidable (∀ w ∈ e.spellings, IsName w ∧ (e.isDecimal = true ∨ Free signs w)))

section Fronts
variable {e d : Expr}

theorem front?_of_readFrom? (h : e.readFrom? = some d) : e.front? = some d := by
  cases e with
  | unary => cases h
  | _ => exact h

theorem mem_shown_of_front? (h : e.front? = some d) : d ∈ e.shown := by
  cases e with
  | unary i op operand ty =>
    have hoperand : operand = d := by cases op <;> first | exact Option.some.inj h | cases h
    subst hoperand
    exact List.mem_cons_self
  | member => exact List.mem_of_mem_head? h
  | index | invoke =>
    cases h
    exact List.mem_cons_self
  | call i subject method args =>
    simp only [front?, readFrom?] at h
    split at h
    · cases h
    · next hconcat =>
      split at h
      · next hindexer =>
        rw [shown, callNodes, if_neg hconcat, if_pos hindexer]
        exact List.mem_append_left _ (Option.mem_toList.mpr h)
      · next hindexer =>
        exact mem_callNodes_of_mem_receiverNodes (by simpa using hconcat) (by simpa using hindexer)
          (List.mem_of_mem_head? h)
  | _ => cases h

/-- What a text starts with is a value. -/
theorem under_of_front? (h : e.front? = some d) : Position.under d (some e) = .value := by
  cases e with
  | unary | member | index | invoke | call => rfl
  | _ => cases h

theorem sign?_of_front? (h : e.front? = some d) : e.sign? = none := by
  cases e with
  | constant => cases h
  | _ => rfl

theorem needsGrouping_of_front? (h : e.front? = some d) : needsGrouping e = false := by
  cases e with
  | unary i op operand ty => cases op <;> first | rfl | cases h
  | member | index | invoke | call => rfl
  | _ => cases h

end Fronts

end Expr

/-- How the text of a node starts that is not put in parentheses. -/
inductive Session.Opens (s : Session) (path : List Expr) (e : Expr) : String → Prop
  | plain {text : String} (front : e.front? = none) (unsigned : e.sign? = none) (start : StartsPlain text) :
    s.Opens path e text
  | signed {text : String} {c : Char} (front : e.front? = none) (sign : e.sign? = some c) (mem : c ∈ signs)
    (start : text.toList.head? = some c) : s.Opens path e text
  | grouped {inner : String} (front : e.front? = none) (unsigned : e.sign? = none) (balanced : Balanced inner) :
    s.Opens path e ("(" ++ inner ++ ")")
  | after {d : Expr} {rest : String} (front : e.front? = some d) (continues : Continues rest) (rest_ne : rest ≠ "")
    (trailing : ∀ c ∈ '(' :: signs, rest.toList.head? = some c ↔ e.trailingSign? = some c) :
    s.Opens path e (s.receiverAt (e :: path) d ++ rest)

/-- A node with a front starts with the text of it. -/
theorem Session.Opens.exists_after {s : Session} {path : List Expr} {e d : Expr} {text : String}
    (h : s.Opens path e text) (hfront : e.front? = some d) :
    ∃ rest, Continues rest ∧ rest ≠ "" ∧
      (∀ c ∈ '(' :: signs, rest.toList.head? = some c ↔ e.trailingSign? = some c) ∧
      text = s.receiverAt (e :: path) d ++ rest := by
  cases h with
  | plain hnone | signed hnone | grouped hnone =>
    rw [hnone] at hfront
    cases hfront
  | after hsome hcontinues hne htrailing =>
    obtain rfl := Option.some.inj (hsome.symm.trans hfront)
    exact ⟨_, hcontinues, hne, htrailing, rfl⟩

/-! ### Literals -/

/-- What a text has to be free of to start plainly. -/
theorem free_opening {w : String} (hname : Free phraseMarks w) (hsigns : Free signs w) :
    Free ('(' :: signs) w := by
  intro c hc hmem
  rcases List.mem_cons.mp hmem with rfl | hmem
  · exact hname _ hc (by decide)
  · exact hsigns c hc hmem

theorem startsPlain_name {w : String} (h : IsName w) (hsigns : Free signs w) (rest : String) :
    StartsPlain (w ++ rest) :=
  (startsPlain_of_free h.1 (free_opening h.2 hsigns)).append rest

theorem symbols_opening : Symbols ('(' :: signs) := by decide

/-- A number starts with its sign, if it has one. -/
theorem starts_int (n : Int) (suffix : String) :
    (n < 0 → (toString n ++ suffix).toList.head? = some '-') ∧
      (¬n < 0 → StartsPlain (toString n ++ suffix)) := by
  have hdigits : ∀ m : Nat, (toString m : String) ≠ "" := by
    intro m
    rw [Nat.toString_eq_repr, Ne, ← String.toList_eq_nil_iff, Nat.toList_repr]
    exact Nat.toDigits_ne_nil
  cases n with
  | ofNat m =>
    refine ⟨fun h => absurd h (by simp), fun _ => ?_⟩
    exact (startsPlain_of_free (hdigits m) (symbols_opening.free_nat m)).append suffix
  | negSucc m =>
    refine ⟨fun _ => ?_, fun h => absurd (Int.negSucc_lt_zero m) h⟩
    have hsign : toString (Int.negSucc m) = "-" ++ toString (m + 1) := rfl
    rw [hsign]
    simp

theorem starts_float (format : Decimal.Format) {keyword : String} (hkeyword : keyword ≠ "")
    (hplain : keyword.toList.all Char.isAlphanum = true) (suffix : String) (bits : Nat) :
    (∀ c, floatSign? format bits = some c →
      c = '-' ∧ (floatText format keyword suffix bits).toList.head? = some '-') ∧
    (floatSign? format bits = none → StartsPlain (floatText format keyword suffix bits)) := by
  have hword : ∀ rest, StartsPlain (keyword ++ rest) :=
    fun rest => (startsPlain_of_free hkeyword (symbols_opening.free hplain)).append rest
  unfold floatSign? floatText
  cases format.decode bits with
  | nan => exact ⟨fun c hc => (by cases hc), fun _ => hword _⟩
  | infinite negative => cases negative <;> exact ⟨fun c hc => (by cases hc), fun _ => hword _⟩
  | finite negative significand exponent atBinade =>
    obtain ⟨magnitude, hne, hfree, heq⟩ := exists_magnitude negative significand exponent atBinade
    dsimp only
    rw [heq]
    cases negative with
    | true =>
      refine ⟨fun c hc => ?_, fun hnone => (by cases hnone)⟩
      cases hc
      exact ⟨rfl, by simp⟩
    | false =>
      refine ⟨fun c hc => (by cases hc), fun _ => ?_⟩
      have hdigits := startsPlain_of_free hne (hfree _ symbols_opening (by decide))
      simpa using hdigits.append suffix

/-! ### Finished renderings -/

/-- What is known at the end of a rendering of a tree that is spelled with words. -/
structure Session.WellWorded (root : Expr) (settings : Settings) (qualified : Bool) (s : Session) : Prop
    extends s.Finishes root settings qualified where
  worded : ∀ e ∈ root.nodes, e.Worded
  given : ∀ path e, root.Reaches path e → s.memo.lookup (e.place path) = some (s.textAt path e)
  starting : s.names.Gave StartsPlain

theorem Expr.isDecimal_of_mem_requests {e : Expr} {r : NameRequest} (h : r ∈ e.requests) :
    e.isDecimal = false := by
  cases e with
  | constant i value ty => cases value <;> first | rfl | cases h
  | _ => rfl

/-- What is no decimal is spelled with words alone. -/
theorem Expr.Worded.names {e : Expr} (h : e.Worded) (hdecimal : e.isDecimal = false) :
    ∀ w ∈ e.spellings, IsName w ∧ Free signs w := by
  intro w hw
  obtain ⟨hname, hsigns⟩ := h w hw
  refine ⟨hname, hsigns.resolve_left ?_⟩
  rw [hdecimal]
  exact Bool.false_ne_true

/-- The names from which an answer is made are words. -/
theorem Expr.Worded.request {e : Expr} (h : e.Worded) {r : NameRequest} (hr : r ∈ e.requests) :
    ∀ w ∈ r.spellings, IsName w ∧ Free signs w := by
  intro w hw
  exact h.names (isDecimal_of_mem_requests hr) w (List.mem_append_right _ (List.mem_flatMap.mpr ⟨r, hr, hw⟩))

/-- A table answers questions about words by names that start plainly: a number comes behind its base. -/
theorem NameTable.Gave.answer_startsPlain {t : NameTable} (h : t.Gave StartsPlain) {r : NameRequest}
    (hr : ∀ w ∈ r.spellings, IsName w ∧ Free signs w) :
    StartsPlain (t.answer r).1 ∧ (t.answer r).2.Gave StartsPlain := by
  have hopening : ∀ w ∈ r.spellings, Free ('(' :: signs) w := fun w hw => free_opening (hr w hw).1.2 (hr w hw).2
  have hbase : StartsPlain r.base :=
    startsPlain_of_free (r.base_ne_empty fun w hw => (hr w hw).1.1) (r.free_base symbols_opening hopening)
  refine h.answer ?_ fun name hname => ?_
  · rcases (NameTable.freeName_cases t.taken r.base).2 with heq | ⟨n, heq⟩
    · rw [heq]
      exact hbase
    · rw [heq]
      exact hbase.append _
  · have hw := NameRequest.mem_spellings_of_explicit? hname
    exact startsPlain_of_free (hr name hw).1.1 (hopening name hw)

theorem wellWorded_textOf {root : Expr} (htree : root.IsTree) (hext : ∀ e ∈ root.nodes, e.kind ≠ .extension)
    (hworded : ∀ e ∈ root.nodes, e.Worded) {settings : Settings} {qualified : Bool} {text : String} {s : Session}
    (hrun : (RenderM.textOf root).runOn { settings, qualified } (.start root) = (.ok text, s)) :
    s.WellWorded root settings qualified := by
  have hfinishes := finishes_textOf htree hext (fun e he w hw => (hworded e he w hw).1) hrun
  have hgiven : ∀ path e, root.Reaches path e → s.memo.lookup (e.place path) = some (s.textAt path e) := by
    intro path e he
    obtain ⟨given, hgiven⟩ := exists_remembered htree hext (by simp) hrun he
    rw [textAt, hgiven, Option.getD_some]
  have hstarting : ((RenderM.textOf root).runOn { settings, qualified } (.start root)).2.names.Gave StartsPlain := by
    refine gave_textOf hext (by simp) fun t r hasked ht => ?_
    obtain ⟨e, he, hr⟩ := hasked
    exact (ht.answer_startsPlain ((hworded e he).request hr)).2
  rw [hrun] at hstarting
  exact ⟨hfinishes, hworded, hgiven, hstarting⟩

namespace Session.WellWorded
variable {root e : Expr} {settings : Settings} {qualified : Bool} {s : Session} {path : List Expr}

/-- A name that a rendering asks for starts plainly. -/
theorem startsPlain_answer (h : s.WellWorded root settings qualified) (he : root.Reaches path e)
    {r : NameRequest} (hr : r ∈ e.requests) : StartsPlain (s.names.answer r).1 :=
  (h.starting.answer_startsPlain ((h.worded e he.mem_nodes).request hr)).1

theorem composes (h : s.WellWorded root settings qualified) (he : root.Reaches path e) :
    ∃ known, s.Composes { settings, qualified } path known e (s.textAt path e) :=
  h.composed path e _ he (h.given path e he)

theorem balanced_textAt (h : s.WellWorded root settings qualified) (he : root.Reaches path e) :
    Balanced (s.textAt path e) :=
  h.balanced _ _ (h.given path e he)

end Session.WellWorded

/-- The type before a member of it starts plainly, and so does the member on its own. -/
theorem startsPlain_display {ty : Ty} (h : ∀ w ∈ ty.spellings, IsName w ∧ Free signs w) (qualified : Bool)
    {w : String} (hw : w ∈ [".", "\n"]) (rest : String) :
    StartsPlain (ty.display qualified ++ (w ++ rest)) := by
  have hfree : Free ('(' :: signs) (ty.display qualified) :=
    Ty.free_display (by decide +kernel) qualified ty fun w hw => free_opening (h w hw).1.2 (h w hw).2
  have hmarks : ∀ w ∈ [".", "\n"], w ≠ "" ∧ Free ('(' :: signs) w := by decide
  obtain ⟨hne, hmark⟩ := hmarks w hw
  have hwhole : StartsPlain (ty.display qualified ++ w) :=
    startsPlain_of_free (append_ne_empty (.inr hne)) (hfree.append hmark)
  rw [← String.append_assoc]
  exact hwhole.append rest

/-! ### Nodes without a front -/

section Nodes
variable {root : Expr} {settings : Settings} {qualified : Bool} {s : Session} {path : List Expr} {i : Nat}
  {ty : Ty}

/-- A literal starts with its sign, or plainly if it has none. -/
theorem Session.WellWorded.opens_constant {value : Constant} (h : s.WellWorded root settings qualified)
    (he : root.Reaches path (.constant i value ty)) :
    s.Opens path (.constant i value ty) (s.textAt path (.constant i value ty)) := by
  obtain ⟨known, hcomposes⟩ := h.composes he
  obtain ⟨u, v, hpath, hnames, hrun⟩ := hcomposes.exists_run
  have hworded := h.worded _ he.mem_nodes
  generalize htext : s.textAt path (.constant i value ty) = text at hrun
  have plain : ∀ c, text.toList.head? = some c → c ∉ '(' :: signs → value.sign? = none →
      s.Opens path (.constant i value ty) text :=
    fun c hhead hc hsign => .plain rfl hsign ⟨c, hhead, hc⟩
  have number : ∀ n : Int, ∀ suffix, text = toString n ++ suffix →
      value.sign? = (if n < 0 then some '-' else none) → s.Opens path (.constant i value ty) text := by
    rintro n suffix rfl hsign
    obtain ⟨hminus, hplain⟩ := starts_int n suffix
    split at hsign
    · next hneg => exact .signed rfl hsign (by decide) (hminus hneg)
    · next hpos => exact .plain rfl hsign (hplain hpos)
  have float : ∀ format keyword suffix bits, keyword ≠ "" → keyword.toList.all Char.isAlphanum = true →
      text = floatText format keyword suffix bits → value.sign? = floatSign? format bits →
      s.Opens path (.constant i value ty) text := by
    rintro format keyword suffix bits hne hletters rfl hsign
    obtain ⟨hminus, hplain⟩ := starts_float format hne hletters suffix bits
    cases hfloat : floatSign? format bits with
    | none => exact .plain rfl (hsign.trans hfloat) (hplain hfloat)
    | some c =>
      obtain ⟨rfl, hhead⟩ := hminus c hfloat
      exact .signed rfl (hsign.trans hfloat) (by decide) hhead
  cases value with
  | null =>
    cases hrun
    exact plain 'n' rfl (by decide) rfl
  | bool value =>
    cases hrun
    cases value
    · exact plain 'f' rfl (by decide) rfl
    · exact plain 't' rfl (by decide) rfl
  | int value =>
    cases hrun
    exact number value.toInt "" String.append_empty.symm rfl
  | long value =>
    cases hrun
    exact number value.toInt "L" rfl rfl
  | float bits =>
    cases hrun
    exact float _ "float" "f" _ (by decide) (by decide) rfl rfl
  | double bits =>
    cases hrun
    exact float _ "double" "d" _ (by decide) (by decide) rfl rfl
  | decimal digits =>
    cases hrun
    obtain ⟨hname, -⟩ := hworded digits List.mem_cons_self
    have hhead := head?_append hname.1 "m"
    cases hdigits : digits.toList with
    | nil => exact absurd (String.toList_eq_nil_iff.mp hdigits) hname.1
    | cons c cs =>
      rw [hdigits, List.head?_cons] at hhead
      have hparen : c ≠ '(' := by
        rintro rfl
        exact hname.2 '(' (by simp [hdigits]) (by decide)
      by_cases hsign : c ∈ signs
      · exact .signed rfl (by simp [Expr.sign?, Constant.sign?, hdigits, hsign]) hsign hhead
      · exact .plain rfl (by simp [Expr.sign?, Constant.sign?, hdigits, hsign])
          ⟨c, hhead, by simp [hparen, hsign]⟩
  | char value =>
    cases hrun
    exact plain '\x27' (by simp [quoted]) (by decide) rfl
  | string value =>
    cases hrun
    exact plain '"' (by simp [quoted]) (by decide) rfl
  | type ty =>
    cases hrun
    exact plain 't' (by simp) (by decide) rfl
  | enum ty member =>
    cases hrun
    refine .plain rfl rfl ?_
    rw [String.append_assoc]
    refine startsPlain_display (fun w hw => ?_) qualified (by decide) member
    exact hworded.names rfl w (List.mem_append_left _ (List.mem_cons_of_mem _ hw))
  | captured object =>
    obtain rfl := eq_of_runOn_ask hrun
    rw [hnames]
    exact .plain rfl rfl (h.startsPlain_answer he List.mem_cons_self)

theorem balanced_sideText (op : BinaryOp) (side : BinaryOp.Side) (c : Expr) {text : String} (h : Balanced text) :
    Balanced (sideText op side c text) := by
  unfold sideText
  split
  · split
    · exact h
    · exact h.withoutParens
  · split
    · exact balanced_withParens h
    · exact h

theorem groupedText_eq (c : Expr) {text : String} (h : Balanced text) :
    groupedText c text = if needsGrouping c then withParens text else text := by
  unfold groupedText
  split
  · split
    · exact h.withParens_withParens
    · rfl
  · rfl

theorem Session.WellWorded.opens_binary {op : BinaryOp} {left right : Expr}
    (h : s.WellWorded root settings qualified) (he : root.Reaches path (.binary i op left right ty)) :
    s.Opens path (.binary i op left right ty) (s.textAt path (.binary i op left right ty)) := by
  obtain ⟨known, hcomposes⟩ := h.composes he
  have hl := h.balanced_textAt (.step he List.mem_cons_self)
  have hr := h.balanced_textAt (.step he (List.mem_cons_of_mem _ List.mem_cons_self))
  rw [hcomposes.binary_eq_wrapped]
  split
  · exact .plain rfl rfl ⟨'c', checkedText_head _ _, by decide⟩
  · obtain ⟨hsymbol, -⟩ := unbroken_symbol op
    have hinner := ((balanced_sideText op .left left hl).append hsymbol.balanced).append
      (balanced_sideText op .right right hr)
    have heq : binaryText op left right (s.textAt (.binary i op left right ty :: path) left)
        (s.textAt (.binary i op left right ty :: path) right) = "(" ++
          (sideText op .left left (s.textAt (.binary i op left right ty :: path) left) ++
            (" " ++ op.symbol ++ " ") ++
            sideText op .right right (s.textAt (.binary i op left right ty :: path) right)) ++ ")" := by
      simp only [binaryText, String.append_assoc]
    rw [id, heq]
    exact .grouped rfl rfl hinner

/-- An operator behind its operand starts with the operand; a conversion by `as` has parentheses. -/
theorem Session.WellWorded.opens_unary {op : UnaryOp} {operand : Expr}
    (h : s.WellWorded root settings qualified) (he : root.Reaches path (.unary i op operand ty))
    (hgroup : needsGrouping (.unary i op operand ty) = false) :
    s.Opens path (.unary i op operand ty) (s.textAt path (.unary i op operand ty)) := by
  obtain ⟨known, hcomposes⟩ := h.composes he
  have hoperand := h.balanced_textAt (.step he List.mem_cons_self)
  have hpostfix : op.isPostfix = true := by simpa [needsGrouping] using hgroup
  have hplain : carriesChecked path.head? (.unary i op operand ty) = false := by
    cases op <;> first | rfl | cases hpostfix
  rw [hcomposes.unary_eq_wrapped, hplain, if_neg Bool.false_ne_true, id, groupedText_eq _ hoperand]
  have after : ∀ rest : String, (Expr.unary i op operand ty).front? = some operand → Continues rest → rest ≠ "" →
      (∀ c ∈ '(' :: signs, rest.toList.head? = some c ↔ (Expr.unary i op operand ty).trailingSign? = some c) →
      s.Opens path (.unary i op operand ty) (s.receiverAt (.unary i op operand ty :: path) operand ++ rest) :=
    fun rest => .after
  cases op with
  | postIncrementAssign => exact after "++" rfl (.inr ⟨"++", by decide, by decide⟩) (by decide) fun _ _ => Iff.rfl
  | postDecrementAssign => exact after "--" rfl (.inr ⟨"--", by decide, by decide⟩) (by decide) fun _ _ => Iff.rfl
  | arrayLength =>
    have hdot : StartsPlain ".Length" := ⟨'.', rfl, by decide⟩
    exact after ".Length" rfl (.inr ⟨".", by decide, by decide⟩) hdot.ne_empty
      fun c hc => iff_of_false (hdot.head?_ne hc) (by simp [Expr.trailingSign?])
  | typeAs =>
    have hty := phrase_display (fun w hw => h.spelled _ he.mem_nodes w (List.mem_append_left _ hw)) qualified
    have hword : Balanced " as " := by decide
    have hgiven : Balanced (s.receiverAt (.unary i .typeAs operand ty :: path) operand) :=
      balanced_receiverAt hoperand
    have hinner := (hgiven.append hword).append hty.balanced
    have heq : unaryText { settings, qualified } .typeAs operand.ty ty
        (s.receiverAt (.unary i .typeAs operand ty :: path) operand) = "(" ++
          (s.receiverAt (.unary i .typeAs operand ty :: path) operand ++ " as " ++ ty.display qualified) ++ ")" := by
      simp only [unaryText, String.append_assoc]
    exact heq ▸ .grouped rfl rfl hinner
  | _ => cases hpostfix

/-! ### Nodes that read from others -/

/-- What a node writes behind the node that it reads from. -/
theorem Session.Opens.reads {e d : Expr} (hfront : e.readFrom? = some d) {w : String}
    (hw : w ∈ [".", "[", "\n"]) (rest : String) :
    s.Opens path e (s.receiverAt (e :: path) d ++ (w ++ rest)) := by
  have hmem : w ∈ continuations := by
    revert w
    decide
  have hplain : StartsPlain w := by
    simp only [List.mem_cons, List.not_mem_nil, or_false] at hw
    rcases hw with rfl | rfl | rfl
    · exact ⟨'.', rfl, by decide⟩
    · exact ⟨'[', rfl, by decide⟩
    · exact ⟨'\n', rfl, by decide⟩
  have htrailing : e.trailingSign? = none := by
    cases e with
    | unary => cases hfront
    | _ => rfl
  refine .after (Expr.front?_of_readFrom? hfront) (.of_mem hmem rest) (hplain.append rest).ne_empty fun c hc => ?_
  rw [htrailing]
  exact iff_of_false ((hplain.append rest).head?_ne hc) (by simp)

theorem argumentList_brackets (settings : Settings) (texts : List String) (after : String) :
    ∃ rest, settings.argumentList "[" "]" texts ++ after = "[" ++ rest := by
  obtain ⟨rest, hrest⟩ := argumentList_eq_append settings "[" "]" texts
  exact ⟨rest ++ after, by rw [hrest, String.append_assoc]⟩

theorem Session.WellWorded.opens_member {subject : Option Expr} {target : Member}
    (h : s.WellWorded root settings qualified) (he : root.Reaches path (.member i subject target)) :
    s.Opens path (.member i subject target) (s.textAt path (.member i subject target)) := by
  obtain ⟨known, hcomposes⟩ := h.composes he
  obtain ⟨u, v, -, hnames, hrun⟩ := hcomposes.exists_run
  have hworded := h.worded _ he.mem_nodes
  generalize s.textAt path (.member i subject target) = text at hrun
  change (member (s.recall (.member i subject target :: path)) (.member i subject target)).runOn
    { settings, qualified } u = (.ok text, v) at hrun
  have hstatic : ∀ rest, target.isStatic = true ∨ subject = none →
      s.Opens path (.member i subject target) (target.declaringType.display qualified ++ ("." ++ rest)) := by
    intro rest hnone
    refine .plain ?_ rfl (startsPlain_display (fun w hw => ?_) qualified (by decide) rest)
    · rcases hnone with hnone | rfl <;> simp [Expr.front?, Expr.readFrom?, Expr.shown, *]
    · exact hworded.names rfl w (List.mem_append_left _ (List.mem_cons_of_mem _ hw))
  unfold member at hrun
  dsimp only at hrun
  split at hrun
  · next subject hinstance =>
    split at hrun
    · next object hobject =>
      obtain rfl := eq_of_runOn_ask hrun
      rw [hnames]
      refine .plain ?_ rfl (h.startsPlain_answer he ?_)
      · simp [Expr.front?, Expr.readFrom?, Expr.shown, hinstance, Option.filter, Expr.isCaptured, hobject]
      · simp [Expr.requests, hobject]
    · next hcaptured =>
      rw [runOn_bind_ok runOn_receiverText_recall] at hrun
      obtain rfl := eq_of_runOn_pure hrun
      rw [String.append_assoc]
      refine .reads ?_ (by decide) target.name
      simp [Expr.readFrom?, Expr.shown, hinstance, Option.filter, Expr.isCaptured, hcaptured]
  · next hother =>
    rw [runOn_bind_ok (runOn_typeName _)] at hrun
    obtain rfl := eq_of_runOn_pure hrun
    rw [String.append_assoc]
    refine hstatic target.name ?_
    by_cases hkind : target.isStatic = true
    · exact .inl hkind
    · refine .inr (Option.eq_none_iff_forall_ne_some.mpr fun object hobject => ?_)
      exact hother object hobject (Bool.eq_false_iff.mpr hkind)

theorem Session.WellWorded.opens_index {subject : Expr} {indices : List Expr}
    (h : s.WellWorded root settings qualified) (he : root.Reaches path (.index i subject indices ty)) :
    s.Opens path (.index i subject indices ty) (s.textAt path (.index i subject indices ty)) := by
  obtain ⟨known, hcomposes⟩ := h.composes he
  obtain ⟨u, v, -, -, hrun⟩ := hcomposes.exists_run
  generalize s.textAt path (.index i subject indices ty) = text at hrun
  have hrun : (index (s.recall (.index i subject indices ty :: path)) (.index i subject indices ty)).runOn
    { settings, qualified } u = (.ok text, v) := hrun
  unfold index at hrun
  dsimp only at hrun
  split at hrun
  · cases hrun
  · rw [runOn_bind_ok runOn_receiverText_recall] at hrun
    obtain ⟨texts, w, -, hlist⟩ := exists_of_runOn_bind hrun
    rw [runOn_bind_ok (runOn_argumentList ..)] at hlist
    obtain rfl := eq_of_runOn_pure hlist
    obtain ⟨rest, hrest⟩ := argumentList_eq_append settings "[" "]" texts
    rw [hrest]
    exact .reads rfl (by decide) rest

theorem Session.WellWorded.opens_invoke {target : Expr} {args : List Expr}
    (h : s.WellWorded root settings qualified) (he : root.Reaches path (.invoke i target args ty)) :
    s.Opens path (.invoke i target args ty) (s.textAt path (.invoke i target args ty)) := by
  obtain ⟨known, hcomposes⟩ := h.composes he
  obtain ⟨u, v, -, -, hrun⟩ := hcomposes.exists_run
  obtain ⟨texts, -, heq⟩ := exists_invoke_eq (fun c hc => h.balanced_textAt (.step he hc)) hrun
  have hword : ".Invoke" = "." ++ "Invoke" := rfl
  rw [heq, String.append_assoc, hword, String.append_assoc]
  exact .reads rfl (by decide) _

section Calls
variable {subject : Option Expr} {method : Method} {args : List Expr}

theorem Session.WellWorded.opens_concatenation (h : s.WellWorded root settings qualified)
    (he : root.Reaches path (.call i subject method args)) (hconcat : isConcatenation subject method = true) :
    s.Opens path (.call i subject method args) (s.textAt path (.call i subject method args)) := by
  obtain ⟨known, hcomposes⟩ := h.composes he
  have hbalanced : ∀ d ∈ (concatenated args).map concatenand,
      Balanced (s.textAt (.call i subject method args :: path) d) := by
    intro d hd
    refine h.balanced_textAt (.step he ?_)
    rwa [Expr.shown, callNodes, if_pos hconcat]
  rw [hcomposes.concatenation_eq hconcat]
  exact .grouped (by simp [Expr.front?, Expr.readFrom?, hconcat]) rfl (s.balanced_concatenatedAt hbalanced)

theorem Session.WellWorded.opens_indexer (h : s.WellWorded root settings qualified)
    (he : root.Reaches path (.call i subject method args)) (hconcat : isConcatenation subject method = false)
    (hindexer : isIndexer method = true) :
    s.Opens path (.call i subject method args) (s.textAt path (.call i subject method args)) := by
  obtain ⟨known, hcomposes⟩ := h.composes he
  obtain ⟨u, v, -, -, hrun⟩ := hcomposes.exists_run
  change (call (s.recall (.call i subject method args :: path)) (.call i subject method args)).runOn
    { settings, qualified } u = (.ok (s.textAt path (.call i subject method args)), v) at hrun
  have hbalanced : ∀ c ∈ subject.toList ++ args, Balanced (s.textAt (.call i subject method args :: path) c) := by
    intro c hc
    refine h.balanced_textAt (.step he ?_)
    rwa [Expr.shown, callNodes, hconcat, if_neg Bool.false_ne_true, if_pos hindexer]
  simp only [call, hconcat, hindexer, Bool.false_eq_true, if_false, if_true] at hrun
  obtain ⟨receiver, hreceiver, texts, -, hcases⟩ := exists_indexer_eq hbalanced hrun
  have hfront : (Expr.call i subject method args).readFrom? = some receiver := by
    simpa [Expr.readFrom?, hconcat, hindexer] using hreceiver
  rcases hcases with ⟨-, heq⟩ | ⟨-, value, -, heq⟩
  · obtain ⟨rest, hrest⟩ := argumentList_eq_append settings "[" "]" texts
    rw [heq, hrest]
    exact .reads hfront (by decide) rest
  · rw [heq, String.append_assoc, String.append_assoc]
    obtain ⟨rest, hrest⟩ := argumentList_brackets settings texts
      (" = " ++ u.stripped value (s.textAt (.call i subject method args :: path) value))
    rw [hrest]
    exact .reads hfront (by decide) rest

/-- The dot before a call, on the same line or on the next one. -/
theorem exists_dot (indent : String) (broken : Bool) :
    ∃ w ∈ [".", "\n"], ∃ rest, (if broken then "\n" ++ indent ++ "." else ".") = w ++ rest := by
  cases broken with
  | true => exact ⟨"\n", by decide, _, String.append_assoc ..⟩
  | false => exact ⟨".", by decide, "", String.append_empty.symm⟩

/-- A call without what it is written after starts with its name. -/
theorem Session.WellWorded.opens_methodCall (h : s.WellWorded root settings qualified)
    (he : root.Reaches path (.call i subject method args)) (hconcat : isConcatenation subject method = false)
    (hindexer : isIndexer method = false) :
    s.Opens path (.call i subject method args) (s.textAt path (.call i subject method args)) := by
  obtain ⟨known, hcomposes⟩ := h.composes he
  have hown : ∀ w ∈ method.spellings, IsName w ∧ Free signs w :=
    fun w hw => (h.worded _ he.mem_nodes).names rfl w (List.mem_append_left _ hw)
  have hmethod : (Expr.call i subject method args).isMethodCall = true := by
    simp [Expr.isMethodCall, hconcat, hindexer]
  have hcall : StartsPlain (s.callAt { settings, qualified } path (.call i subject method args)) := by
    obtain ⟨hname, hsigns⟩ := hown method.name List.mem_cons_self
    rw [Session.callAt, String.append_assoc]
    exact startsPlain_name hname hsigns _
  obtain ⟨w, hw, rest, hdot⟩ := exists_dot ({ settings, qualified } : Env).indent
    ((Expr.call i subject method args).isBroken path)
  rw [hcomposes.methodCall_eq hmethod, hdot]
  by_cases hstatic : method.kind = .static
  · rw [Session.leadAt, if_pos hstatic, Option.map_some, Option.getD_some, String.append_assoc,
      String.append_assoc]
    refine .plain ?_ rfl (startsPlain_display (fun w hw => ?_) qualified hw _)
    · simp [Expr.front?, Expr.readFrom?, hconcat, hindexer, receiverNodes, hstatic]
    · exact hown w (List.mem_cons_of_mem _ (List.mem_append_left _ hw))
  · rw [Session.leadAt, if_neg hstatic]
    cases hfront : (receiverNodes subject method args).head? with
    | none =>
      rw [Option.map_none, Option.map_none, Option.getD_none, String.empty_append]
      exact .plain (by simp [Expr.front?, Expr.readFrom?, hconcat, hindexer, hfront]) rfl hcall
    | some d =>
      rw [Option.map_some, Option.map_some, Option.getD_some, String.append_assoc, String.append_assoc]
      refine .reads ?_ ?_ _
      · simp [Expr.readFrom?, hconcat, hindexer, hfront]
      · rcases List.mem_pair.mp hw with rfl | rfl <;> decide

theorem Session.WellWorded.opens_call (h : s.WellWorded root settings qualified)
    (he : root.Reaches path (.call i subject method args)) :
    s.Opens path (.call i subject method args) (s.textAt path (.call i subject method args)) := by
  cases hconcat : isConcatenation subject method with
  | true => exact h.opens_concatenation he hconcat
  | false =>
    cases hindexer : isIndexer method with
    | true => exact h.opens_indexer he hconcat hindexer
    | false => exact h.opens_methodCall he hconcat hindexer

end Calls

/-! ### Nodes with a word before them -/

/-- A jump starts with its keyword. -/
theorem opens_jump {e : Expr} (hkind : e.kind = .break ∨ e.kind = .continue ∨ e.kind = .return) {u v : Session}
    {text : String} (hrun : (loop (s.recall (e :: path)) e).runOn { settings, qualified } u = (.ok text, v)) :
    s.Opens path e text := by
  cases e with
  | «break» =>
    obtain rfl := eq_of_runOn_jump hrun
    exact .plain rfl rfl ⟨'b', rfl, by decide⟩
  | «continue» =>
    obtain rfl := eq_of_runOn_jump hrun
    exact .plain rfl rfl ⟨'c', rfl, by decide⟩
  | «return» j target value =>
    cases value with
    | none =>
      obtain rfl := eq_of_runOn_pure hrun
      exact .plain rfl rfl ⟨'r', rfl, by decide⟩
    | some value =>
      rw [loop, runOn_bind_ok runOn_recall] at hrun
      obtain rfl := eq_of_runOn_pure hrun
      exact .plain rfl rfl ⟨'r', by simp, by decide⟩
  | _ => simp [Expr.kind] at hkind

theorem opens_new {e : Expr} (hkind : e.kind = .new ∨ e.kind = .newArray) {u v : Session} {text : String}
    (hrun : (new (s.recall (e :: path)) e).runOn { settings, qualified } u = (.ok text, v)) :
    s.Opens path e text := by
  have hhead : text.toList.head? = some 'n' := by
    cases e with
    | new i ty constructor args =>
      rw [new] at hrun
      obtain ⟨list, w, -, hthen⟩ := exists_of_runOn_bind hrun
      rw [runOn_bind_ok (runOn_typeName ty)] at hthen
      obtain rfl := eq_of_runOn_pure hthen
      simp
    | newArray i element items =>
      unfold new at hrun
      dsimp only at hrun
      split at hrun
      · rw [runOn_bind_ok (runOn_typeName element)] at hrun
        obtain rfl := eq_of_runOn_pure hrun
        simp
      · split at hrun
        · rw [runOn_bind_ok (runOn_pure _)] at hrun
          obtain ⟨texts, w, -, hthen⟩ := exists_of_runOn_bind hrun
          rw [runOn_bind_ok runOn_read] at hthen
          obtain rfl := eq_of_runOn_pure hthen
          exact arrayText_head (by simp) texts
        · rw [runOn_bind_ok (runOn_typeName element), runOn_bind_ok (runOn_pure _)] at hrun
          obtain ⟨texts, w, -, hthen⟩ := exists_of_runOn_bind hrun
          rw [runOn_bind_ok runOn_read] at hthen
          obtain rfl := eq_of_runOn_pure hthen
          exact arrayText_head (by simp) texts
    | _ => simp [Expr.kind] at hkind
  have hfront : e.front? = none ∧ e.sign? = none := by
    cases e with
    | new | newArray => exact ⟨rfl, rfl⟩
    | _ => simp [Expr.kind] at hkind
  exact .plain hfront.1 hfront.2 ⟨'n', hhead, by decide⟩

/-- A block that is a value stands in braces. -/
theorem Session.WellWorded.opens_block {e : Expr} (h : s.WellWorded root settings qualified)
    (he : root.Reaches path e) (hblock : e.isBlock = true) (hvalue : Position.under e path.head? = .value) :
    s.Opens path e (s.textAt path e) := by
  obtain ⟨known, -, hwrites⟩ := h.records.writes he hblock (h.given path e he)
  have hfront : e.front? = none ∧ e.sign? = none := by
    cases e with
    | block => exact ⟨rfl, rfl⟩
    | _ => cases hblock
  have hhead : (s.textAt path e).toList.head? = some '\x7b' := by
    rw [hwrites.text, Plan.write_eq, hvalue, Position.enclose]
    split
    · rfl
    · simp [Body.braces]
  exact .plain hfront.1 hfront.2 ⟨'\x7b', hhead, by decide⟩

/-- A node that is a value and needs no parentheses before a dot opens in one of four ways, unless it shows
    nothing. -/
theorem Session.WellWorded.opens {e : Expr} (h : s.WellWorded root settings qualified) (he : root.Reaches path e)
    (hvalue : Position.under e path.head? = .value) (hgroup : needsGrouping e = false)
    (hempty : e.isEmpty = false) : s.Opens path e (s.textAt path e) := by
  obtain ⟨known, hcomposes⟩ := h.composes he
  obtain ⟨u, v, -, hnames, hrun⟩ := hcomposes.exists_run
  cases e with
  | constant => exact h.opens_constant he
  | «variable» =>
    rw [eq_of_runOn_ask hrun, hnames]
    exact .plain rfl rfl (h.startsPlain_answer he List.mem_cons_self)
  | binary => exact h.opens_binary he
  | unary => exact h.opens_unary he hgroup
  | call => exact h.opens_call he
  | invoke => exact h.opens_invoke he
  | new i ty constructor args => exact opens_new (e := .new i ty constructor args) (.inl rfl) hrun
  | newArray i element items => exact opens_new (e := .newArray i element items) (.inr rfl) hrun
  | member => exact h.opens_member he
  | index => exact h.opens_index he
  | block => exact h.opens_block he rfl hvalue
  | loop =>
    obtain ⟨rest, hrest⟩ := hcomposes.prefix_loop rfl
    exact .plain rfl rfl ⟨'w', by simp [← hrest], by decide⟩
  | «break» i target => exact opens_jump (e := .break i target) (.inl rfl) hrun
  | «continue» i target => exact opens_jump (e := .continue i target) (.inr (.inl rfl)) hrun
  | «return» i target value => exact opens_jump (e := .return i target value) (.inr (.inr rfl)) hrun
  | default i ty =>
    have hshown : ty.isVoid = false := hempty
    change (Render.default (.default i ty)).runOn { settings, qualified } u = (.ok _, v) at hrun
    rw [Render.default, hshown, if_neg Bool.false_ne_true, runOn_bind_ok (runOn_typeName ty)] at hrun
    rw [eq_of_runOn_pure hrun]
    exact .plain rfl rfl ⟨'d', by simp, by decide⟩
  | assign | conditional | lambda => cases hgroup
  | extension => exact absurd rfl (h.plain _ he.mem_nodes)

/-- A node that reads from another one starts with it, also as a statement. -/
theorem Session.WellWorded.opens_of_readFrom? {e d : Expr} (h : s.WellWorded root settings qualified)
    (he : root.Reaches path e) (hfront : e.readFrom? = some d) : s.Opens path e (s.textAt path e) := by
  cases e with
  | call => exact h.opens_call he
  | invoke => exact h.opens_invoke he
  | member => exact h.opens_member he
  | index => exact h.opens_index he
  | _ => cases hfront

/-- The empty expression shows nothing. -/
theorem Session.WellWorded.textAt_of_isEmpty {e : Expr} (h : s.WellWorded root settings qualified)
    (he : root.Reaches path e) (hempty : e.isEmpty = true) : s.textAt path e = "" := by
  obtain ⟨known, hcomposes⟩ := h.composes he
  obtain ⟨u, v, -, -, hrun⟩ := hcomposes.exists_run
  cases e with
  | default i ty =>
    have hvoid : ty.isVoid = true := hempty
    change (Render.default (.default i ty)).runOn { settings, qualified } u = (.ok _, v) at hrun
    rw [Render.default, hvoid, if_pos rfl] at hrun
    exact eq_of_runOn_pure hrun
  | _ => cases hempty

end Nodes

end ExprText
