import ExprText.Proofs.Parallel.Run
import ExprText.Proofs.Text.Nesting

/-! # The brackets of rendered texts

Where no name of a graph has a bracket or a quote, all texts of its nodes are balanced, whatever its
literals hold. So what a node puts in parentheses is a group, and the nodes above it find the pair when
they take the parentheses off. -/

namespace ExprText

open Text Render

/-! ### Layouts -/

theorem balanced_lines {texts : List String} (h : ∀ t ∈ texts, Balanced t) (n : Nat) :
    Balanced (join ",\n" (texts.map (indented (blanks n)))) := by
  refine Balanced.join (by decide) fun t ht => ?_
  obtain ⟨u, hu, rfl⟩ := List.mem_map.mp ht
  exact (h u hu).indented n

theorem balanced_argumentList {s : Settings} {opening closing : String}
    (hopen : (opening.toList.foldl Nesting.step {}).scan.quote = none)
    (hlines : ((opening ++ "\n").toList.foldl Nesting.step {}).scan.quote = none)
    (hboth : Balanced (opening ++ closing)) (hapart : Balanced (opening ++ "\n" ++ closing))
    {texts : List String} (h : ∀ t ∈ texts, Balanced t) : Balanced (s.argumentList opening closing texts) := by
  have hone : Balanced (join ", " texts) := Balanced.join (by decide) h
  have hmany : Balanced (join ",\n" (texts.map (indented s.indent))) := balanced_lines h _
  unfold Settings.argumentList
  dsimp only
  split
  · exact hone.within hopen hboth
  · exact hmany.within hlines hapart

theorem balanced_braces {text : String} (h : Balanced text) : Balanced (Body.braces text) :=
  h.within (by decide) (by decide)

theorem balanced_arrayText {s : Settings} {array : String} (harray : Balanced array) {items : List String}
    (h : ∀ t ∈ items, Balanced t) : Balanced (arrayText s array items) := by
  have hone : Balanced (join ", " items) := Balanced.join (by decide) h
  have hmany : Balanced (join ",\n" (items.map (indented s.indent))) := balanced_lines h _
  unfold arrayText
  dsimp only
  split
  · have hitems : Balanced (" \x7b " ++ join ", " items ++ " \x7d") := hone.within (by decide) (by decide)
    simpa [String.append_assoc] using harray.append hitems
  · have hbreak : Balanced "\n" := by decide
    exact (harray.append hbreak).append (balanced_braces hmany)

theorem balanced_checkedText {text : String} (h : Balanced text) (n : Nat) :
    Balanced (checkedText (blanks n) text) := by
  unfold checkedText
  dsimp only
  split
  · have hword : Balanced "checked\n" := by decide
    exact hword.append (balanced_braces (h.withoutParens.indented n))
  · exact h.withoutParens.within (by decide) (by decide)

theorem forall_balanced {xs ys : List String}
    (h : List.Forall₂ (fun a b => a = b ∧ Balanced a) xs ys) : xs = ys ∧ ∀ t ∈ xs, Balanced t := by
  induction h with
  | nil => exact ⟨rfl, fun t ht => by cases ht⟩
  | cons hx _ ih =>
    obtain ⟨rfl, hx⟩ := hx
    obtain ⟨rfl, hxs⟩ := ih
    exact ⟨rfl, List.forall_mem_cons.mpr ⟨hx, hxs⟩⟩

/-- A rendering beside itself, all texts of which are balanced. -/
def Comparison.balanced (settings : Settings) (qualified : Bool) : Comparison where
  left := { settings, qualified }
  right := { settings, qualified }
  qualified
  marks := nestingMarks
  Beside a b := a = b ∧ Balanced a
  Head := Balanced
  left_standard := registry_standard settings qualified
  right_standard := registry_standard settings qualified
  left_names := typeName_display settings qualified
  right_names := typeName_display settings qualified
  generics := explicitGenerics_env settings qualified
  punctuation := by decide
  free h := ⟨rfl, balanced_of_free h⟩
  fixed := by
    have hall : ∀ w ∈ vocabulary, Balanced w := by decide +kernel
    exact fun w hw => ⟨rfl, hall w hw⟩
  literal hquote cs := ⟨rfl, balanced_quoted hquote cs⟩
  head h := ⟨rfl, h⟩
  headed := by decide +kernel
  rank n := by
    have hcommas : Balanced (String.ofList (List.replicate (n - 1) ',')) := by
      refine balanced_of_free (free_ofList.mpr fun c hc => ?_)
      rw [List.eq_of_mem_replicate hc]
      decide
    exact hcommas.within (by decide) (by decide)
  append_head ha hw := ha.2.append hw
  append := by
    rintro a _ c _ ⟨rfl, ha⟩ ⟨rfl, hc⟩
    exact ⟨rfl, ha.append hc⟩
  parens := by
    rintro a _ ⟨rfl, ha⟩
    exact ⟨rfl, ha.parens⟩
  braces := by
    rintro a _ ⟨rfl, ha⟩
    exact ⟨rfl, balanced_braces (ha.indented _)⟩
  newline := by
    refine ⟨rfl, balanced_of_free ?_⟩
    have hbreak : Free nestingMarks "\n" := by decide
    refine hbreak.append (free_ofList.mpr fun c hc => ?_)
    rw [List.eq_of_mem_replicate hc]
    decide
  arguments := by
    intro w xs ys hw h
    obtain ⟨rfl, hxs⟩ := forall_balanced h
    exact ⟨rfl, hw.append (balanced_argumentList (by decide) (by decide) (by decide) (by decide) hxs)⟩
  indices := by
    intro xs ys h
    obtain ⟨rfl, hxs⟩ := forall_balanced h
    exact ⟨rfl, balanced_argumentList (by decide) (by decide) (by decide) (by decide) hxs⟩
  array := by
    intro w xs ys hw h
    obtain ⟨rfl, hxs⟩ := forall_balanced h
    exact ⟨rfl, balanced_arrayText hw.2 hxs⟩
  isEmpty h := by rw [h.1]
  isGroup h := by rw [h.1]
  isTerminated h := by rw [h.1]
  withoutParens := by
    rintro a _ ⟨rfl, ha⟩
    exact ⟨rfl, ha.withoutParens⟩
  unterminated := by
    rintro a _ ⟨rfl, ha⟩
    exact ⟨rfl, ha.unterminated⟩
  gap := .inl fun _ _ h => h.1
  checked := by
    rintro - a _ ⟨rfl, ha⟩
    exact ⟨rfl, balanced_checkedText ha _⟩

/-! ### Renderings -/

/-- In a graph whose names have neither brackets nor quotes, all texts are balanced: that of the graph
    and those of the nodes that were shown, also where the graph could not be shown as a whole. The text
    of a binary operation that carries no wrapper and that of a conversion by `as` are groups. -/
theorem rendered_texts_balanced (root : Expr) (hext : ∀ e ∈ root.nodes, e.kind ≠ .extension)
    (hspelled : ∀ e ∈ root.nodes, ∀ w ∈ e.spellings, Free nestingMarks w) (settings : Settings)
    (qualified : Bool) (result : Except Fault String) (s : Session)
    (hrun : (RenderM.textOf root).runOn { settings, qualified } (.start root) = (result, s)) :
    (∀ text, result = .ok text → Balanced text) ∧
    (∀ key text, s.memo.lookup key = some text → Balanced text) ∧
    (root.NodesCoherent → ∀ path e text, root.Reaches path e →
      s.memo.lookup (e.place path) = some text →
      (∀ op, e.kind = .binary op → carriesChecked path.head? e = false → isGroup text = true) ∧
      (e.kind = .unary .typeAs → isGroup text = true)) := by
  have hexact : (Comparison.balanced settings qualified).Exact := fun _ _ h => h.1
  have hsuits : (Comparison.balanced settings qualified).Suits root :=
    ⟨hext, fun e he w hw => ⟨hspelled e he w hw, balanced_of_free (hspelled e he w hw)⟩, .inl hexact⟩
  have hboth : (Comparison.balanced settings qualified).Sessions root []
      ((RenderM.textOf root).runOn { settings, qualified } (.start root)).2
      ((RenderM.textOf root).runOn { settings, qualified } (.start root)).2 ∧
      Comparison.Ends (fun a b => a = b ∧ Balanced a)
        ((RenderM.textOf root).runOn { settings, qualified } (.start root)).1
        ((RenderM.textOf root).runOn { settings, qualified } (.start root)).1 := Parallel.textOf hsuits
  rw [hrun] at hboth
  obtain ⟨hsessions, hends⟩ := hboth
  refine ⟨?_, ?_, ?_⟩
  · rintro text rfl
    exact hends.2
  · intro key text hkey
    have hmemo := hsessions.memo key
    rw [hkey] at hmemo
    cases hmemo with
    | some h => exact h.2
  · intro hcoherent path e text he htext
    obtain ⟨p, e', b, he', hplace, hbeside, hgroup⟩ := hsessions.origin _ text htext
    obtain ⟨rfl, hhead⟩ := Expr.eq_of_place_eq hcoherent he' he hplace
    rw [hhead] at hgroup
    have hisGroup : e'.Grouped path.head? → isGroup text = true := by
      intro h
      obtain ⟨x, y, hx, rfl⟩ := hgroup h
      exact hx.2.isGroup
    refine ⟨fun op hkind hcarries => hisGroup ?_, fun hkind => hisGroup ?_⟩
    · cases e' <;> cases hkind
      exact hcarries
    · cases e' <;> cases hkind
      rfl

section Literals

private def name : Variable := ⟨0, some "name", .object⟩

private def greeting : Variable := ⟨1, some "greeting", .string⟩

/-- A sum of a literal that looks like the end of a call and of a converted variable. -/
private def sum : Expr :=
  .binary 3 .add (.constant 4 (.string "\"), (") .string) (.unary 5 .typeAs (.variable 6 name) .string) .string

private def statement : Expr :=
  .assign 2 .assign (.variable 7 greeting) sum

private def welcome : Expr :=
  .lambda 0 [name] (.block 1 [greeting] [statement, .variable 8 greeting] .string)
    (.delegate [.object] .string)

/-- The brackets and quotes of the literal do not count. -/
theorem rendered_texts_balanced_literal :
    (∀ e ∈ welcome.nodes, e.kind ≠ .extension) ∧
    (∀ e ∈ welcome.nodes, ∀ w ∈ e.spellings, Free nestingMarks w) ∧ welcome.NodesCoherent ∧
    ∃ result s, (RenderM.textOf welcome).runOn {} (.start welcome) = (result, s) ∧
      (∃ text, result = .ok text ∧ Balanced text) ∧
      ∃ text, s.memo.lookup (sum.place [statement]) = some text ∧ isGroup text = true := by
  have hext : ∀ e ∈ welcome.nodes, e.kind ≠ .extension := by decide +kernel
  have hspelled : ∀ e ∈ welcome.nodes, ∀ w ∈ e.spellings, Free nestingMarks w := by decide +kernel
  have hcoherent : welcome.NodesCoherent := .of_nodeAt rfl
  have hreach : ∃ path, welcome.Reaches (statement :: path) sum :=
    ⟨_, .step (.step (.step .root List.mem_cons_self) List.mem_cons_self)
      (List.mem_cons_of_mem _ List.mem_cons_self)⟩
  have hok : ((RenderM.textOf welcome).runOn {} (.start welcome)).1.toOption.isSome = true := by
    decide +kernel
  have hmemo : (((RenderM.textOf welcome).runOn {} (.start welcome)).2.memo.lookup
      (sum.place [statement])).isSome = true := by
    decide +kernel
  rcases hrun : (RenderM.textOf welcome).runOn {} (.start welcome) with ⟨result, s⟩
  rw [hrun] at hok hmemo
  obtain ⟨hresult, -, hgroups⟩ := rendered_texts_balanced welcome hext hspelled {} false result s hrun
  refine ⟨hext, hspelled, hcoherent, result, s, rfl, ?_, ?_⟩
  · cases result with
    | error fault => cases hok
    | ok text => exact ⟨text, rfl, hresult text rfl⟩
  · obtain ⟨text, htext⟩ := Option.isSome_iff_exists.mp hmemo
    obtain ⟨path, hpath⟩ := hreach
    exact ⟨text, htext, (hgroups hcoherent _ _ text hpath htext).1 .add rfl rfl⟩

end Literals

end ExprText
