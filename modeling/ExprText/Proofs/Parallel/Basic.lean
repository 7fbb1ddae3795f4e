import ExprText.Proofs.Names.Spelling
import ExprText.Proofs.Run
import ExprText.Proofs.Shown

/-! # Renderings in parallel

One graph is rendered twice, under settings that lay its text out in two ways. Both renderings perform
the same actions as long as the texts they have made so far lead them to the same decisions. A
comparison says how the texts of the one relate to those of the other, and that all ways to build texts
respect this. It then holds of all texts of the two renderings. Two renderings under the same settings
are one rendering, and a comparison of it with itself is a property of its texts. -/

namespace ExprText

open Render RenderM

/-! ### Comparisons -/

/-- The texts that stand between the names, numbers and literals of a text. -/
def vocabulary : List String :=
  ["", " ", ".", ", ", ";", "<", "\n", "\n\n", "-", "+", "~", "!", "++", "--", ".Length", " as ", " + ", " = ",
    "typeof", "default", "new ", "new[]", "[]", "[0]", "ref ", "out ", "var ", "return ", "return", "if ",
    " ? ", " : ", " =>", " \x7b \x7d", "\nelse ", "\nelse", "\n\x7b\n\x7d", "\x7b\n\x7d", "while (true)",
    "break", "continue"] ++
  BinaryOp.all.map (" " ++ ·.symbol ++ " ") ++ AssignOp.all.map (" " ++ ·.symbol ++ " ")

/-- The texts, names apart, that arguments in parentheses can follow. -/
def headWords : List String :=
  [">", "?", "void", ".Invoke"] ++ Ty.keywords.map Prod.snd

theorem registry_standard (settings : Settings) (qualified : Bool) :
    ({ settings, qualified } : Env).registry = .standard := by
  simp

theorem typeName_display (settings : Settings) (qualified : Bool) :
    ({ settings, qualified } : Env).typeName = Ty.display qualified :=
  rfl

theorem explicitGenerics_env (settings : Settings) (qualified : Bool) :
    ({ settings, qualified } : Env).settings.explicitGenerics = settings.explicitGenerics :=
  rfl

structure Comparison where
  left : Env
  right : Env
  /-- Whether both renderings show the namespaces of types. -/
  qualified : Bool
  /-- The marks that no name has. -/
  marks : List Char
  /-- Whether a text of the left rendering can stand beside one of the right rendering. -/
  Beside : String → String → Prop
  /-- The texts that arguments in parentheses can follow. -/
  Head : String → Prop
  left_standard : left.registry = .standard
  right_standard : right.registry = .standard
  left_names : left.typeName = Ty.display qualified
  right_names : right.typeName = Ty.display qualified
  generics : left.settings.explicitGenerics = right.settings.explicitGenerics
  punctuation : Text.Punctuation marks
  free : ∀ {w}, Text.Free marks w → Beside w w
  fixed : ∀ w ∈ vocabulary, Beside w w
  literal : ∀ {quote}, quote = '"' ∨ quote = '\x27' → ∀ cs, Beside (Text.quoted quote cs) (Text.quoted quote cs)
  head : ∀ {w}, Head w → Beside w w
  headed : ∀ w ∈ headWords, Head w
  rank : ∀ n, Head (Ty.rankBrackets n)
  append_head : ∀ {a w}, Beside a a → Head w → Head (a ++ w)
  append : ∀ {a b c d}, Beside a b → Beside c d → Beside (a ++ c) (b ++ d)
  parens : ∀ {a b}, Beside a b → Beside ("(" ++ a ++ ")") ("(" ++ b ++ ")")
  braces : ∀ {a b}, Beside a b → Beside (Body.braces (Text.indented left.indent a))
    (Body.braces (Text.indented right.indent b))
  newline : Beside ("\n" ++ left.indent) ("\n" ++ right.indent)
  arguments : ∀ {w xs ys}, Head w → List.Forall₂ Beside xs ys →
    Beside (w ++ left.settings.argumentList "(" ")" xs) (w ++ right.settings.argumentList "(" ")" ys)
  indices : ∀ {xs ys}, List.Forall₂ Beside xs ys →
    Beside (left.settings.argumentList "[" "]" xs) (right.settings.argumentList "[" "]" ys)
  array : ∀ {w xs ys}, Beside w w → List.Forall₂ Beside xs ys →
    Beside (arrayText left.settings w xs) (arrayText right.settings w ys)
  isEmpty : ∀ {a b}, Beside a b → a.isEmpty = b.isEmpty
  isGroup : ∀ {a b}, Beside a b → Text.isGroup a = Text.isGroup b
  isTerminated : ∀ {a b}, Beside a b → Text.isTerminated a = Text.isTerminated b
  withoutParens : ∀ {a b}, Beside a b → Beside (Text.withoutParens a) (Text.withoutParens b)
  unterminated : ∀ {a b}, Beside a b → Beside (Text.unterminated a) (Text.unterminated b)
  /-- Unless only equal texts stand beside each other, the space between two statements is not compared. -/
  gap : (∀ a b, Beside a b → a = b) ∨ Beside "\n" "\n\n" ∧ Beside "\n\n" "\n"
  checked : (∀ a b, Beside a b → a = b) → ∀ {a b}, Beside a b →
    Beside (checkedText left.indent a) (checkedText right.indent b)

namespace Comparison
variable (C : Comparison)

/-- Whether only equal texts stand beside each other. -/
def Exact : Prop :=
  ∀ a b, C.Beside a b → a = b

variable {C} {a b c d : String}

theorem around {w : String} (ha : C.Beside a b) (hw : C.Beside w w) (hc : C.Beside c d) :
    C.Beside (a ++ w ++ c) (b ++ w ++ d) :=
  C.append (C.append ha hw) hc

theorem wordParens {w : String} (hw : C.Beside w w) (h : C.Beside a b) :
    C.Beside (w ++ "(" ++ a ++ ")") (w ++ "(" ++ b ++ ")") := by
  simp only [String.append_assoc]
  exact C.append hw (C.parens h)

theorem join {sep : String} (hsep : C.Beside sep sep) {xs ys : List String}
    (h : List.Forall₂ C.Beside xs ys) : C.Beside (Text.join sep xs) (Text.join sep ys) := by
  induction h with
  | nil => exact C.fixed "" (by decide)
  | cons hx hrest ih =>
    cases hrest with
    | nil => exact hx
    | cons hy hrest => exact around hx hsep ih

theorem withParens (h : C.Beside a b) : C.Beside (Text.withParens a) (Text.withParens b) := by
  unfold Text.withParens
  rw [C.isGroup h]
  split
  · exact h
  · exact C.parens h

theorem terminated (h : C.Beside a b) : C.Beside (Text.terminated a) (Text.terminated b) := by
  unfold Text.terminated
  rw [C.isEmpty h, C.isTerminated h]
  split
  · exact h
  · exact C.append h (C.fixed ";" (by decide))

/-! ### Types -/

theorem namedDisplay (q : Bool) {ns : Option String} {name : String} {args : List String}
    (hns : ∀ w ∈ ns.toList, C.Head w) (hname : C.Head name) (hargs : ∀ w ∈ args, C.Head w) :
    C.Head (Ty.namedDisplay q ns name args) := by
  have hwith : ∀ base, C.Head base →
      C.Head (if args.isEmpty then base else base ++ "<" ++ Text.join ", " args ++ ">") := by
    intro base hbase
    split
    · exact hbase
    · have hlist : C.Beside (Text.join ", " args) (Text.join ", " args) :=
        join (C.fixed ", " (by decide)) (List.forall₂_same.mpr fun w hw => C.head (hargs w hw))
      exact C.append_head (around (C.head hbase) (C.fixed "<" (by decide)) hlist)
        (C.headed ">" (by decide))
  unfold Ty.namedDisplay
  cases ns with
  | none => exact hwith name hname
  | some ns =>
    cases q with
    | false => exact hwith name hname
    | true =>
      have hdot := C.append (C.head (hns ns List.mem_cons_self)) (C.fixed "." (by decide))
      exact hwith _ (C.append_head hdot hname)

mutual

theorem display (q : Bool) : ∀ ty : Ty, (∀ w ∈ ty.spellings, C.Head w) → C.Head (ty.display q)
  | .void, _ => C.headed "void" (by decide)
  | .named ns name args, h => by
    rw [Ty.display]
    split
    · next keyword hkeyword =>
      exact C.headed _ (List.mem_append_right _ (Name.mem_of_keywordOf hkeyword))
    · obtain ⟨hns, hrest⟩ := List.forall_mem_append.mp h
      obtain ⟨hname, hargs⟩ := List.forall_mem_cons.mp hrest
      have hall := displayAll q args hargs
      have hnamed := namedDisplay q hns hname hall
      split
      · next inner heq =>
        rw [heq] at hall hnamed
        split
        · exact C.append_head (C.head (hall inner List.mem_cons_self)) (C.headed "?" (by decide))
        · exact hnamed
      · exact hnamed
  | .array element rank, h => C.append_head (C.head (display q element h)) (C.rank rank)
  | .nullable inner, h => C.append_head (C.head (display q inner h)) (C.headed "?" (by decide))
  | .param name, h => h name List.mem_cons_self
  | .byRef inner, h => display q inner h

theorem displayAll (q : Bool) : ∀ tys : List Ty, (∀ w ∈ Ty.spellingsOfAll tys, C.Head w) →
    ∀ w ∈ Ty.displayAll q tys, C.Head w
  | [], _ => by simp [Ty.displayAll]
  | ty :: tys, h => by
    obtain ⟨hty, htys⟩ := List.forall_mem_append.mp h
    rw [Ty.displayAll, List.forall_mem_cons]
    exact ⟨display q ty hty, displayAll q tys htys⟩

end

end Comparison

end ExprText
