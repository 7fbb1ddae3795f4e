import ExprText.Proofs.Shown

/-! # Fresh copies

Every graph unfolds into a tree: its nodes are copied and numbered in the order of the text, so that
a node which stands at several places has a copy at each of them. -/

namespace ExprText.Expr

mutual

/-- A copy of a graph as a tree whose nodes are numbered from `n` on. -/
def fresh (n : Nat) : Expr → Expr
  | .constant _ value ty => .constant n value ty
  | .variable _ target => .variable n target
  | .binary _ op left right ty =>
    .binary n op (left.fresh (n + 1)) (right.fresh (n + 1 + left.nodes.length)) ty
  | .unary _ op operand ty => .unary n op (operand.fresh (n + 1)) ty
  | .assign _ op target value =>
    .assign n op (target.fresh (n + 1)) (value.fresh (n + 1 + target.nodes.length))
  | .conditional _ test ifTrue ifFalse ty =>
    .conditional n (test.fresh (n + 1)) (ifTrue.fresh (n + 1 + test.nodes.length))
      (ifFalse.fresh (n + 1 + (test.nodes.length + ifTrue.nodes.length))) ty
  | .call _ subject method args =>
    .call n (freshOf (n + 1) subject) method (freshAll (n + 1 + (nodesOf subject).length) args)
  | .invoke _ target args ty =>
    .invoke n (target.fresh (n + 1)) (freshAll (n + 1 + target.nodes.length) args) ty
  | .new _ ty constructor args => .new n ty constructor (freshAll (n + 1) args)
  | .newArray _ element items => .newArray n element (freshAll (n + 1) items)
  | .member _ subject target => .member n (freshOf (n + 1) subject) target
  | .index _ subject indices ty =>
    .index n (subject.fresh (n + 1)) (freshAll (n + 1 + subject.nodes.length) indices) ty
  | .lambda _ params body ty => .lambda n params (body.fresh (n + 1)) ty
  | .block _ locals statements ty => .block n locals (freshAll (n + 1) statements) ty
  | .loop _ body breakLabel continueLabel => .loop n (freshOf (n + 1) body) breakLabel continueLabel
  | .break _ target => .break n target
  | .continue _ target => .continue n target
  | .return _ target value => .return n target (freshOf (n + 1) value)
  | .default _ ty => .default n ty
  | .extension _ form ty nodes => .extension n form ty nodes

def freshOf (n : Nat) : Option Expr → Option Expr
  | none => none
  | some e => some (e.fresh n)

def freshAll (n : Nat) : List Expr → List Expr
  | [] => []
  | e :: es => e.fresh n :: freshAll (n + e.nodes.length) es

end

mutual

theorem erase_fresh (n : Nat) : ∀ e : Expr, (e.fresh n).erase = e.erase
  | .constant .. | .variable .. | .break .. | .continue .. | .default .. | .extension .. => by
    simp only [fresh, erase]
  | .binary _ _ l r _ | .assign _ _ l r => by
    simp only [fresh, erase, erase_fresh _ l, erase_fresh _ r]
  | .unary _ _ a _ | .lambda _ _ a _ => by simp only [fresh, erase, erase_fresh _ a]
  | .conditional _ a b c _ => by
    simp only [fresh, erase, erase_fresh _ a, erase_fresh _ b, erase_fresh _ c]
  | .call _ a _ args => by simp only [fresh, erase, eraseOf_fresh _ a, eraseAll_fresh _ args]
  | .invoke _ a args _ | .index _ a args _ => by
    simp only [fresh, erase, erase_fresh _ a, eraseAll_fresh _ args]
  | .new _ _ _ args | .newArray _ _ args | .block _ _ args _ => by
    simp only [fresh, erase, eraseAll_fresh _ args]
  | .member _ a _ | .loop _ a _ _ | .return _ _ a => by simp only [fresh, erase, eraseOf_fresh _ a]

theorem eraseOf_fresh (n : Nat) : ∀ e : Option Expr, eraseOf (freshOf n e) = eraseOf e
  | none => rfl
  | some e => by simp only [freshOf, eraseOf, erase_fresh n e]

theorem eraseAll_fresh (n : Nat) : ∀ es : List Expr, eraseAll (freshAll n es) = eraseAll es
  | [] => rfl
  | e :: es => by simp only [freshAll, eraseAll, erase_fresh n e, eraseAll_fresh _ es]

end

mutual

/-- The nodes of a copy are numbered without a gap. -/
theorem ids_fresh (n : Nat) : ∀ e : Expr, (e.fresh n).nodes.map Expr.id = List.range' n e.nodes.length
  | .constant .. | .variable .. | .break .. | .continue .. | .default .. | .extension .. => by
    simp only [fresh, nodes]
    rfl
  | .binary _ _ l r _ | .assign _ _ l r => by
    simp only [fresh, nodes, List.map_cons, List.map_append, ids_fresh _ l, ids_fresh _ r, Expr.id,
      List.length_cons, List.length_append, List.range'_succ, List.range'_append_1]
  | .unary _ _ a _ | .lambda _ _ a _ => by
    simp only [fresh, nodes, List.map_cons, ids_fresh _ a, Expr.id, List.length_cons,
      List.range'_succ]
  | .conditional _ a b c _ => by
    simp only [fresh, nodes, List.map_cons, List.map_append, ids_fresh _ a, ids_fresh _ b,
      ids_fresh _ c, Expr.id, List.length_cons, List.length_append, List.range'_succ,
      List.range'_append_1]
  | .call _ a _ args => by
    simp only [fresh, nodes, List.map_cons, List.map_append, idsOf_fresh _ a, idsAll_fresh _ args,
      Expr.id, List.length_cons, List.length_append, List.range'_succ, List.range'_append_1]
  | .invoke _ a args _ | .index _ a args _ => by
    simp only [fresh, nodes, List.map_cons, List.map_append, ids_fresh _ a, idsAll_fresh _ args,
      Expr.id, List.length_cons, List.length_append, List.range'_succ, List.range'_append_1]
  | .new _ _ _ args | .newArray _ _ args | .block _ _ args _ => by
    simp only [fresh, nodes, List.map_cons, idsAll_fresh _ args, Expr.id, List.length_cons,
      List.range'_succ]
  | .member _ a _ | .loop _ a _ _ | .return _ _ a => by
    simp only [fresh, nodes, List.map_cons, idsOf_fresh _ a, Expr.id, List.length_cons,
      List.range'_succ]

theorem idsOf_fresh (n : Nat) : ∀ e : Option Expr,
    (nodesOf (freshOf n e)).map Expr.id = List.range' n (nodesOf e).length
  | none => rfl
  | some e => by simp only [freshOf, nodesOf, ids_fresh n e]

theorem idsAll_fresh (n : Nat) : ∀ es : List Expr,
    (nodesOfAll (freshAll n es)).map Expr.id = List.range' n (nodesOfAll es).length
  | [] => rfl
  | e :: es => by
    simp only [freshAll, nodesOfAll, List.map_append, ids_fresh n e, idsAll_fresh _ es,
      List.length_append, List.range'_append_1]

end

theorem isTree_fresh (n : Nat) (e : Expr) : (e.fresh n).IsTree := by
  rw [IsTree, ← List.pairwise_map, ids_fresh n e]
  exact List.nodup_range'

end ExprText.Expr
