import CodonGrammar.Tree.Basic

/-!
# The leaves of a tree

The leaves of a tree are found by a loop with a stack. They are also the leaves of its children, one
child after the other (`fringe_eq_leafLabels`), which is the form in which other functions on trees
meet them.
-/

namespace CodonGrammar.Tree

variable {α : Type}

mutual

/-- The labels of the leaves of a tree, by the structure of the tree. -/
def leafLabels : Tree α → List α
  | node label [] => [label]
  | node _ (first :: rest) => leafLabelsAll (first :: rest)

/-- The labels of the leaves of all trees of a list. -/
def leafLabelsAll : List (Tree α) → List α
  | [] => []
  | tree :: rest => leafLabels tree ++ leafLabelsAll rest

end

theorem leafLabelsAll_append (first second : List (Tree α)) :
    leafLabelsAll (first ++ second) = leafLabelsAll first ++ leafLabelsAll second := by
  induction first with
  | nil => rfl
  | cons tree rest ih => simp only [List.cons_append, leafLabelsAll, ih, List.append_assoc]

theorem leafLabelsAll_leaf (labels : List α) : leafLabelsAll (labels.map leaf) = labels := by
  induction labels with
  | nil => rfl
  | cons label rest ih => simp [leafLabelsAll, leafLabels, leaf, ih]

theorem leafLabels_node {children : List (Tree α)} (hChildren : children ≠ []) (label : α) :
    leafLabels (node label children) = leafLabelsAll children := by
  cases children with
  | nil => exact absurd rfl hChildren
  | cons first rest => rfl

/-- The leaves of the trees on a stack come one tree after the other, from the top to the bottom. -/
theorem map_label_leavesFrom (stack : List (Tree α)) :
    (leavesFrom stack).map label = leafLabelsAll stack := by
  fun_induction leavesFrom stack with
  | case1 => rfl
  | case2 tree rest hLeaf ih =>
    obtain ⟨name, children⟩ := tree
    cases List.isEmpty_iff.mp hLeaf
    rw [List.map_cons, ih]
    rfl
  | case3 tree rest hInner ih =>
    obtain ⟨name, children⟩ := tree
    have hChildren : children ≠ [] := fun hNone => hInner (List.isEmpty_iff.mpr hNone)
    rw [ih, leafLabelsAll_append, leafLabelsAll, leafLabels_node hChildren, Tree.children]

theorem fringe_eq_leafLabels (tree : Tree α) : tree.fringe = tree.leafLabels := by
  rw [fringe, leaves, map_label_leavesFrom, leafLabelsAll, leafLabelsAll, List.append_nil]

end CodonGrammar.Tree
