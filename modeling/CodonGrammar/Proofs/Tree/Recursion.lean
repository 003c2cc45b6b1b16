import CodonGrammar.Display.Listing
import CodonGrammar.Proofs.Tree.Measures
import CodonGrammar.Proofs.Tree.StructureText
import Mathlib.Algebra.GroupWithZero.Nat

/-!
# The measures of a tree from those of its children

Every measure of a tree comes from a loop of its own, which keeps on a stack what is still to be
visited. Trees on a stack do not disturb each other: the leaves and the lines of those on top come
first, and then those of the others (`leavesFrom_append`, `linesFrom_append`). A line depends on its
level for its blanks only (`linesFrom_deeper`), and a count and a maximum do not depend on the order
(`countFrom_eq`, `depthFrom_le_iff`). So a loop that has taken the root from its stack goes on with
the measures of the children (`measures_recursive`).
-/

namespace CodonGrammar.Tree

variable {α : Type}

/-! ## Leaves, size and depth -/

theorem leavesFrom_append (front back : List (Tree α)) :
    leavesFrom (front ++ back) = leavesFrom front ++ leavesFrom back := by
  fun_induction leavesFrom front with
  | case1 => rfl
  | case2 tree rest hLeaf ih =>
    rw [List.cons_append, leavesFrom, if_pos hLeaf, ih, List.cons_append]
  | case3 tree rest hInner ih =>
    rw [List.cons_append, leavesFrom, if_neg hInner, ← List.append_assoc, ih]

theorem leavesFrom_eq_flatMap (trees : List (Tree α)) :
    leavesFrom trees = trees.flatMap leaves := by
  induction trees with
  | nil => rw [leavesFrom, List.flatMap_nil]
  | cons tree rest ih =>
    rw [List.flatMap_cons, ← ih, leaves, ← leavesFrom_append, List.singleton_append]

theorem leaves_eq (tree : Tree α) :
    tree.leaves = if tree.isLeaf then [tree] else tree.children.flatMap leaves := by
  rw [leaves, leavesFrom, leavesFrom, List.append_nil, leavesFrom_eq_flatMap]

theorem nodeCountAll_eq_sum (trees : List (Tree α)) :
    nodeCountAll trees = (trees.map nodeCount).sum := by
  induction trees with
  | nil => rfl
  | cons tree rest ih => rw [nodeCountAll, ih, List.map_cons, List.sum_cons]

theorem size_eq (tree : Tree α) : tree.size = 1 + (tree.children.map size).sum := by
  have hSize : (size : Tree α → Nat) = nodeCount := funext size_eq_nodeCount
  obtain ⟨label, children⟩ := tree
  rw [hSize, nodeCount, nodeCountAll_eq_sum, Tree.children, Nat.add_comm]

/-- The deepest child decides, if there are children. -/
theorem heightAll_eq_max? (trees : List (Tree α)) :
    heightAll trees = (trees.map height).max?.elim 0 (1 + ·) := by
  induction trees with
  | nil => rfl
  | cons tree rest ih =>
    rw [heightAll, ih, List.map_cons, List.max?_cons]
    cases (rest.map height).max? with
    | none => simp [Nat.add_comm]
    | some deepest =>
      simp only [Option.elim_some]
      omega

theorem depth_eq_max? (tree : Tree α) :
    tree.depth = (tree.children.map depth).max?.elim 0 (1 + ·) := by
  have hHeight : (depth : Tree α → Nat) = height := funext depth_eq_height
  obtain ⟨label, children⟩ := tree
  rw [hHeight, height, heightAll_eq_max?, Tree.children]

/-! ## Lines -/

theorem line_deeper (level : Nat) (text : String) :
    line (level + 1) text = "  " ++ line level text := by
  apply String.toList_inj.mp
  simp [line, Nat.mul_add, List.replicate_succ]

/-- A tree on a stack, one level deeper. -/
def deeper (entry : Nat × Tree α) : Nat × Tree α := (entry.1 + 1, entry.2)

theorem map_deeper_childrenAt (level : Nat) (tree : Tree α) :
    (tree.childrenAt level).map deeper = tree.childrenAt (level + 1) := by
  rw [childrenAt, List.map_map]
  rfl

section Lines

variable (text : α → String)

theorem linesFrom_append (front back : List (Nat × Tree α)) :
    linesFrom text (front ++ back) = linesFrom text front ++ linesFrom text back := by
  fun_induction linesFrom text front with
  | case1 => rfl
  | case2 level tree rest ih =>
    rw [List.cons_append, linesFrom, ← List.append_assoc, ih, List.cons_append]

theorem linesFrom_deeper (stack : List (Nat × Tree α)) :
    linesFrom text (stack.map deeper) = (linesFrom text stack).map ("  " ++ ·) := by
  fun_induction linesFrom text stack with
  | case1 => rw [List.map_nil, linesFrom, List.map_nil]
  | case2 level tree rest ih =>
    rw [List.map_append, map_deeper_childrenAt] at ih
    rw [List.map_cons, deeper, linesFrom, ih, line_deeper, List.map_cons]

/-- The lines of trees of one level come one tree after the other. -/
theorem linesFrom_children (trees : List (Tree α)) :
    linesFrom text (trees.map fun tree => (1, tree))
      = trees.flatMap fun tree => (tree.lines text).map ("  " ++ ·) := by
  induction trees with
  | nil => rw [List.map_nil, linesFrom, List.flatMap_nil]
  | cons tree rest ih =>
    have hFirst : linesFrom text [(1, tree)] = (tree.lines text).map ("  " ++ ·) :=
      linesFrom_deeper text [(0, tree)]
    rw [List.map_cons, List.flatMap_cons, ← ih, ← hFirst, ← linesFrom_append, List.singleton_append]

/-- The own line of the root, and behind it the lines of the children with two more blanks. -/
theorem lines_eq (tree : Tree α) :
    tree.lines text = ("- " ++ text tree.label) ::
      tree.children.flatMap fun child => (child.lines text).map ("  " ++ ·) := by
  rw [lines, linesFrom, List.append_nil, childrenAt, linesFrom_children]
  rfl

theorem block_eq_join (tree : Tree α) :
    tree.block text = String.join ((tree.lines text).map (· ++ "\n")) := by
  have hLines : tree.lines text ≠ [] := lines_eq text tree ▸ List.cons_ne_nil _ _
  apply String.toList_inj.mp
  rw [block, intercalate_lineBreak hLines, String.toList_join, List.flatMap_map]
  simp

end Lines

/-- The measures of a tree are found from the measures of its children: its leaves are the tree
itself or those of the children, its size and its depth count the root and one step, and its text
has the line of the root and then the lines of the children with two more blanks each. Without
colours the listing of a tree is its text but for the end of the last line. -/
theorem measures_recursive (tree : DerivationTree) :
    tree.leaves = (if tree.isLeaf then [tree] else tree.children.flatMap leaves) ∧
      tree.size = 1 + (tree.children.map size).sum ∧
      tree.depth = (tree.children.map depth).max?.elim 0 (1 + ·) ∧
      (tree.structureText = String.join ((tree.lines Symbol.written).map (· ++ "\n")) ∧
        tree.lines Symbol.written = ("- " ++ tree.label.written) ::
          tree.children.flatMap fun child => (child.lines Symbol.written).map ("  " ++ ·)) ∧
      Display.treeText .plain tree ++ "\n" = tree.structureText := by
  refine ⟨leaves_eq tree, size_eq tree, depth_eq_max? tree,
    ⟨block_eq_join _ tree, lines_eq _ tree⟩, ?_⟩
  have hPlain : Display.Style.plain.symbol = Symbol.written := by
    funext symbol
    rw [Display.Style.symbol, Display.Style.apply_plain]
  rw [Display.treeText, hPlain]
  rfl

end CodonGrammar.Tree
