import CodonGrammar.Proofs.Tree.Fringe

/-!
# The measures of a growing tree

The size and the depth of a tree come from loops with a stack, and they are also found by the
structure of the tree (`size_eq_nodeCount`, `depth_eq_height`). A loop starts with one tree, but
what it keeps is a fact about any stack and any number so far (`countFrom_eq`, `depthFrom_le_iff`).

A new child of one node changes each measure in a way that depends on that node alone: the size by
one, the depth by the level of the node, and the leaves only where the leaves below the node stand.
-/

namespace CodonGrammar.Tree

variable {α β : Type}

theorem mapAll_eq_map (f : α → β) (trees : List (Tree α)) : mapAll f trees = trees.map (map f) := by
  induction trees with
  | nil => rfl
  | cons tree rest ih => rw [mapAll, ih, List.map_cons]

/-! ## Measures by structure -/

/-- The count that a loop goes on with does not matter, nor does the order on its stack. -/
theorem countFrom_eq (count : Nat) (stack : List (Tree α)) :
    countFrom count stack = count + nodeCountAll stack := by
  fun_induction countFrom count stack with
  | case1 => rfl
  | case2 count tree rest ih =>
    rw [ih, nodeCountAll_append, nodeCountAll_reverse, nodeCountAll_cons]
    omega

theorem size_eq_nodeCount (tree : Tree α) : tree.size = tree.nodeCount := by
  rw [size, countFrom_eq, nodeCountAll, nodeCountAll]
  omega

mutual

/-- The number of steps from the root of a tree to its deepest leaf. -/
def height : Tree α → Nat
  | node _ children => heightAll children

/-- The number of steps to the deepest leaf from a node with the given children. -/
def heightAll : List (Tree α) → Nat
  | [] => 0
  | tree :: rest => max (height tree + 1) (heightAll rest)

end

theorem heightAll_append (first second : List (Tree α)) :
    heightAll (first ++ second) = max (heightAll first) (heightAll second) := by
  induction first with
  | nil => simp [heightAll]
  | cons tree rest ih =>
    rw [List.cons_append, heightAll, heightAll, ih]
    omega

theorem add_heightAll_le_iff {level bound : Nat} {trees : List (Tree α)} :
    level + heightAll trees ≤ bound
      ↔ level ≤ bound ∧ ∀ tree ∈ trees, level + 1 + tree.height ≤ bound := by
  induction trees with
  | nil => simp [heightAll]
  | cons tree rest ih =>
    have hMax : level + max (tree.height + 1) (heightAll rest) ≤ bound
        ↔ level + 1 + tree.height ≤ bound ∧ level + heightAll rest ≤ bound := by omega
    rw [heightAll, hMax, ih, List.forall_mem_cons]
    exact and_left_comm

/-- A bound of the deepest level is a bound for each tree on the stack, in any order. -/
theorem depthFrom_le_iff {deepest bound : Nat} {stack : List (Nat × Tree α)} :
    depthFrom deepest stack ≤ bound
      ↔ deepest ≤ bound ∧ ∀ entry ∈ stack, entry.1 + entry.2.height ≤ bound := by
  fun_induction depthFrom deepest stack with
  | case1 => simp
  | case2 deepest level tree rest ih =>
    obtain ⟨label, children⟩ := tree
    have hChildren : (∀ entry ∈ (childrenAt level (node label children)).reverse,
        entry.1 + entry.2.height ≤ bound)
          ↔ ∀ child ∈ children, level + 1 + child.height ≤ bound := by
      simp [childrenAt, Tree.children]
    rw [ih, List.forall_mem_append, hChildren, List.forall_mem_cons, height, add_heightAll_le_iff,
      Nat.max_le]
    simp only [and_assoc]

theorem depth_eq_height (tree : Tree α) : tree.depth = tree.height := by
  have hBound : ∀ bound, tree.depth ≤ bound ↔ tree.height ≤ bound := by
    intro bound
    rw [depth, depthFrom_le_iff]
    simp
  exact Nat.le_antisymm ((hBound _).mpr (Nat.le_refl _)) ((hBound _).mp (Nat.le_refl _))

/-! ## A node in a tree -/

/-- The node at an address of a tree, with all that is below it. -/
inductive Occurs (sub : Tree α) : Address → Tree α → Prop where
  | root : Occurs sub [] sub
  | child {address : Address} {child : Tree α} (label : α) (before after : List (Tree α)) :
      Occurs sub address child →
        Occurs sub (before.length :: address) (node label (before ++ child :: after))

theorem occurs_of_at? {sub : Tree α} {address : Address} {tree : Tree α}
    (hAt : tree.at? address = some sub) : Occurs sub address tree := by
  induction address generalizing tree with
  | nil =>
    cases hAt
    exact .root
  | cons index rest ih =>
    obtain ⟨label, children⟩ := tree
    rw [at?] at hAt
    obtain ⟨child, hChild, hRest⟩ := Option.bind_eq_some_iff.mp hAt
    obtain ⟨hIndex, rfl⟩ := List.getElem?_eq_some_iff.mp hChild
    have hBelow := Occurs.child label (children.take index) (children.drop (index + 1)) (ih hRest)
    rwa [List.length_take_of_le (Nat.le_of_lt hIndex), List.getElem_cons_drop,
      List.take_append_drop] at hBelow

theorem at?_of_occurs {sub : Tree α} {address : Address} {tree : Tree α}
    (hOccurs : Occurs sub address tree) : tree.at? address = some sub := by
  induction hOccurs with
  | root => exact at?.eq_def _ _
  | child label before after _ ih => simp [at?, ih]

/-- A new child below a child of a tree. -/
theorem attachAt_below {address : Address} {child : Tree α} (label : α)
    (before after : List (Tree α)) (added : α) :
    (node label (before ++ child :: after)).attachAt (before.length :: address) added
      = node label (before ++ child.attachAt address added :: after) := by
  rw [attachAt, List.modify_eq_take_cons_drop (by simp)]
  simp

section Attaching

variable {sub tree : Tree α} {address : Address}

theorem nodeCount_attachAt (hOccurs : Occurs sub address tree) (added : α) :
    (tree.attachAt address added).nodeCount = tree.nodeCount + 1 := by
  induction hOccurs with
  | root =>
    obtain ⟨label, children⟩ := sub
    simp [attachAt, nodeCount, nodeCountAll_append, nodeCountAll, leaf]
  | child label before after _ ih =>
    rw [attachAt_below]
    simp only [nodeCount, nodeCountAll_append, nodeCountAll, ih]
    omega

theorem height_attachAt (hOccurs : Occurs sub address tree) (added : α) :
    (tree.attachAt address added).height = max tree.height (address.length + 1) := by
  induction hOccurs with
  | root =>
    obtain ⟨label, children⟩ := sub
    simp [attachAt, height, heightAll_append, heightAll, leaf]
  | child label before after _ ih =>
    rw [attachAt_below]
    simp only [height, heightAll_append, heightAll, ih, List.length_cons]
    omega

theorem length_add_height_le (hOccurs : Occurs sub address tree) :
    address.length + sub.height ≤ tree.height := by
  induction hOccurs with
  | root => simp
  | child label before after _ ih =>
    simp only [height, heightAll_append, heightAll, List.length_cons]
    omega

/-- A new child of a leaf stands in its place, and that of another node behind its leaves. -/
theorem leafLabels_attachAt_root (tree : Tree α) (added : α) :
    (tree.attachAt [] added).leafLabels
      = if tree.isLeaf then [added] else tree.leafLabels ++ [added] := by
  obtain ⟨label, children⟩ := tree
  rw [attachAt, leafLabels_node (by simp), leafLabelsAll_append]
  cases children with
  | nil => rfl
  | cons first rest => rfl

/-- A new child of a node changes the leaves below the node only. -/
theorem leafLabels_attachAt (hOccurs : Occurs sub address tree) :
    ∃ front back, tree.leafLabels = front ++ sub.leafLabels ++ back ∧
      ∀ added, (tree.attachAt address added).leafLabels
        = front ++ (sub.attachAt [] added).leafLabels ++ back := by
  induction hOccurs with
  | root => exact ⟨[], [], by simp⟩
  | child label before after _ ih =>
    obtain ⟨front, back, hLeaves, hGrown⟩ := ih
    refine ⟨leafLabelsAll before ++ front, back ++ leafLabelsAll after, ?_, fun added => ?_⟩
    · rw [leafLabels_node (by simp), leafLabelsAll_append, leafLabelsAll, hLeaves]
      simp only [List.append_assoc]
    · rw [attachAt_below, leafLabels_node (by simp), leafLabelsAll_append, leafLabelsAll, hGrown]
      simp only [List.append_assoc]

end Attaching

mutual

/-- Some leaf of a tree is as deep as the tree. -/
theorem exists_deepest_leaf : ∀ tree : Tree α,
    ∃ address label, Occurs (leaf label) address tree ∧ address.length = tree.height
  | node label [] => ⟨[], label, .root, rfl⟩
  | node label (first :: rest) => by
    obtain ⟨before, child, after, address, found, hSplit, hOccurs, hLength⟩ :=
      exists_deepest_child (first :: rest) (List.cons_ne_nil first rest)
    rw [hSplit] at hLength ⊢
    exact ⟨before.length :: address, found, .child label before after hOccurs, hLength⟩

theorem exists_deepest_child : ∀ trees : List (Tree α), trees ≠ [] →
    ∃ before child after address label, trees = before ++ child :: after ∧
      Occurs (leaf label) address child ∧ address.length + 1 = heightAll trees
  | [], hTrees => absurd rfl hTrees
  | tree :: rest, _ => by
    obtain ⟨address, label, hOccurs, hLength⟩ := exists_deepest_leaf tree
    by_cases hFirst : heightAll rest ≤ tree.height + 1
    · exact ⟨[], tree, rest, address, label, rfl, hOccurs, by rw [heightAll]; omega⟩
    · have hRest : rest ≠ [] := fun hNil => hFirst (hNil ▸ Nat.zero_le _)
      obtain ⟨before, child, after, deeper, found, rfl, hBelow, hDeep⟩ :=
        exists_deepest_child rest hRest
      exact ⟨tree :: before, child, after, deeper, found, rfl, hBelow, by rw [heightAll]; omega⟩

end

end CodonGrammar.Tree
