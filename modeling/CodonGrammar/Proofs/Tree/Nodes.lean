import CodonGrammar.Proofs.Tree.Measures

/-!
# The nodes of a tree

The walk over a tree visits a node before its children, and one child with all that is below it
before the next one, as the loops for its leaves and lines do. What is known of a node without
looking further down is its own label and the labels of its children, its shape. The shapes of the
visited nodes are found by the structure of the tree as well (`map_shape_nodes`), which is the form
in which the growth of a tree changes them.
-/

namespace CodonGrammar.Tree

variable {α : Type}

/-- The nodes of the trees on a stack, each with its level: a node before its children, and
children from the left to the right. -/
def walkFrom : (stack : List (Nat × Tree α)) → List (Nat × Tree α)
  | [] => []
  | (level, tree) :: rest => (level, tree) :: walkFrom (tree.childrenAt level ++ rest)
termination_by stack => nodeCountAll (stack.map Prod.snd)
decreasing_by
  simp only [List.map_append, map_snd_childrenAt, List.map_cons, nodeCountAll_append,
    nodeCountAll_cons]
  omega

/-- All nodes of a tree in order, each with its level, the root being at level zero. -/
def walk (tree : Tree α) : List (Nat × Tree α) := walkFrom [(0, tree)]

/-- The nodes of a tree in the order of the walk. -/
def nodes (tree : Tree α) : List (Tree α) := tree.walk.map Prod.snd

/-- The nodes that have children, in the order of the walk. -/
def inner (tree : Tree α) : List (Tree α) := tree.nodes.filter (!·.isLeaf)

/-- The label of a node and the labels of its children. -/
def shape (tree : Tree α) : α × List α := (tree.label, tree.children.map label)

/-- A shape of a node without children. -/
abbrev leafShape (label : α) : α × List α := (label, [])

mutual

/-- The shapes of the nodes of a tree, by the structure of the tree. -/
def shapes : Tree α → List (α × List α)
  | node label children => shape (node label children) :: shapesAll children

/-- The shapes of the nodes of all trees of a list. -/
def shapesAll : List (Tree α) → List (α × List α)
  | [] => []
  | tree :: rest => shapes tree ++ shapesAll rest

end

theorem shapesAll_append (first second : List (Tree α)) :
    shapesAll (first ++ second) = shapesAll first ++ shapesAll second := by
  induction first with
  | nil => rfl
  | cons tree rest ih => simp only [List.cons_append, shapesAll, ih, List.append_assoc]

theorem shapes_leaf (label : α) : (leaf label).shapes = [leafShape label] := rfl

theorem shapesAll_leaf (labels : List α) :
    shapesAll (labels.map leaf) = labels.map leafShape := by
  induction labels with
  | nil => rfl
  | cons label rest ih => simp only [List.map_cons, shapesAll, shapes_leaf, ih, List.singleton_append]

/-- What a walk visits are the nodes of the trees on its stack, from the top to the bottom. -/
theorem map_shape_walkFrom (stack : List (Nat × Tree α)) :
    ((walkFrom stack).map Prod.snd).map shape = shapesAll (stack.map Prod.snd) := by
  fun_induction walkFrom stack with
  | case1 => rfl
  | case2 level tree rest ih =>
    obtain ⟨name, children⟩ := tree
    rw [List.map_append, map_snd_childrenAt, shapesAll_append, Tree.children] at ih
    simp only [List.map_cons, ih, shapesAll, shapes, List.cons_append]

theorem map_shape_nodes (tree : Tree α) : tree.nodes.map shape = tree.shapes := by
  have hWalk := map_shape_walkFrom [(0, tree)]
  simpa [nodes, walk, shapesAll] using hWalk

mutual

theorem length_shapes : ∀ tree : Tree α, tree.shapes.length = tree.nodeCount
  | node _ children => by rw [shapes, List.length_cons, length_shapesAll children, nodeCount]

theorem length_shapesAll : ∀ trees : List (Tree α), (shapesAll trees).length = nodeCountAll trees
  | [] => rfl
  | tree :: rest => by
    rw [shapesAll, List.length_append, length_shapes tree, length_shapesAll rest, nodeCountAll]

end

theorem size_eq_length_shapes (tree : Tree α) : tree.size = tree.shapes.length := by
  rw [size_eq_nodeCount, length_shapes]

/-! ## Nodes with children -/

/-- The shapes of the nodes that have children. -/
def innerShapes (shapes : List (α × List α)) : List (α × List α) :=
  shapes.filter fun shape => !shape.2.isEmpty

theorem map_shape_inner (tree : Tree α) : tree.inner.map shape = innerShapes tree.shapes := by
  rw [← map_shape_nodes, innerShapes, List.filter_map, inner]
  congr 2
  funext visited
  simp [shape, isLeaf]

theorem innerShapes_eq_nil {shapes : List (α × List α)} (h : ∀ shape ∈ shapes, shape.2 = []) :
    innerShapes shapes = [] := by
  rw [innerShapes, List.filter_eq_nil_iff]
  intro shape hShape
  simp [h shape hShape]

/-- A leaf with leaves behind it is none of the nodes with children. -/
theorem innerShapes_leaf {back : List (α × List α)} (hBack : ∀ shape ∈ back, shape.2 = [])
    (front : List (α × List α)) (label : α) :
    innerShapes (front ++ leafShape label :: back) = innerShapes front := by
  have hLeaves : ∀ shape ∈ leafShape label :: back, shape.2 = [] :=
    List.forall_mem_cons.mpr ⟨rfl, hBack⟩
  rw [innerShapes, List.filter_append]
  exact (congrArg _ (innerShapes_eq_nil hLeaves)).trans (List.append_nil _)

/-- A node with leaves behind it is the last one with children. -/
theorem innerShapes_last {labels : List α} (hLabels : labels ≠ []) {back : List (α × List α)}
    (hBack : ∀ shape ∈ back, shape.2 = []) (front : List (α × List α)) (label : α) :
    innerShapes (front ++ (label, labels) :: back) = innerShapes front ++ [(label, labels)] := by
  have hInner : ¬ labels.isEmpty = true := by simpa using hLabels
  have hNone := innerShapes_eq_nil hBack
  rw [innerShapes] at hNone
  simp [innerShapes, hInner, hNone]

end CodonGrammar.Tree
