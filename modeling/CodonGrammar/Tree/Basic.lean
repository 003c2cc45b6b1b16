import CodonGrammar.Bnf.Written

/-!
# Trees

A tree has a label at each node and any number of children below it; a node without children is a
leaf. A node is found by its address, the indexes of the children on the way down from the root.

Each measure of a tree has a loop of its own, which keeps the nodes still to be visited on a stack,
so the depth of a tree does not matter to it. The leaves and the lines are wanted from the left to
the right and have the first child on top. A count and a maximum do not depend on the order, and
they have the last child on top. What is on the stack has fewer nodes after each step.

The labels of a derivation tree are grammar symbols.
-/

namespace CodonGrammar

/-- A tree with labels of a type. -/
inductive Tree (α : Type) where
  | node (label : α) (children : List (Tree α))

/-- A tree of grammar symbols. -/
abbrev DerivationTree := Tree Symbol

/-- The way from the root of a tree down to a node. -/
abbrev Address := List Nat

namespace Tree

variable {α β ε : Type}

def label : Tree α → α
  | node label _ => label

def children : Tree α → List (Tree α)
  | node _ children => children

/-- A node without children. -/
def leaf (label : α) : Tree α := node label []

def isLeaf (tree : Tree α) : Bool := tree.children.isEmpty

/-! ## Measures -/

mutual

def nodeCount : Tree α → Nat
  | node _ children => nodeCountAll children + 1

def nodeCountAll : List (Tree α) → Nat
  | [] => 0
  | tree :: rest => nodeCount tree + nodeCountAll rest

end

theorem nodeCountAll_append (first second : List (Tree α)) :
    nodeCountAll (first ++ second) = nodeCountAll first + nodeCountAll second := by
  induction first with
  | nil => simp [nodeCountAll]
  | cons tree rest ih => simp [nodeCountAll, ih, Nat.add_assoc]

theorem nodeCountAll_reverse (trees : List (Tree α)) :
    nodeCountAll trees.reverse = nodeCountAll trees := by
  induction trees with
  | nil => rfl
  | cons tree rest ih =>
    rw [List.reverse_cons, nodeCountAll_append, ih, nodeCountAll, nodeCountAll, nodeCountAll,
      Nat.add_zero, Nat.add_comm]

/-- A node is counted with what is below it. -/
theorem nodeCountAll_cons (tree : Tree α) (rest : List (Tree α)) :
    nodeCountAll (tree :: rest) = nodeCountAll tree.children + nodeCountAll rest + 1 := by
  obtain ⟨label, children⟩ := tree
  simp only [nodeCountAll, nodeCount, Tree.children]
  omega

/-- The leaves of the trees on a stack. A leaf is handed over when it is taken from the stack, and
in the place of another node come its children, the first one on top. -/
def leavesFrom : (stack : List (Tree α)) → List (Tree α)
  | [] => []
  | tree :: rest =>
    if tree.isLeaf then tree :: leavesFrom rest else leavesFrom (tree.children ++ rest)
termination_by stack => nodeCountAll stack
decreasing_by
  all_goals
    simp only [nodeCountAll_append, nodeCountAll_cons]
    omega

/-- The leaves of a tree from the left to the right. -/
def leaves (tree : Tree α) : List (Tree α) := leavesFrom [tree]

/-- The labels of the leaves from the left to the right. -/
def fringe (tree : Tree α) : List α := tree.leaves.map label

/-- A count that goes on with the nodes of the trees on a stack. The children of a node come on the
stack as they stand, the last one on top. -/
def countFrom (count : Nat) : (stack : List (Tree α)) → Nat
  | [] => count
  | tree :: rest => countFrom (count + 1) (tree.children.reverse ++ rest)
termination_by stack => nodeCountAll stack
decreasing_by
  simp only [nodeCountAll_append, nodeCountAll_reverse, nodeCountAll_cons]
  omega

/-- The number of nodes of a tree. -/
def size (tree : Tree α) : Nat := countFrom 0 [tree]

/-- The children of a node at a level, with their own level. -/
def childrenAt (level : Nat) (tree : Tree α) : List (Nat × Tree α) :=
  tree.children.map fun child => (level + 1, child)

@[simp] theorem map_snd_childrenAt (level : Nat) (tree : Tree α) :
    (tree.childrenAt level).map Prod.snd = tree.children := by
  simp [childrenAt, Function.comp_def]

/-- The deepest level so far and of the trees on a stack, each of which has the level of its root.
The children of a node come on the stack as they stand, the last one on top. -/
def depthFrom (deepest : Nat) : (stack : List (Nat × Tree α)) → Nat
  | [] => deepest
  | (level, tree) :: rest => depthFrom (max deepest level) ((tree.childrenAt level).reverse ++ rest)
termination_by stack => nodeCountAll (stack.map Prod.snd)
decreasing_by
  simp only [List.map_append, List.map_reverse, map_snd_childrenAt, List.map_cons,
    nodeCountAll_append, nodeCountAll_reverse, nodeCountAll_cons]
  omega

/-- The number of steps from the root of a tree down to its deepest leaf. -/
def depth (tree : Tree α) : Nat := depthFrom 0 [(0, tree)]

/-- The line of a node, indented by its level. -/
def line (level : Nat) (text : String) : String :=
  String.ofList (List.replicate (2 * level) ' ') ++ "- " ++ text

/-- The lines of the trees on a stack with the given text for a label, the line of a node before
those of its children. -/
def linesFrom (text : α → String) : (stack : List (Nat × Tree α)) → List String
  | [] => []
  | (level, tree) :: rest =>
    line level (text tree.label) :: linesFrom text (tree.childrenAt level ++ rest)
termination_by stack => nodeCountAll (stack.map Prod.snd)
decreasing_by
  simp only [List.map_append, map_snd_childrenAt, List.map_cons, nodeCountAll_append,
    nodeCountAll_cons]
  omega

/-- One line for each node of a tree, the root being at level zero. -/
def lines (text : α → String) (tree : Tree α) : List String := linesFrom text [(0, tree)]

def block (text : α → String) (tree : Tree α) : String :=
  String.intercalate "\n" (tree.lines text) ++ "\n"

def shownBy (text : α → String) (tree : Tree α) : String :=
  "DerivationNode(" ++ text tree.label ++ ", children=" ++ tree.children.length.repr ++ ")"

/-! ## Addresses -/

/-- The tree below an address, if there is a node at that address. -/
def at? : Tree α → Address → Option (Tree α)
  | tree, [] => some tree
  | node _ children, index :: rest => do (← children[index]?).at? rest

/-- The tree with one more child, a leaf with the given label, at the end of the children of the
node at an address. -/
def attachAt : Tree α → Address → α → Tree α
  | node label children, [], added => node label (children ++ [leaf added])
  | node label children, index :: rest, added =>
    node label (children.modify index fun child => child.attachAt rest added)

/-- The nodes from the root down to the node at an address. -/
def pathTo : Tree α → Address → List (Tree α)
  | tree, [] => [tree]
  | tree, index :: rest =>
    match tree.children[index]? with
    | some child => tree :: child.pathTo rest
    | none => [tree]

mutual

/-- For each leaf from the left to the right the labels on the way down to it, its own included. -/
def leafPaths : Tree α → List (List α)
  | node label [] => [[label]]
  | node label (first :: rest) => (leafPathsAll (first :: rest)).map (label :: ·)

/-- The ways down to the leaves of all trees of a list. -/
def leafPathsAll : List (Tree α) → List (List α)
  | [] => []
  | tree :: rest => leafPaths tree ++ leafPathsAll rest

end

/-! ## Other labels -/

mutual

/-- The tree with other labels, which are made from the top to the bottom and from the left to the
right up to the first one that cannot be made. -/
def relabel (make : α → Except ε β) : Tree α → Except ε (Tree β)
  | node label children =>
    match make label with
    | .error error => .error error
    | .ok made =>
      match relabelAll make children with
      | .error error => .error error
      | .ok trees => .ok (node made trees)

def relabelAll (make : α → Except ε β) : List (Tree α) → Except ε (List (Tree β))
  | [] => .ok []
  | tree :: rest =>
    match relabel make tree with
    | .error error => .error error
    | .ok first =>
      match relabelAll make rest with
      | .error error => .error error
      | .ok others => .ok (first :: others)

end

mutual

/-- The tree with a function applied to all labels. -/
def map (f : α → β) : Tree α → Tree β
  | node label children => node (f label) (mapAll f children)

/-- All trees of a list with a function applied to their labels. -/
def mapAll (f : α → β) : List (Tree α) → List (Tree β)
  | [] => []
  | tree :: rest => map f tree :: mapAll f rest

end

/-! ## Derivation trees -/

/-- The sentence of a tree, the symbols of its leaves. -/
def sentence (tree : DerivationTree) : List Symbol := tree.fringe

/-- The structure of a tree, one line for each node. -/
def structureText (tree : DerivationTree) : String := tree.block Symbol.written

def shown (tree : DerivationTree) : String := tree.shownBy Symbol.written

end Tree

end CodonGrammar
