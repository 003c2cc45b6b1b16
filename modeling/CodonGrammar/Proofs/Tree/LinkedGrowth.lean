import CodonGrammar.Proofs.Tree.StoreLayout

/-!
# Growing linked trees

A linked tree starts as one node or is read from data, and then it grows at any of its nodes. It
stays well linked: the links agree in both directions, there is one root, and the way up from a node
passes the nodes on the way down to it. Each new node changes the size, the depth and the leaves in
a way that depends only on the node that it is attached to (`LinkedTree.wellLinked_of_reached`).
-/

namespace CodonGrammar.LinkedTree

variable {α : Type} {tree : LinkedTree α}

/-! ## Ways down and the tree of places -/

theorem occurs_of_follow {address : Address} {place : Nat}
    (hFollow : tree.follow 0 address = some place) :
    Tree.Occurs (tree.below place) address tree.places := by
  apply Tree.occurs_of_at?
  rw [places, at?_below, hFollow, Option.map_some]

theorem follow_of_occurs {address : Address} {sub : Tree Nat}
    (hOccurs : Tree.Occurs sub address tree.places) :
    tree.follow 0 address = some sub.label := by
  have hAt := Tree.at?_of_occurs hOccurs
  rw [places, at?_below] at hAt
  obtain ⟨place, hFollow, rfl⟩ := Option.map_eq_some_iff.mp hAt
  rw [hFollow, below_eq, Tree.label]

theorem isLeaf_below {place : Nat} :
    (tree.below place).isLeaf = true ↔ tree.store.childrenOf place = [] := by
  rw [below_eq, Tree.isLeaf, Tree.children, List.isEmpty_iff, List.map_eq_nil_iff]

/-! ## Well linked trees -/

/-- The links of a tree agree in both directions, and its paths are the ways down to its nodes. -/
structure WellLinked (tree : LinkedTree α) : Prop where
  parent_iff (child parent : Nat) :
    tree.store.parentOf? child = some parent ↔ child ∈ tree.store.childrenOf parent
  one_root : ∃! root, root < tree.store.length ∧ tree.store.parentOf? root = none
  one_address (place : Nat) : place < tree.store.length →
    ∃! address, tree.follow 0 address = some place
  /-- The path to a node has one node for each level down to it, the one that is found there on the
  way down. -/
  path_follow (address : Address) (place : Nat) : tree.follow 0 address = some place →
    (tree.path place).length = address.length + 1 ∧
      ∀ level ≤ address.length, (tree.path place)[level]? = tree.follow 0 (address.take level)
  path_length_le (place : Nat) : place < tree.store.length →
    (tree.path place).length ≤ tree.depth + 1
  deepest_leaf : ∃ leaf ∈ tree.leaves, (tree.path leaf).length = tree.depth + 1

/-- What one new child of the node at an address changes in a tree and in its measures. -/
structure GrowsAt (tree : LinkedTree α) (address : Address) (place : Nat) (label : α)
    (grown : LinkedTree α) : Prop where
  child : grown.store.childrenOf place = tree.store.childrenOf place ++ [tree.store.length]
  label : grown.store.labelOf? tree.store.length = some label
  kept (other : Nat) : other < tree.store.length →
    grown.store.labelOf? other = tree.store.labelOf? other ∧
      (other ≠ place → grown.store.childrenOf other = tree.store.childrenOf other)
  size : grown.size = tree.size + 1
  depth : grown.depth = max tree.depth (address.length + 1)
  /-- The new node stands in the place of a leaf. -/
  leaves_of_leaf : tree.store.childrenOf place = [] → ∃ front back,
    tree.leaves = front ++ place :: back ∧ grown.leaves = front ++ tree.store.length :: back
  /-- The new node stands behind the last leaf below a node with children. -/
  leaves_of_inner : tree.store.childrenOf place ≠ [] → ∃ front back,
    tree.leaves = front ++ (tree.below place).fringe ++ back ∧
      grown.leaves = front ++ (tree.below place).fringe ++ tree.store.length :: back

namespace Consistent

variable (hTree : tree.Consistent)

include hTree

theorem path_length_le {place : Nat} (hPlace : place < tree.store.length) :
    (tree.path place).length ≤ tree.depth + 1 := by
  obtain ⟨address, hFollow⟩ := hTree.exists_follow hPlace
  have hHeight := Tree.length_add_height_le (occurs_of_follow hFollow)
  rw [(hTree.path_eq hFollow).1, depth, Tree.depth_eq_height]
  omega

theorem exists_deepest_leaf :
    ∃ leaf ∈ tree.leaves, (tree.path leaf).length = tree.depth + 1 := by
  obtain ⟨address, leaf, hOccurs, hLength⟩ := Tree.exists_deepest_leaf tree.places
  have hFollow : tree.follow 0 address = some leaf := follow_of_occurs hOccurs
  obtain ⟨front, back, hLeaves, -⟩ := Tree.leafLabels_attachAt hOccurs
  have hMem : leaf ∈ front ++ (Tree.leaf leaf).leafLabels ++ back := by
    simp [Tree.leaf, Tree.leafLabels]
  refine ⟨leaf, ?_, ?_⟩
  · rwa [leaves, Tree.fringe_eq_leafLabels, hLeaves]
  · rw [(hTree.path_eq hFollow).1, hLength, depth, Tree.depth_eq_height]

theorem wellLinked : tree.WellLinked where
  parent_iff _ _ := hTree.parent_iff
  one_root := by
    refine ⟨0, ⟨tree.nonempty, parentOf?_root tree⟩, fun root ⟨hRoot, hNone⟩ => ?_⟩
    rcases Nat.eq_zero_or_pos root with hZero | hAbove
    · exact hZero
    · obtain ⟨parent, hParent⟩ := hTree.grounded hAbove hRoot
      cases hNone.symm.trans hParent
  one_address place hPlace := by
    obtain ⟨address, hFollow⟩ := hTree.exists_follow hPlace
    exact ⟨address, hFollow, fun _ hOther => hTree.follow_injective hOther hFollow⟩
  path_follow _ _ hFollow := hTree.path_eq hFollow
  path_length_le _ hPlace := hTree.path_length_le hPlace
  deepest_leaf := hTree.exists_deepest_leaf

theorem growsAt {address : Address} {place : Fin tree.store.length}
    (hFollow : tree.follow 0 address = some place.val) (label : α) :
    tree.GrowsAt address place label (tree.attach place label) := by
  have hOccurs := occurs_of_follow hFollow
  have hPlaces := hTree.places_attach hFollow label
  obtain ⟨front, back, hLeaves, hGrown⟩ := Tree.leafLabels_attachAt hOccurs
  have hNew := hGrown tree.store.length
  rw [Tree.leafLabels_attachAt_root] at hNew
  exact {
    child := childrenOf_attach_self place label
    label := by rw [store_attach, NodeStore.labelOf?_attach, if_pos rfl]
    kept := by
      intro other hOther
      refine ⟨?_, childrenOf_attach_of_ne place label⟩
      rw [store_attach, NodeStore.labelOf?_attach, if_neg (Nat.ne_of_lt hOther)]
    size := by
      rw [size, size, hPlaces, Tree.size_eq_nodeCount, Tree.size_eq_nodeCount,
        Tree.nodeCount_attachAt hOccurs]
    depth := by
      rw [depth, depth, hPlaces, Tree.depth_eq_height, Tree.depth_eq_height,
        Tree.height_attachAt hOccurs]
    leaves_of_leaf := by
      intro hLeaf
      have hBelow : (tree.below place).leafLabels = [place.val] := by
        rw [below_eq, hLeaf, List.map_nil, Tree.leafLabels]
      refine ⟨front, back, ?_, ?_⟩
      · rw [leaves, Tree.fringe_eq_leafLabels, hLeaves, hBelow, List.append_assoc,
          List.singleton_append]
      · rw [leaves, Tree.fringe_eq_leafLabels, hPlaces, hNew, if_pos (isLeaf_below.mpr hLeaf),
          List.append_assoc, List.singleton_append]
    leaves_of_inner := by
      intro hInner
      refine ⟨front, back, ?_, ?_⟩
      · rw [leaves, Tree.fringe_eq_leafLabels, hLeaves, Tree.fringe_eq_leafLabels]
      · rw [leaves, Tree.fringe_eq_leafLabels, hPlaces, hNew, if_neg (isLeaf_below.not.mpr hInner),
          Tree.fringe_eq_leafLabels]
        simp only [List.append_assoc, List.singleton_append] }

end Consistent

/-! ## Reached trees -/

/-- The trees that start as one node or are read from data, and then grow at any of their nodes. -/
inductive Reached : LinkedTree Symbol → Prop where
  | single (symbol : Symbol) : Reached (single symbol)
  | read {data : TreeData} {linked : LinkedTree Symbol} :
      ofData data = .ok linked → Reached linked
  | attach {linked : LinkedTree Symbol} (place : Fin linked.store.length) (symbol : Symbol) :
      Reached linked → Reached (linked.attach place symbol)

theorem Reached.consistent {linked : LinkedTree Symbol} (hReached : linked.Reached) :
    linked.Consistent := by
  induction hReached with
  | single symbol => exact .single symbol
  | read hRead =>
    obtain ⟨symbol, hGrown⟩ := grownFrom_of_ofData hRead
    exact hGrown.consistent (.single symbol)
  | attach place symbol _ ih => exact ih.attach place symbol

/-- Links and measures stay right in every tree that is reached, and a node that is attached at a
level changes the size, the depth and the leaves as it should. -/
theorem wellLinked_of_reached {linked : LinkedTree Symbol} (hReached : linked.Reached) :
    linked.WellLinked ∧
      ∀ (address : Address) (place : Fin linked.store.length) (symbol : Symbol),
        linked.follow 0 address = some place.val →
          linked.GrowsAt address place symbol (linked.attach place symbol) := by
  have hLinked := hReached.consistent
  exact ⟨hLinked.wellLinked, fun _ _ symbol hFollow => hLinked.growsAt hFollow symbol⟩

/-- Data of a tree with a leaf at its second level. -/
def twoLevels : TreeData :=
  .record (some (.text "nonterminal")) (some "s") (some [
    .record (some (.text "terminal")) (some "x") none,
    .record (some (.text "nonterminal")) (some "e") (some [
      .record (some (.text "terminal")) (some "y") none]),
    .record (some (.text "terminal")) (some "z") none])

/-- A leaf at the second level of a tree that was read gets a child. -/
theorem wellLinked_of_reached_secondLevel :
    ∃ (linked : LinkedTree Symbol) (place : Fin linked.store.length),
      ofData twoLevels = .ok linked ∧ linked.follow 0 [1, 0] = some place.val ∧
        linked.WellLinked ∧
        linked.GrowsAt [1, 0] place (.nonTerminal ⟨"e"⟩)
          (linked.attach place (.nonTerminal ⟨"e"⟩)) := by
  obtain ⟨linked, hRead, hPlace, hFollow⟩ :
      ∃ linked : LinkedTree Symbol, ofData twoLevels = .ok linked ∧
        3 < linked.store.length ∧ linked.follow 0 [1, 0] = some 3 := ⟨_, rfl, by decide, rfl⟩
  obtain ⟨hLinked, hGrows⟩ := wellLinked_of_reached (.read hRead)
  exact ⟨linked, ⟨3, hPlace⟩, hRead, hFollow, hLinked, hGrows [1, 0] ⟨3, hPlace⟩ _ hFollow⟩

end CodonGrammar.LinkedTree
