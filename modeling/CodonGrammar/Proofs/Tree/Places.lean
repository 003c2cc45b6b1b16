import CodonGrammar.Proofs.Tree.Fringe

/-!
# The places of the leaves

Each leaf of a tree has its address. If a leaf gets children one after the other, they take its
place among the leaves and all other leaves keep theirs (`leafPlaces_attachAll`).
-/

namespace CodonGrammar.Tree

variable {α : Type}

mutual

/-- The leaves of a tree from the left to the right, each with its address. -/
def leafPlaces : Tree α → List (Address × α)
  | node label [] => [([], label)]
  | node _ (first :: rest) => leafPlacesFrom 0 (first :: rest)

/-- The leaves of the children of a node from the child with the given index on. -/
def leafPlacesFrom : Nat → List (Tree α) → List (Address × α)
  | _, [] => []
  | index, tree :: rest =>
    (leafPlaces tree).map (fun (address, label) => (index :: address, label))
      ++ leafPlacesFrom (index + 1) rest

end

mutual

theorem leafPlaces_labels : ∀ tree : Tree α, tree.leafPlaces.map Prod.snd = tree.leafLabels
  | node _ [] => rfl
  | node _ (first :: rest) => leafPlacesFrom_labels 0 (first :: rest)

theorem leafPlacesFrom_labels : ∀ (index : Nat) (trees : List (Tree α)),
    (leafPlacesFrom index trees).map Prod.snd = leafLabelsAll trees
  | _, [] => rfl
  | index, tree :: rest => by
    rw [leafPlacesFrom, leafLabelsAll, List.map_append, leafPlacesFrom_labels (index + 1) rest,
      ← leafPlaces_labels tree, List.map_map]
    rfl

end

theorem leafPlaces_node {children : List (Tree α)} (hChildren : children ≠ []) (label : α) :
    (node label children).leafPlaces = leafPlacesFrom 0 children := by
  cases children with
  | nil => exact absurd rfl hChildren
  | cons first rest => rfl

theorem leafPlacesFrom_leaf (index : Nat) (labels : List α) :
    leafPlacesFrom index (labels.map leaf)
      = (labels.zipIdx index).map fun (label, place) => ([place], label) := by
  induction labels generalizing index with
  | nil => rfl
  | cons label rest ih => simp [leafPlacesFrom, leafPlaces, leaf, ih]

/-! ## Attaching children -/

/-- The tree with more children, leaves with the given labels, at the end of the children of the
node at an address. -/
def attachAll (tree : Tree α) (address : Address) (labels : List α) : Tree α :=
  labels.foldl (fun tree label => tree.attachAt address label) tree

/-- The places of new children of a leaf. -/
def childPlaces (address : Address) (labels : List α) : List (Address × α) :=
  labels.zipIdx.map fun (label, index) => (address ++ [index], label)

theorem childPlaces_cons (index : Nat) (address : Address) (labels : List α) :
    childPlaces (index :: address) labels
      = (childPlaces address labels).map fun (below, label) => (index :: below, label) := by
  simp [childPlaces]

theorem childPlaces_labels (address : Address) (labels : List α) :
    (childPlaces address labels).map Prod.snd = labels := by
  simp [childPlaces, Function.comp_def]

theorem attachAll_root (label : α) (children : List (Tree α)) (labels : List α) :
    (node label children).attachAll [] labels = node label (children ++ labels.map leaf) := by
  rw [attachAll]
  induction labels generalizing children with
  | nil => simp
  | cons added rest ih => simp [attachAt, ih]

theorem attachAll_below (label : α) (children : List (Tree α)) (index : Nat) (address : Address)
    (labels : List α) :
    (node label children).attachAll (index :: address) labels
      = node label (children.modify index fun child => child.attachAll address labels) := by
  simp only [attachAll]
  induction labels generalizing children with
  | nil => exact congrArg (node label) (List.modify_id index children).symm
  | cons added rest ih => simp [attachAt, ih, List.modify_modify_eq, Function.comp_def]

/-- A member of two lists in a row is in the first one or in the second one. -/
theorem append_eq_append_cons {β : Type} {first second front back : List β} {member : β}
    (h : first ++ second = front ++ member :: back) :
    (∃ rest, first = front ++ member :: rest ∧ back = rest ++ second) ∨
      ∃ rest, front = first ++ rest ∧ second = rest ++ member :: back := by
  rcases List.append_eq_append_iff.mp h with ⟨rest, hFront, hSecond⟩ | ⟨rest, hFirst, hSecond⟩
  · exact .inr ⟨rest, hFront, hSecond⟩
  · cases rest with
    | nil => exact .inr ⟨[], by simpa using hFirst.symm, hSecond.symm⟩
    | cons found rest =>
      obtain ⟨rfl, hBack⟩ := List.cons.inj hSecond
      exact .inl ⟨rest, hFirst, hBack⟩

variable {labels : List α}

mutual

/-- New children of a leaf take its place. -/
theorem leafPlaces_attachAll (hLabels : labels ≠ []) : ∀ (tree : Tree α)
    {front back : List (Address × α)} {address : Address} {label : α},
    tree.leafPlaces = front ++ (address, label) :: back →
    (tree.attachAll address labels).leafPlaces = front ++ (childPlaces address labels ++ back)
  | node name [], front, back, address, label => by
    intro h
    obtain ⟨rfl, hRoot⟩ | ⟨-, hNil⟩ := List.append_eq_singleton_iff.mp h.symm
    · cases hRoot
      have hLeaves : labels.map leaf ≠ [] := by simpa using hLabels
      rw [attachAll_root, List.nil_append, leafPlaces_node hLeaves, leafPlacesFrom_leaf]
      simp [childPlaces]
    · cases hNil
  | node name (first :: rest), front, back, address, label => by
    intro h
    obtain ⟨index, below, rfl, hPlaces⟩ := leafPlacesFrom_modify hLabels 0 (first :: rest) h
    rw [Nat.zero_add, attachAll_below, leafPlaces_node (by simp), hPlaces, Nat.zero_add]

theorem leafPlacesFrom_modify (hLabels : labels ≠ []) : ∀ (offset : Nat) (trees : List (Tree α))
    {front back : List (Address × α)} {address : Address} {label : α},
    leafPlacesFrom offset trees = front ++ (address, label) :: back →
    ∃ index below, address = (offset + index) :: below ∧
      leafPlacesFrom offset (trees.modify index fun tree => tree.attachAll below labels)
        = front ++ (childPlaces ((offset + index) :: below) labels ++ back)
  | _, [], front, _, _, _ => by
    intro h
    simp [leafPlacesFrom] at h
  | offset, tree :: rest, front, back, address, label => by
    intro h
    rw [leafPlacesFrom] at h
    -- The leaf is in the first tree or in a later one.
    rcases append_eq_append_cons h with ⟨others, hTree, rfl⟩ | ⟨others, rfl, hRest⟩
    · obtain ⟨before, later, hSplit, rfl, hLater⟩ := List.map_eq_append_iff.mp hTree
      obtain ⟨⟨below, name⟩, after, rfl, hPlace, rfl⟩ := List.map_eq_cons_iff.mp hLater
      cases hPlace
      refine ⟨0, below, rfl, ?_⟩
      rw [List.modify_zero_cons, leafPlacesFrom, leafPlaces_attachAll hLabels tree hSplit,
        Nat.add_zero, childPlaces_cons]
      simp
    · obtain ⟨index, below, rfl, hPlaces⟩ := leafPlacesFrom_modify hLabels (offset + 1) rest hRest
      have hIndex : offset + 1 + index = offset + (index + 1) := by omega
      rw [hIndex] at hPlaces ⊢
      refine ⟨index + 1, below, rfl, ?_⟩
      rw [List.modify_succ_cons, leafPlacesFrom, hPlaces, List.append_assoc]

end

end CodonGrammar.Tree
