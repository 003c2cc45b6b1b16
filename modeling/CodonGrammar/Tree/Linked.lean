import CodonGrammar.Tree.Data

/-!
# Linked trees

A linked tree keeps its nodes in a store, each at its place, in the order in which they came to be.
A node knows the places of its children and the place of its parent, so the same tree is written
down twice: it can be read from the root downwards (`LinkedTree.places`) and from a node upwards
(`LinkedTree.path`). A tree grows by one node at a time (`LinkedTree.attach`), or it is read from
data as a whole (`LinkedTree.ofData`).

The store of a linked tree keeps the places of children behind that of their parent. That both
directions describe the same tree is not part of the type. As for trees without links, no limit is
set to the depth of the data that is read, nor to that of the tree that is written.
-/

namespace CodonGrammar

/-- A node with the places of its neighbours. -/
structure LinkedNode (α : Type) where
  label : α
  children : List Nat
  parent : Option Nat

/-- Nodes, each at its place. -/
abbrev NodeStore (α : Type) := List (LinkedNode α)

variable {α β : Type}

namespace NodeStore

def labelOf? (store : NodeStore α) (place : Nat) : Option α := store[place]?.map LinkedNode.label

def childrenOf (store : NodeStore α) (place : Nat) : List Nat :=
  (store[place]?.map LinkedNode.children).getD []

def parentOf? (store : NodeStore α) (place : Nat) : Option Nat :=
  store[place]?.bind LinkedNode.parent

/-- The store with one more node, without children, at the next place. -/
def withNode (store : NodeStore α) (label : α) (parent : Option Nat) : NodeStore α :=
  store ++ [⟨label, [], parent⟩]

/-- The store with other children of a node. -/
def withChildren (store : NodeStore α) (place : Nat) (children : List Nat) : NodeStore α :=
  store.modify place fun node => { node with children }

/-- The store with one more child at the end of the children of a node. -/
def attach (store : NodeStore α) (place : Nat) (label : α) : NodeStore α :=
  (store.withNode label (some place)).withChildren place (store.childrenOf place ++ [store.length])

mutual

/-- The store with the nodes of data. A node comes before what is below it and knows its parent at
once, and it gets its children when all of them have been read. -/
def read (parent : Option Nat) (store : NodeStore Symbol) :
    TreeData → Except TreeDataError (NodeStore Symbol)
  | .record kind value children =>
    match Symbol.ofData kind value with
    | .error error => .error error
    | .ok symbol =>
      match children with
      | none => .ok (store.withNode symbol parent)
      | some list =>
        match readAll store.length (store.withNode symbol parent) list with
        | .error error => .error error
        | .ok (grown, places) => .ok (NodeStore.withChildren grown store.length places)

/-- The store with the nodes of several children of one node, and the places of the children. -/
def readAll (parent : Nat) (store : NodeStore Symbol) :
    List TreeData → Except TreeDataError (NodeStore Symbol × List Nat)
  | [] => .ok (store, [])
  | data :: rest =>
    match read (some parent) store data with
    | .error error => .error error
    | .ok grown =>
      match readAll parent grown rest with
      | .error error => .error error
      | .ok (all, places) => .ok (all, store.length :: places)

end

/-! ## What the steps change -/

section Steps

variable (store : NodeStore α) (label : α) (parent : Option Nat) (place : Nat) (children : List Nat)

@[simp] theorem length_withNode : (store.withNode label parent).length = store.length + 1 := by
  simp [withNode]

@[simp] theorem length_withChildren :
    (store.withChildren place children).length = store.length := by
  simp [withChildren]

@[simp] theorem length_attach : (store.attach place label).length = store.length + 1 := by
  simp [attach]

theorem getElem?_withNode (other : Nat) :
    (store.withNode label parent)[other]?
      = if other = store.length then some ⟨label, [], parent⟩ else store[other]? := by
  rw [withNode, List.getElem?_append]
  grind

theorem labelOf?_withNode (other : Nat) :
    (store.withNode label parent).labelOf? other
      = if other = store.length then some label else store.labelOf? other := by
  rw [labelOf?, getElem?_withNode]
  split <;> rfl

/-- The new node has no children, and neither has a place outside of the store. -/
theorem childrenOf_withNode (other : Nat) :
    (store.withNode label parent).childrenOf other = store.childrenOf other := by
  rw [childrenOf, childrenOf, getElem?_withNode]
  split
  next hOther => simp [hOther]
  next => rfl

theorem parentOf?_withNode (other : Nat) :
    (store.withNode label parent).parentOf? other
      = if other = store.length then parent else store.parentOf? other := by
  rw [parentOf?, getElem?_withNode]
  split <;> rfl

theorem labelOf?_withChildren (other : Nat) :
    (store.withChildren place children).labelOf? other = store.labelOf? other := by
  simp only [labelOf?, withChildren, List.getElem?_modify, Option.map_eq_map, Option.map_map]
  congr 1
  funext node
  simp only [Function.comp_apply]
  split <;> rfl

theorem childrenOf_withChildren (other : Nat) :
    (store.withChildren place children).childrenOf other
      = if other = place ∧ place < store.length then children else store.childrenOf other := by
  simp only [childrenOf, withChildren, List.getElem?_modify]
  grind

theorem parentOf?_withChildren (other : Nat) :
    (store.withChildren place children).parentOf? other = store.parentOf? other := by
  simp only [parentOf?, withChildren, List.getElem?_modify]
  cases store[other]? with
  | none => rfl
  | some node => simp only [Option.map_eq_map, Option.map_some, Option.bind_some]; split <;> rfl

variable {store place}

theorem labelOf?_attach (other : Nat) :
    (store.attach place label).labelOf? other
      = if other = store.length then some label else store.labelOf? other := by
  rw [attach, labelOf?_withChildren, labelOf?_withNode]

theorem childrenOf_attach (hPlace : place < store.length) (other : Nat) :
    (store.attach place label).childrenOf other
      = if other = place then store.childrenOf place ++ [store.length]
        else store.childrenOf other := by
  have hInside : place < (store.withNode label (some place)).length := by
    rw [length_withNode]
    omega
  simp only [attach, childrenOf_withChildren, childrenOf_withNode, hInside, and_true]

theorem parentOf?_attach (other : Nat) :
    (store.attach place label).parentOf? other
      = if other = store.length then some place else store.parentOf? other := by
  rw [attach, parentOf?_withChildren, parentOf?_withNode]

end Steps

/-! ## The order of the places -/

/-- Children are at later places of the store than their parent. -/
structure Ordered (store : NodeStore α) : Prop where
  children_later {place child : Nat} :
    child ∈ store.childrenOf place → place < child ∧ child < store.length
  parent_earlier {place above : Nat} : store.parentOf? place = some above → above < place

namespace Ordered

variable {store : NodeStore α}

theorem empty : Ordered ([] : NodeStore α) where
  children_later := by simp [childrenOf]
  parent_earlier := by simp [parentOf?]

theorem withNode (hStore : store.Ordered) {parent : Option Nat}
    (hParent : ∀ above, parent = some above → above < store.length) (label : α) :
    (store.withNode label parent).Ordered where
  children_later := by
    intro place child hChild
    rw [childrenOf_withNode] at hChild
    rw [length_withNode]
    have := hStore.children_later hChild
    omega
  parent_earlier := by
    intro place above hAbove
    rw [parentOf?_withNode] at hAbove
    split at hAbove
    next hLast => exact hLast ▸ hParent above hAbove
    next => exact hStore.parent_earlier hAbove

theorem withChildren (hStore : store.Ordered) {place : Nat} {children : List Nat}
    (hChildren : ∀ child ∈ children, place < child ∧ child < store.length) :
    (store.withChildren place children).Ordered where
  children_later := by
    intro other child hChild
    rw [childrenOf_withChildren] at hChild
    rw [length_withChildren]
    split at hChild
    next hPlace => exact hPlace.1 ▸ hChildren child hChild
    next => exact hStore.children_later hChild
  parent_earlier := by
    intro other above hAbove
    rw [parentOf?_withChildren] at hAbove
    exact hStore.parent_earlier hAbove

theorem attach (hStore : store.Ordered) {place : Nat} (hPlace : place < store.length) (label : α) :
    (store.attach place label).Ordered := by
  have hNode : (store.withNode label (some place)).Ordered :=
    hStore.withNode (fun above hAbove => Option.some.inj hAbove ▸ hPlace) label
  apply hNode.withChildren
  intro child hChild
  rw [length_withNode]
  rcases List.mem_append.mp hChild with hOld | hNew
  · have := hStore.children_later hOld
    omega
  · have := List.mem_singleton.mp hNew
    omega

theorem map (hStore : store.Ordered) (f : α → β) :
    NodeStore.Ordered (store.map fun node => { node with label := f node.label }) where
  children_later := by
    intro place child hChild
    have hOld : child ∈ store.childrenOf place := by
      simpa [childrenOf, Function.comp_def] using hChild
    simpa using hStore.children_later hOld
  parent_earlier := by
    intro place above hAbove
    have hOld : store.parentOf? place = some above := by
      rw [← hAbove, parentOf?, parentOf?, List.getElem?_map]
      cases store[place]? <;> rfl
    exact hStore.parent_earlier hOld

end Ordered

mutual

theorem Ordered.read {parent : Option Nat} {store grown : NodeStore Symbol}
    (hStore : store.Ordered) (hParent : ∀ above, parent = some above → above < store.length) :
    ∀ {data : TreeData}, NodeStore.read parent store data = .ok grown →
      grown.Ordered ∧ store.length < grown.length
  | .record kind value none => by
    intro hRead
    rw [NodeStore.read] at hRead
    split at hRead
    next => cases hRead
    next symbol _ =>
      cases hRead
      exact ⟨hStore.withNode hParent symbol, by simp⟩
  | .record kind value (some list) => by
    intro hRead
    rw [NodeStore.read] at hRead
    split at hRead
    next => cases hRead
    next symbol _ =>
      dsimp only at hRead
      split at hRead
      next => cases hRead
      next grown places hAll =>
        cases hRead
        have hLast : store.length < (store.withNode symbol parent).length := by simp
        obtain ⟨hGrown, hLength, hPlaces⟩ :=
          Ordered.readAll (hStore.withNode hParent symbol) hLast hAll
        rw [length_withNode] at hLength hPlaces
        refine ⟨hGrown.withChildren fun child hChild => ?_, ?_⟩
        · have := hPlaces child hChild
          omega
        · rw [length_withChildren]
          omega

theorem Ordered.readAll {parent : Nat} {store grown : NodeStore Symbol} {places : List Nat}
    (hStore : store.Ordered) (hParent : parent < store.length) :
    ∀ {list : List TreeData}, NodeStore.readAll parent store list = .ok (grown, places) →
      grown.Ordered ∧ store.length ≤ grown.length ∧
        ∀ place ∈ places, store.length ≤ place ∧ place < grown.length
  | [] => by
    intro hRead
    cases hRead
    exact ⟨hStore, Nat.le_refl _, by simp⟩
  | data :: rest => by
    intro hRead
    rw [NodeStore.readAll] at hRead
    split at hRead
    next => cases hRead
    next middle hFirst =>
      split at hRead
      next => cases hRead
      next all others hRest =>
        cases hRead
        obtain ⟨hMiddle, hFirstLength⟩ :=
          Ordered.read hStore (fun above hAbove => Option.some.inj hAbove ▸ hParent) hFirst
        obtain ⟨hGrown, hLength, hPlaces⟩ := Ordered.readAll hMiddle (by omega) hRest
        refine ⟨hGrown, by omega, ?_⟩
        intro place hPlace
        rcases List.mem_cons.mp hPlace with rfl | hOther
        · omega
        · have := hPlaces place hOther
          omega

end

end NodeStore

/-- A tree whose nodes are linked in both directions; its root is at place zero. -/
@[ext] structure LinkedTree (α : Type) where
  store : NodeStore α
  nonempty : 0 < store.length
  ordered : store.Ordered

namespace LinkedTree

/-- A tree of one node. -/
def single (label : α) : LinkedTree α where
  store := NodeStore.withNode [] label none
  nonempty := by simp
  ordered := NodeStore.Ordered.empty.withNode (by simp) label

/-- The tree with one more child of a node, at the end of its children. -/
def attach (tree : LinkedTree α) (place : Fin tree.store.length) (label : α) : LinkedTree α where
  store := tree.store.attach place label
  nonempty := by simp
  ordered := tree.ordered.attach place.isLt label

@[simp] theorem store_single (label : α) : (single label).store = [⟨label, [], none⟩] := rfl

@[simp] theorem store_attach (tree : LinkedTree α) (place : Fin tree.store.length) (label : α) :
    (tree.attach place label).store = tree.store.attach place label := rfl

/-- The tree that data describes, with its root at place zero. -/
def ofData (data : TreeData) : Except TreeDataError (LinkedTree Symbol) :=
  match hRead : NodeStore.read none [] data with
  | .error error => .error error
  | .ok store =>
    have hStore := NodeStore.Ordered.empty.read (by simp) hRead
    .ok ⟨store, hStore.2, hStore.1⟩

variable (tree : LinkedTree α)

def root : LinkedNode α := tree.store.get ⟨0, tree.nonempty⟩

/-- The label of a node; no other place is asked for. -/
def labelAt (place : Nat) : α := (tree.store.labelOf? place).getD tree.root.label

/-! ## Downwards -/

/-- The place of the node at the end of a way down from a node, if there is one. -/
def follow : Nat → Address → Option Nat
  | place, [] => some place
  | place, index :: rest => do follow (← (tree.store.childrenOf place)[index]?) rest

/-- The places of a node and of all nodes below it, found through the children of each node. -/
def below (place : Nat) : Tree Nat :=
  .node place ((tree.store.childrenOf place).attach.map fun ⟨child, _⟩ => below child)
termination_by tree.store.length - place
decreasing_by
  have hChild : child ∈ tree.store.childrenOf place := by assumption
  have hLater := tree.ordered.children_later hChild
  omega

/-- The places of all nodes. -/
def places : Tree Nat := tree.below 0

/-- The labels of a node and of all nodes below it. -/
def labelsBelow (place : Nat) : Tree α := (tree.below place).map tree.labelAt

/-- The tree without its links. -/
def unlinked : Tree α := tree.labelsBelow 0

def size : Nat := tree.places.size

def depth : Nat := tree.places.depth

/-- The places of the leaves from the left to the right. -/
def leaves : List Nat := tree.places.fringe

def toData (tree : LinkedTree Symbol) : TreeData := tree.unlinked.toData

/-! ## Upwards -/

/-- The places of a node and of the nodes above it, found through the parent of each node. -/
def lineage (place : Nat) : List Nat :=
  place :: match _hParent : tree.store.parentOf? place with
    | none => []
    | some parent => lineage parent
termination_by place
decreasing_by exact tree.ordered.parent_earlier (by assumption)

/-- The places of the nodes from the root down to a node. -/
def path (place : Nat) : List Nat := (tree.lineage place).reverse

/-! ## Other labels -/

/-- The tree with a function applied to all labels. -/
def map (f : α → β) : LinkedTree β where
  store := tree.store.map fun node => { node with label := f node.label }
  nonempty := by simpa using tree.nonempty
  ordered := tree.ordered.map f

end LinkedTree

end CodonGrammar
