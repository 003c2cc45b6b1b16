import CodonGrammar.Proofs.Tree.Links
import CodonGrammar.Proofs.Tree.Measures

/-!
# The layout of a read tree

Reading puts the nodes of a tree into the store in the order of a walk, so the places of all links
follow from the sizes of the trees that were read before (`NodeStore.read_eq`). The same store comes
about if one child is attached after the other (`LinkedTree.grownFrom_of_ofData`). So whatever new
nodes keep also holds of a tree that was read, although reading writes its links in another order.
-/

namespace CodonGrammar

variable {α : Type}

namespace NodeStore

/-! ## Places by size -/

/-- The places of trees that are laid out one behind the other. -/
def rootPlaces (place : Nat) : List (Tree α) → List Nat
  | [] => []
  | tree :: rest => place :: rootPlaces (place + tree.nodeCount) rest

mutual

/-- The nodes of a tree in the order of a walk, from a place on. -/
def layout (parent : Option Nat) (place : Nat) : Tree α → NodeStore α
  | .node label children =>
    ⟨label, rootPlaces (place + 1) children, parent⟩ :: layoutAll place (place + 1) children

/-- The nodes of the children of one node. -/
def layoutAll (parent place : Nat) : List (Tree α) → NodeStore α
  | [] => []
  | tree :: rest =>
    layout (some parent) place tree ++ layoutAll parent (place + tree.nodeCount) rest

end

mutual

theorem length_layout (parent : Option Nat) (place : Nat) :
    ∀ tree : Tree α, (layout parent place tree).length = tree.nodeCount
  | .node label children => by
    rw [layout, List.length_cons, length_layoutAll place (place + 1) children, Tree.nodeCount]

theorem length_layoutAll (parent place : Nat) :
    ∀ trees : List (Tree α), (layoutAll parent place trees).length = Tree.nodeCountAll trees
  | [] => rfl
  | tree :: rest => by
    rw [layoutAll, List.length_append, length_layout, length_layoutAll, Tree.nodeCountAll]

end

/-! ## Stores in parts -/

theorem withChildren_middle (front back : NodeStore α) (node : LinkedNode α)
    (children : List Nat) :
    NodeStore.withChildren (front ++ node :: back) front.length children
      = front ++ { node with children } :: back := by
  rw [withChildren, List.modify_eq_take_cons_drop (by simp)]
  simp

theorem withChildren_front {front : NodeStore α} {place : Nat} (hPlace : place < front.length)
    (back : NodeStore α) (children : List Nat) :
    NodeStore.withChildren (front ++ back) place children
      = front.withChildren place children ++ back := by
  rw [withChildren, withChildren, List.modify_eq_take_cons_drop hPlace,
    List.modify_eq_take_cons_drop (by rw [List.length_append]; omega),
    List.take_append_of_le_length (Nat.le_of_lt hPlace), List.drop_append_of_le_length hPlace,
    List.getElem_append_left hPlace, List.append_assoc, List.cons_append]

theorem withChildren_childrenOf (store : NodeStore α) (place : Nat) :
    store.withChildren place (store.childrenOf place) = store := by
  apply List.ext_getElem?
  intro other
  rw [withChildren, List.getElem?_modify]
  cases hNode : store[other]? with
  | none => rfl
  | some node =>
    by_cases hPlace : place = other
    · subst hPlace
      simp [childrenOf, hNode]
    · simp [hPlace]

theorem withChildren_withChildren (store : NodeStore α) (place : Nat) (first second : List Nat) :
    (store.withChildren place first).withChildren place second
      = store.withChildren place second := by
  rw [withChildren, withChildren, withChildren, List.modify_modify_eq]
  rfl

theorem attach_eq {store : NodeStore α} {place : Nat} (hPlace : place < store.length) (label : α) :
    store.attach place label
      = store.withChildren place (store.childrenOf place ++ [store.length])
        ++ [⟨label, [], some place⟩] := by
  rw [attach, withNode, withChildren_front hPlace]

theorem childrenOf_append {front : NodeStore α} {place : Nat} (hPlace : place < front.length)
    (back : NodeStore α) : NodeStore.childrenOf (front ++ back) place = front.childrenOf place := by
  rw [childrenOf, childrenOf, List.getElem?_append_left hPlace]

/-! ## Reading in closed form -/

mutual

/-- Reading adds the layout of the tree that the data describes. -/
theorem read_eq (parent : Option Nat) (store : NodeStore Symbol) : ∀ data : TreeData,
    read parent store data
      = (Tree.ofData data).map fun tree => store ++ layout parent store.length tree
  | .record kind value none => by
    rw [read, Tree.ofData]
    cases Symbol.ofData kind value <;> rfl
  | .record kind value (some list) => by
    rw [read, Tree.ofData]
    cases Symbol.ofData kind value with
    | error error => rfl
    | ok symbol =>
      dsimp only
      rw [readAll_eq, length_withNode]
      cases Tree.ofDataAll list with
      | error error => rfl
      | ok trees =>
        have hMiddle := withChildren_middle store (layoutAll store.length (store.length + 1) trees)
          ⟨symbol, [], parent⟩ (rootPlaces (store.length + 1) trees)
        simp only [Except.map, withNode, List.append_assoc, List.singleton_append, hMiddle, layout]

theorem readAll_eq (parent : Nat) (store : NodeStore Symbol) : ∀ list : List TreeData,
    readAll parent store list
      = (Tree.ofDataAll list).map fun trees =>
        (store ++ layoutAll parent store.length trees, rootPlaces store.length trees)
  | [] => by
    rw [readAll, Tree.ofDataAll, Except.map, layoutAll, List.append_nil, rootPlaces]
  | data :: rest => by
    rw [readAll, Tree.ofDataAll, read_eq]
    cases Tree.ofData data with
    | error error => rfl
    | ok tree =>
      dsimp only [Except.map]
      rw [readAll_eq, List.length_append, length_layout]
      cases Tree.ofDataAll rest with
      | error error => rfl
      | ok trees => simp only [Except.map, layoutAll, rootPlaces, List.append_assoc]

end

end NodeStore

namespace LinkedTree

open NodeStore (layout layoutAll rootPlaces)

/-- A tree that was read is stored as the layout of the tree that the data describes. -/
theorem map_store_ofData (data : TreeData) :
    (ofData data).map store = (Tree.ofData data).map (layout none 0) := by
  have hRead := NodeStore.read_eq none [] data
  rw [ofData]
  split
  next error hError => exact hError.symm.trans hRead
  next store hStore => exact hStore.symm.trans hRead

theorem map_eq_error_iff {β ε : Type} (f : α → β) {result : Except ε α} {error : ε} :
    result.map f = .error error ↔ result = .error error := by
  cases result with
  | error other => rw [Except.map, Except.error.injEq, Except.error.injEq]
  | ok value => simp only [Except.map, reduceCtorEq]

theorem ofData_eq_error_iff {data : TreeData} {error : TreeDataError} :
    ofData data = .error error ↔ Tree.ofData data = .error error := by
  rw [← map_eq_error_iff store, map_store_ofData, map_eq_error_iff]

theorem exists_of_ofData {data : TreeData} {linked : LinkedTree Symbol}
    (hRead : ofData data = .ok linked) :
    ∃ tree, Tree.ofData data = .ok tree ∧ linked.store = layout none 0 tree := by
  have hStore := map_store_ofData data
  rw [hRead] at hStore
  cases hTree : Tree.ofData data with
  | error error => rw [hTree] at hStore; cases hStore
  | ok tree =>
    rw [hTree] at hStore
    exact ⟨tree, rfl, Except.ok.inj hStore⟩

/-! ## The tree of a layout -/

theorem labelAt_of_labelOf? {tree : LinkedTree α} {place : Nat} {label : α}
    (hLabel : tree.store.labelOf? place = some label) : tree.labelAt place = label := by
  rw [labelAt, hLabel, Option.getD_some]

theorem labelsBelow_eq (tree : LinkedTree α) (place : Nat) :
    tree.labelsBelow place
      = .node (tree.labelAt place) ((tree.store.childrenOf place).map tree.labelsBelow) := by
  rw [labelsBelow, below_eq, Tree.map, Tree.mapAll_eq_map, List.map_map]
  rfl

mutual

theorem labelsBelow_layout {linked : LinkedTree α} {parent : Option Nat} : ∀ (tree : Tree α)
    {front back : NodeStore α} {place : Nat}, front.length = place →
    linked.store = front ++ (layout parent place tree ++ back) →
    linked.labelsBelow place = tree
  | .node label children, front, back, _ => by
    rintro rfl hStore
    rw [layout, List.cons_append] at hStore
    have hLabel : linked.store.labelOf? front.length = some label := by
      simp [hStore, NodeStore.labelOf?]
    have hChildren : linked.store.childrenOf front.length
        = rootPlaces (front.length + 1) children := by
      simp [hStore, NodeStore.childrenOf]
    rw [List.append_cons] at hStore
    have hNext : ∀ node : LinkedNode α, (front ++ [node]).length = front.length + 1 :=
      fun _ => List.length_append
    rw [labelsBelow_eq, labelAt_of_labelOf? hLabel, hChildren,
      labelsBelow_layoutAll children (hNext _) hStore]

theorem labelsBelow_layoutAll {linked : LinkedTree α} {parent : Nat} : ∀ (trees : List (Tree α))
    {front back : NodeStore α} {place : Nat}, front.length = place →
    linked.store = front ++ (layoutAll parent place trees ++ back) →
    (rootPlaces place trees).map linked.labelsBelow = trees
  | [], _, _, _ => fun _ _ => rfl
  | tree :: rest, front, back, place => by
    intro hPlace hStore
    rw [layoutAll, List.append_assoc] at hStore
    have hTree := labelsBelow_layout tree hPlace hStore
    rw [← List.append_assoc] at hStore
    have hNext : (front ++ layout (some parent) place tree).length = place + tree.nodeCount := by
      rw [List.length_append, hPlace, NodeStore.length_layout]
    rw [rootPlaces, List.map_cons, hTree, labelsBelow_layoutAll rest hNext hStore]

end

/-- A tree that was read has the labels and the shape that the data describes. -/
theorem unlinked_of_ofData {data : TreeData} {linked : LinkedTree Symbol}
    (hRead : ofData data = .ok linked) : Tree.ofData data = .ok linked.unlinked := by
  obtain ⟨tree, hTree, hStore⟩ := exists_of_ofData hRead
  have hParts : linked.store = [] ++ (layout none 0 tree ++ []) := by
    rw [hStore, List.append_nil, List.nil_append]
  rw [hTree, unlinked, labelsBelow_layout tree List.length_nil hParts]

/-! ## A layout as a growing tree -/

/-- The trees that a tree becomes with new nodes, one after the other. -/
inductive GrownFrom (start : LinkedTree α) : LinkedTree α → Prop where
  | start : GrownFrom start start
  | attach {tree : LinkedTree α} (place : Fin tree.store.length) (label : α) :
      GrownFrom start tree → GrownFrom start (tree.attach place label)

theorem GrownFrom.trans {first second third : LinkedTree α} (hFirst : GrownFrom first second)
    (hSecond : GrownFrom second third) : GrownFrom first third := by
  induction hSecond with
  | start => exact hFirst
  | attach place label _ ih => exact ih.attach place label

theorem GrownFrom.consistent {start tree : LinkedTree α} (hGrown : GrownFrom start tree)
    (hStart : start.Consistent) : tree.Consistent := by
  induction hGrown with
  | start => exact hStart
  | attach place label _ ih => exact ih.attach place label

mutual

/-- A tree is laid out as the last child of a node if its nodes are attached in order. -/
theorem exists_grownFrom : ∀ (tree : Tree α) (start : LinkedTree α) (place : Nat),
    place < start.store.length → ∃ grown, GrownFrom start grown ∧
      grown.store = start.store.withChildren place
          (start.store.childrenOf place ++ [start.store.length])
        ++ layout (some place) start.store.length tree
  | .node label children, start, place => by
    intro hPlace
    obtain ⟨grown, hGrown, hStore⟩ := exists_grownFrom_all children
      (start.attach ⟨place, hPlace⟩ label) start.store.length (by simp)
    refine ⟨grown, .trans (.attach _ label .start) hGrown, ?_⟩
    -- The new node stands at the end of the store, without children until the others follow it.
    have hNew : start.store.length ≠ place := Nat.ne_of_gt hPlace
    have hNone : (start.store.attach place label).childrenOf start.store.length = [] := by
      rw [NodeStore.childrenOf_attach label hPlace, if_neg hNew,
        childrenOf_of_le start (Nat.le_refl _)]
    have hMiddle := NodeStore.withChildren_middle
      (start.store.withChildren place (start.store.childrenOf place ++ [start.store.length])) []
      ⟨label, [], some place⟩ (rootPlaces (start.store.length + 1) children)
    rw [NodeStore.length_withChildren] at hMiddle
    rw [hStore, store_attach, hNone, NodeStore.length_attach, NodeStore.attach_eq hPlace,
      List.nil_append, hMiddle, layout, List.append_assoc, List.singleton_append]

/-- Trees are laid out as the last children of a node if their nodes are attached in order. -/
theorem exists_grownFrom_all : ∀ (trees : List (Tree α)) (start : LinkedTree α) (place : Nat),
    place < start.store.length → ∃ grown, GrownFrom start grown ∧
      grown.store = start.store.withChildren place
          (start.store.childrenOf place ++ rootPlaces start.store.length trees)
        ++ layoutAll place start.store.length trees
  | [], start, place => by
    intro _
    refine ⟨start, .start, ?_⟩
    rw [rootPlaces, List.append_nil, NodeStore.withChildren_childrenOf, layoutAll, List.append_nil]
  | tree :: rest, start, place => by
    intro hPlace
    obtain ⟨middle, hMiddle, hStore⟩ := exists_grownFrom tree start place hPlace
    have hLength : middle.store.length = start.store.length + tree.nodeCount := by
      rw [hStore, List.length_append, NodeStore.length_withChildren, NodeStore.length_layout]
    obtain ⟨grown, hGrown, hAll⟩ := exists_grownFrom_all rest middle place (by omega)
    refine ⟨grown, hMiddle.trans hGrown, ?_⟩
    have hFront : place < (start.store.withChildren place
        (start.store.childrenOf place ++ [start.store.length])).length := by
      rwa [NodeStore.length_withChildren]
    rw [hAll, hLength, hStore, NodeStore.childrenOf_append hFront,
      NodeStore.withChildren_front hFront, NodeStore.withChildren_withChildren,
      NodeStore.childrenOf_withChildren, if_pos ⟨rfl, hPlace⟩, layoutAll, rootPlaces]
    simp only [List.append_assoc, List.singleton_append]

end

/-- A tree that was read could also have grown from its root. -/
theorem grownFrom_of_ofData {data : TreeData} {linked : LinkedTree Symbol}
    (hRead : ofData data = .ok linked) : ∃ symbol, GrownFrom (single symbol) linked := by
  obtain ⟨⟨symbol, children⟩, -, hStore⟩ := exists_of_ofData hRead
  obtain ⟨grown, hGrown, hAll⟩ := exists_grownFrom_all children (single symbol) 0 Nat.zero_lt_one
  have hSame : grown = linked := by
    ext1
    rw [hAll, hStore, layout]
    rfl
  exact ⟨symbol, hSame ▸ hGrown⟩

end LinkedTree

end CodonGrammar
