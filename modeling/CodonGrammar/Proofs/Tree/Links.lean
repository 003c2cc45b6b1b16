import CodonGrammar.Tree.Linked
import Mathlib.Data.List.Induction
import Mathlib.Data.List.Nodup

/-!
# Links in both directions

A linked tree is consistent if the two directions of its links agree, no node lists a child twice,
and every node but the root has a parent. These are facts about one node at a time, and each new
node keeps them (`Consistent.attach`). Together they make the store a tree: every node is at the end
of exactly one way down from the root (`Consistent.exists_follow`, `Consistent.follow_injective`),
and the way up from a node goes through the same nodes as the way down (`Consistent.path_eq`).
-/

namespace CodonGrammar.LinkedTree

variable {α : Type} (tree : LinkedTree α)

/-! ## The way down -/

theorem below_eq (place : Nat) :
    tree.below place = .node place ((tree.store.childrenOf place).map tree.below) := by
  rw [below, List.attach_map_val]

theorem follow_cons (place index : Nat) (rest : Address) :
    tree.follow place (index :: rest)
      = (tree.store.childrenOf place)[index]?.bind fun child => tree.follow child rest := rfl

theorem follow_append (place : Nat) (first second : Address) :
    tree.follow place (first ++ second)
      = (tree.follow place first).bind fun middle => tree.follow middle second := by
  induction first generalizing place with
  | nil => rfl
  | cons index rest ih =>
    rw [List.cons_append, follow_cons, follow_cons, Option.bind_assoc]
    exact congrArg _ (funext ih)

theorem follow_concat (place : Nat) (address : Address) (index : Nat) :
    tree.follow place (address ++ [index])
      = (tree.follow place address).bind fun last => (tree.store.childrenOf last)[index]? := by
  rw [follow_append]
  congr 1
  funext last
  exact Option.bind_fun_some _

/-- The tree below a node has at an address what is below the node at the end of the way. -/
theorem at?_below (place : Nat) (address : Address) :
    (tree.below place).at? address = (tree.follow place address).map tree.below := by
  induction address generalizing place with
  | nil => rw [Tree.at?, follow, Option.map_some]
  | cons index rest ih =>
    rw [below_eq, follow_cons, Tree.at?, List.getElem?_map]
    cases (tree.store.childrenOf place)[index]? with
    | none => rfl
    | some child => exact ih child

variable {tree}

section Attaching

variable (place : Fin tree.store.length) (label : α)

theorem childrenOf_attach_self : (tree.attach place label).store.childrenOf place
    = tree.store.childrenOf place ++ [tree.store.length] := by
  rw [store_attach, NodeStore.childrenOf_attach label place.isLt, if_pos rfl]

theorem childrenOf_attach_of_ne {other : Nat} (hOther : other ≠ place.val) :
    (tree.attach place label).store.childrenOf other = tree.store.childrenOf other := by
  rw [store_attach, NodeStore.childrenOf_attach label place.isLt, if_neg hOther]

theorem parentOf?_attach_new :
    (tree.attach place label).store.parentOf? tree.store.length = some place.val := by
  rw [store_attach, NodeStore.parentOf?_attach, if_pos rfl]

theorem parentOf?_attach_of_ne {other : Nat} (hOther : other ≠ tree.store.length) :
    (tree.attach place label).store.parentOf? other = tree.store.parentOf? other := by
  rw [store_attach, NodeStore.parentOf?_attach, if_neg hOther]

end Attaching

/-! ## Consistent links -/

/-- The two directions of the links agree, and the root is the only node without a parent. -/
structure Consistent (tree : LinkedTree α) : Prop where
  parent_iff {child parent : Nat} :
    tree.store.parentOf? child = some parent ↔ child ∈ tree.store.childrenOf parent
  distinct (place : Nat) : (tree.store.childrenOf place).Nodup
  grounded {place : Nat} : 0 < place → place < tree.store.length →
    ∃ parent, tree.store.parentOf? place = some parent

theorem parentOf?_root (tree : LinkedTree α) : tree.store.parentOf? 0 = none := by
  cases hParent : tree.store.parentOf? 0 with
  | none => rfl
  | some parent => exact absurd (tree.ordered.parent_earlier hParent) (Nat.not_lt_zero _)

theorem childrenOf_of_le (tree : LinkedTree α) {place : Nat} (hPlace : tree.store.length ≤ place) :
    tree.store.childrenOf place = [] := by
  rw [NodeStore.childrenOf, List.getElem?_eq_none hPlace]
  rfl

theorem length_notMem_childrenOf (tree : LinkedTree α) (place : Nat) :
    tree.store.length ∉ tree.store.childrenOf place :=
  fun hChild => Nat.lt_irrefl _ (tree.ordered.children_later hChild).2

namespace Consistent

theorem single (label : α) : (single label).Consistent where
  parent_iff := by
    intro child parent
    cases child <;> cases parent <;> simp [NodeStore.parentOf?, NodeStore.childrenOf]
  distinct := by
    intro place
    cases place <;> simp [NodeStore.childrenOf]
  grounded := by
    intro place hAbove hPlace
    rw [store_single, List.length_singleton] at hPlace
    omega

variable (hTree : tree.Consistent)

include hTree

theorem attach (place : Fin tree.store.length) (label : α) :
    (tree.attach place label).Consistent where
  parent_iff := by
    intro child parent
    have hNew := tree.length_notMem_childrenOf
    by_cases hChild : child = tree.store.length
    · rw [hChild, parentOf?_attach_new]
      by_cases hParent : parent = place
      · subst hParent
        rw [childrenOf_attach_self]
        exact iff_of_true rfl (List.mem_append_right _ (List.mem_singleton.mpr rfl))
      · rw [childrenOf_attach_of_ne place label hParent]
        exact iff_of_false (fun hSame => hParent (Option.some.inj hSame).symm) (hNew parent)
    · rw [parentOf?_attach_of_ne place label hChild, hTree.parent_iff]
      by_cases hParent : parent = place
      · subst hParent
        rw [childrenOf_attach_self, List.mem_append, List.mem_singleton, or_iff_left hChild]
      · rw [childrenOf_attach_of_ne place label hParent]
  distinct := by
    intro other
    by_cases hOther : other = place
    · subst hOther
      have hConcat := (hTree.distinct place).concat (tree.length_notMem_childrenOf place)
      rwa [List.concat_eq_append, ← childrenOf_attach_self place label] at hConcat
    · rw [childrenOf_attach_of_ne place label hOther]
      exact hTree.distinct other
  grounded := by
    intro other hAbove hOther
    rw [store_attach, NodeStore.length_attach] at hOther
    by_cases hNew : other = tree.store.length
    · exact ⟨place, hNew ▸ parentOf?_attach_new place label⟩
    · rw [parentOf?_attach_of_ne place label hNew]
      exact hTree.grounded hAbove (by omega)

/-! ## One way down to each node -/

theorem exists_follow {place : Nat} (hPlace : place < tree.store.length) :
    ∃ address, tree.follow 0 address = some place := by
  induction place using Nat.strongRecOn with
  | ind place ih =>
    rcases Nat.eq_zero_or_pos place with rfl | hAbove
    · exact ⟨[], rfl⟩
    · obtain ⟨parent, hParent⟩ := hTree.grounded hAbove hPlace
      have hEarlier := tree.ordered.parent_earlier hParent
      obtain ⟨address, hAddress⟩ := ih parent hEarlier (Nat.lt_trans hEarlier hPlace)
      obtain ⟨index, hIndex⟩ := List.mem_iff_getElem?.mp (hTree.parent_iff.mp hParent)
      exact ⟨address ++ [index], by rw [follow_concat, hAddress, Option.bind_some, hIndex]⟩

omit hTree in
/-- A way of at least one step ends at a child of the node before. -/
theorem exists_parent_of_follow {address : Address} {index place : Nat}
    (hFollow : tree.follow 0 (address ++ [index]) = some place) :
    ∃ parent, tree.follow 0 address = some parent ∧
      (tree.store.childrenOf parent)[index]? = some place := by
  rw [follow_concat] at hFollow
  exact Option.bind_eq_some_iff.mp hFollow

theorem follow_injective {first second : Address} {place : Nat}
    (hFirst : tree.follow 0 first = some place) (hSecond : tree.follow 0 second = some place) :
    first = second := by
  -- A way with a last step ends at a later place than the root.
  have hRoot : ∀ {address : Address} {index : Nat},
      tree.follow 0 (address ++ [index]) ≠ some 0 := by
    intro address index hFollow
    obtain ⟨parent, -, hChild⟩ := exists_parent_of_follow hFollow
    have hLater := tree.ordered.children_later (List.mem_of_getElem? hChild)
    omega
  induction first using List.reverseRecOn generalizing second place with
  | nil =>
    cases hFirst
    rcases List.eq_nil_or_concat' second with rfl | ⟨address, index, rfl⟩
    · rfl
    · exact absurd hSecond hRoot
  | append_singleton before index ih =>
    rcases List.eq_nil_or_concat' second with rfl | ⟨address, other, rfl⟩
    · cases hSecond
      exact absurd hFirst hRoot
    · obtain ⟨parent, hBefore, hIndex⟩ := exists_parent_of_follow hFirst
      obtain ⟨above, hAddress, hOther⟩ := exists_parent_of_follow hSecond
      have hParent := hTree.parent_iff.mpr (List.mem_of_getElem? hIndex)
      have hAbove := hTree.parent_iff.mpr (List.mem_of_getElem? hOther)
      obtain rfl : parent = above := Option.some.inj (hParent.symm.trans hAbove)
      obtain rfl : index = other :=
        (List.getElem?_inj (List.getElem?_eq_some_iff.mp hIndex).1 (hTree.distinct parent)).mp
          (hIndex.trans hOther.symm)
      rw [ih hBefore hAddress]

/-! ## The way up -/

omit hTree in
theorem path_root (tree : LinkedTree α) : tree.path 0 = [0] := by
  rw [path, lineage]
  split
  next => rfl
  next parent hParent => rw [parentOf?_root] at hParent; cases hParent

omit hTree in
theorem path_of_parent {place parent : Nat} (hParent : tree.store.parentOf? place = some parent) :
    tree.path place = tree.path parent ++ [place] := by
  rw [path, lineage]
  split
  next hNone => rw [hParent] at hNone; cases hNone
  next other hOther =>
    cases hParent.symm.trans hOther
    rw [List.reverse_cons, path]

/-- The way up from a node goes through the nodes on the way down to it. -/
theorem path_eq {address : Address} {place : Nat}
    (hFollow : tree.follow 0 address = some place) :
    (tree.path place).length = address.length + 1 ∧
      ∀ level ≤ address.length, (tree.path place)[level]? = tree.follow 0 (address.take level) := by
  induction address using List.reverseRecOn generalizing place with
  | nil =>
    cases hFollow
    rw [path_root]
    refine ⟨rfl, fun level hLevel => ?_⟩
    cases Nat.le_zero.mp hLevel
    rfl
  | append_singleton before index ih =>
    obtain ⟨parent, hBefore, hIndex⟩ := exists_parent_of_follow hFollow
    obtain ⟨hLength, hLevels⟩ := ih hBefore
    rw [path_of_parent (hTree.parent_iff.mpr (List.mem_of_getElem? hIndex)), List.length_append,
      List.length_append, hLength]
    refine ⟨rfl, fun level hLevel => ?_⟩
    rcases Nat.lt_or_ge before.length level with hLast | hAbove
    · have hAll : level = before.length + 1 := by
        rw [List.length_singleton] at hLevel
        omega
      rw [hAll, ← hLength, List.getElem?_concat_length, hLength,
        List.take_of_length_le (by simp), hFollow]
    · rw [List.getElem?_append_left (by omega), hLevels level hAbove,
        List.take_append_of_le_length hAbove]

end Consistent

/-! ## The way down in a grown tree -/

section Attaching

variable (place : Fin tree.store.length) (label : α)

theorem below_new : (tree.attach place label).below tree.store.length
    = .leaf tree.store.length := by
  rw [below_eq, childrenOf_attach_of_ne place label (Nat.ne_of_gt place.isLt),
    childrenOf_of_le tree (Nat.le_refl _)]
  rfl

/-- What does not lead to the node that got a child is as before. -/
theorem below_attach_of_not_follow {start : Nat}
    (hAway : ∀ address, tree.follow start address ≠ some place.val) :
    (tree.attach place label).below start = tree.below start := by
  induction start using LinkedTree.below.induct tree with
  | case1 start ih =>
    have hStart : start ≠ place := fun hSame => hAway [] (hSame ▸ rfl)
    rw [below_eq, below_eq, childrenOf_attach_of_ne place label hStart]
    congr 1
    apply List.map_congr_left
    intro child hChild
    apply ih child hChild
    intro address hFollow
    obtain ⟨index, hIndex⟩ := List.mem_iff_getElem?.mp hChild
    exact hAway (index :: address) (by rw [follow_cons, hIndex, Option.bind_some, hFollow])

/-- A node with one way down to it gets its child at the end of that way. -/
theorem below_attach {start : Nat} {address : Address}
    (hFollow : tree.follow start address = some place.val)
    (hOnly : ∀ other, tree.follow start other = some place.val → other = address) :
    (tree.attach place label).below start
      = (tree.below start).attachAt address tree.store.length := by
  induction address generalizing start with
  | nil =>
    obtain rfl : start = place := Option.some.inj hFollow
    have hOld : ∀ child ∈ tree.store.childrenOf place,
        (tree.attach place label).below child = tree.below child := by
      intro child hChild
      apply below_attach_of_not_follow
      intro address hAddress
      obtain ⟨index, hIndex⟩ := List.mem_iff_getElem?.mp hChild
      have hLonger : tree.follow place (index :: address) = some place.val := by
        rw [follow_cons, hIndex, Option.bind_some, hAddress]
      exact List.cons_ne_nil _ _ (hOnly _ hLonger)
    rw [below_eq, below_eq, childrenOf_attach_self, List.map_append, List.map_congr_left hOld,
      List.map_singleton, below_new, Tree.attachAt]
  | cons index rest ih =>
    obtain ⟨child, hChild, hRest⟩ := Option.bind_eq_some_iff.mp hFollow
    have hStart : start ≠ place := by
      rintro rfl
      exact List.cons_ne_nil _ _ (hOnly [] rfl).symm
    rw [below_eq, below_eq, childrenOf_attach_of_ne place label hStart, Tree.attachAt]
    congr 1
    apply List.ext_getElem?
    intro other
    rw [List.getElem?_modify, List.getElem?_map, List.getElem?_map]
    cases hOther : (tree.store.childrenOf start)[other]? with
    | none => rfl
    | some found =>
      have hStep : ∀ address, tree.follow found address = some place.val →
          other :: address = index :: rest := by
        intro address hAddress
        apply hOnly
        rw [follow_cons, hOther, Option.bind_some, hAddress]
      simp only [Option.map_some, Option.map_eq_map]
      by_cases hSame : index = other
      · subst hSame
        obtain rfl : child = found := Option.some.inj (hChild.symm.trans hOther)
        rw [if_pos rfl, ih hRest fun address hAddress => (List.cons.inj (hStep address hAddress)).2]
      · rw [if_neg hSame, below_attach_of_not_follow]
        intro address hAddress
        exact hSame (List.cons.inj (hStep address hAddress)).1.symm

end Attaching

/-- One more node in a consistent tree is one more leaf of the tree of places. -/
theorem Consistent.places_attach (hTree : tree.Consistent) {address : Address}
    {place : Fin tree.store.length} (hFollow : tree.follow 0 address = some place.val)
    (label : α) :
    (tree.attach place label).places = tree.places.attachAt address tree.store.length :=
  below_attach place label hFollow fun _ hOther => hTree.follow_injective hOther hFollow

end CodonGrammar.LinkedTree
