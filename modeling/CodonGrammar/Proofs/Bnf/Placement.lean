import CodonGrammar.Proofs.Bnf.LoweredRules

/-!
# The places of the rules of groups

The rules of a source come first in its grammar, then one rule for each group, in the order in which
the groups close. So the place of each rule is known from the outline alone, and so is the place of
the rule immediately around each group, that of a source rule or of another group
(`Outline.placed`). A group closes before the one around it (`Placement`).
-/

namespace CodonGrammar.Bnf

/-- A group, with the places of its own rule and of the rule immediately around it among the rules
of a grammar. -/
structure PlacedGroup where
  bracket : Bracket
  body : Alternatives
  place : Nat
  around : Nat

mutual

/-- The groups of an element, each after those inside it. Their rules have the places from `next`
on, and the element is in the rule at the place `around`. -/
def Element.placed (next around : Nat) : Element → List PlacedGroup
  | .word _ _ | .nonTerminal _ => []
  | .group bracket body =>
    let place := next + body.groups.length
    body.placed next place ++ [⟨bracket, body, place, around⟩]

/-- The groups of a sequence. -/
def Sequence.placed (next around : Nat) : Sequence → List PlacedGroup
  | .single element => element.placed next around
  | .cons element rest =>
    element.placed next around ++ rest.placed (next + element.groups.length) around

/-- The groups of alternatives. -/
def Alternatives.placed (next around : Nat) : Alternatives → List PlacedGroup
  | .single sequence => sequence.placed next around
  | .cons sequence rest =>
    sequence.placed next around ++ rest.placed (next + sequence.groups.length) around

end

/-- The groups of rules that have the places from `place` on. -/
def placedGroups : (next place : Nat) → List SourceRule → List PlacedGroup
  | _, _, [] => []
  | next, place, rule :: rest =>
    rule.alternatives.placed next place
      ++ placedGroups (next + rule.alternatives.groups.length) (place + 1) rest

/-- The groups of a source. Their rules are behind those of the source. -/
def Outline.placed (outline : Outline) : List PlacedGroup :=
  placedGroups outline.rules.length 0 outline.rules

def PlacedGroup.group (placed : PlacedGroup) : Bracket × Alternatives :=
  (placed.bracket, placed.body)

/-- The groups have the places from `next` on. Each is in one of the rules around all of them, or in
the rule of a group among them, which closes later. -/
structure Placement (next : Nat) (outer : Nat → Prop) (groups : List (Bracket × Alternatives))
    (placed : List PlacedGroup) : Prop where
  groups_eq : placed.map PlacedGroup.group = groups
  places_eq : placed.map PlacedGroup.place = List.range' next groups.length
  around : ∀ group ∈ placed,
    outer group.around ∨ group.place < group.around ∧ group.around < next + groups.length

namespace Placement

variable {next : Nat} {outer : Nat → Prop} {groups others : List (Bracket × Alternatives)}
  {placed more : List PlacedGroup}

theorem length_eq (h : Placement next outer groups placed) : placed.length = groups.length := by
  rw [← h.groups_eq, List.length_map]

theorem place_bounds (h : Placement next outer groups placed) {group : PlacedGroup}
    (hGroup : group ∈ placed) : next ≤ group.place ∧ group.place < next + groups.length := by
  have hPlace : group.place ∈ placed.map PlacedGroup.place := List.mem_map_of_mem hGroup
  rw [h.places_eq] at hPlace
  exact List.mem_range'_1.mp hPlace

/-- A rule that is neither around all groups nor that of one of them has no group in it. -/
theorem around_ne (h : Placement next outer groups placed) {place : Nat} (hOuter : ¬ outer place)
    (hPlace : place < next ∨ next + groups.length ≤ place) :
    ∀ group ∈ placed, group.around ≠ place := by
  rintro group hGroup rfl
  have hBounds := h.place_bounds hGroup
  rcases h.around group hGroup with hAround | hAround
  · exact hOuter hAround
  · omega

theorem mono {wider : Nat → Prop} (h : Placement next outer groups placed)
    (hWider : ∀ place, outer place → wider place) : Placement next wider groups placed where
  groups_eq := h.groups_eq
  places_eq := h.places_eq
  around := fun group hGroup => (h.around group hGroup).imp (hWider _) id

theorem nil : Placement next outer [] [] where
  groups_eq := rfl
  places_eq := rfl
  around := by simp

theorem append (h : Placement next outer groups placed)
    (hMore : Placement (next + groups.length) outer others more) :
    Placement next outer (groups ++ others) (placed ++ more) where
  groups_eq := by rw [List.map_append, h.groups_eq, hMore.groups_eq]
  places_eq := by
    rw [List.map_append, h.places_eq, hMore.places_eq, List.range'_append_1, List.length_append]
  around := by
    intro group hGroup
    rw [List.length_append]
    rcases List.mem_append.mp hGroup with hGroup | hGroup
    · exact (h.around group hGroup).imp id (by omega)
    · exact (hMore.around group hGroup).imp id (by omega)

/-- A group behind those inside it. -/
theorem group {around : Nat} (bracket : Bracket) {body : Alternatives}
    (h : Placement next (· = next + body.groups.length) body.groups placed) :
    Placement next (· = around) (body.groups ++ [(bracket, body)])
      (placed ++ [⟨bracket, body, next + body.groups.length, around⟩]) where
  groups_eq := by
    rw [List.map_append, h.groups_eq]
    rfl
  places_eq := by
    rw [List.map_append, h.places_eq, List.length_append, List.length_singleton,
      ← List.range'_append_1]
    rfl
  around := by
    intro group hGroup
    rw [List.length_append, List.length_singleton]
    rcases List.mem_append.mp hGroup with hInner | hLast
    · have hPlace := h.place_bounds hInner
      rcases h.around group hInner with hAround | hAround
      · exact .inr (by omega)
      · exact .inr (by omega)
    · obtain rfl := List.mem_singleton.mp hLast
      exact .inl rfl

end Placement

mutual

theorem Element.placement (next around : Nat) : ∀ element : Element,
    Placement next (· = around) element.groups (element.placed next around)
  | .word _ _ => .nil
  | .nonTerminal _ => .nil
  | .group bracket body => .group bracket (body.placement next _)

theorem Sequence.placement (next around : Nat) : ∀ sequence : Sequence,
    Placement next (· = around) sequence.groups (sequence.placed next around)
  | .single element => element.placement next around
  | .cons element rest => (element.placement next around).append (rest.placement _ around)

theorem Alternatives.placement (next around : Nat) : ∀ alternatives : Alternatives,
    Placement next (· = around) alternatives.groups (alternatives.placed next around)
  | .single sequence => sequence.placement next around
  | .cons sequence rest => (sequence.placement next around).append (rest.placement _ around)

end

theorem placement_rules (next place : Nat) (rules : List SourceRule) :
    Placement next (fun around => place ≤ around ∧ around < place + rules.length)
      (rules.flatMap fun rule => rule.alternatives.groups) (placedGroups next place rules) := by
  induction rules generalizing next place with
  | nil => exact .nil
  | cons rule rest ih =>
    have hFirst := rule.alternatives.placement next place
    refine (hFirst.mono ?_).append ((ih _ (place + 1)).mono ?_)
    · intro around hAround
      rw [List.length_cons]
      omega
    · intro around hAround
      rw [List.length_cons]
      omega

/-- No group is in the rule of one of the others. -/
def Apart (placed more : List PlacedGroup) : Prop :=
  ∀ group ∈ placed, ∀ other ∈ more, group.around ≠ other.place ∧ other.around ≠ group.place

theorem Placement.apart {next : Nat} {outer : Nat → Prop}
    {groups others : List (Bracket × Alternatives)} {placed more : List PlacedGroup}
    (h : Placement next outer groups placed)
    (hMore : Placement (next + groups.length) outer others more)
    (hOuter : ∀ place, outer place → place < next ∨ next + groups.length + others.length ≤ place) :
    Apart placed more := by
  intro group hGroup other hOther
  have hPlace := h.place_bounds hGroup
  have hOtherPlace := hMore.place_bounds hOther
  have hInside : ∀ place, next ≤ place → place < next + groups.length + others.length →
      ¬ outer place := by
    intro place hFrom hBelow hAround
    have hOutside := hOuter place hAround
    omega
  exact ⟨h.around_ne (hInside _ (by omega) (by omega)) (by omega) group hGroup,
    hMore.around_ne (hInside _ (by omega) (by omega)) (by omega) other hOther⟩

namespace Outline

theorem placement (outline : Outline) :
    Placement outline.rules.length (· < outline.rules.length) outline.groups outline.placed :=
  (placement_rules _ 0 outline.rules).mono fun around hAround => by omega

variable {outline : Outline}

theorem around_ne_place {group : PlacedGroup} (hGroup : group ∈ outline.placed) :
    group.around ≠ group.place := by
  have hPlace := outline.placement.place_bounds hGroup
  rcases outline.placement.around group hGroup with hAround | hAround
  · omega
  · omega

theorem place_eq {index : Nat} {group : PlacedGroup} (h : outline.placed[index]? = some group) :
    group.place = outline.rules.length + index := by
  have hPlace : (outline.placed.map PlacedGroup.place)[index]? = some group.place := by
    rw [List.getElem?_map, h]
    rfl
  rw [outline.placement.places_eq] at hPlace
  obtain ⟨hIndex, hValue⟩ := List.getElem?_eq_some_iff.mp hPlace
  rw [List.getElem_range'] at hValue
  omega

end Outline

end CodonGrammar.Bnf
