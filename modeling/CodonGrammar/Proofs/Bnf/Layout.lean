import CodonGrammar.Proofs.Bnf.Acceptance
import CodonGrammar.Proofs.Bnf.Placement
import Mathlib.Data.List.Nodup

/-!
# Where the added rules are referred to

The head of an added rule is no name of the source. Outside its own rule it is met in the rule
around its group only, once for each time that this rule repeats its alternatives, and in its own
rule at the end of alternatives only (`Outline.GroupLayout`).

`links` says which rule each group is in. The symbols of a tree refer to the groups that are linked
to the rule of the tree, and the alternatives inside a group to those that are linked to its rule
(`Accounts`). As all names are distinct, a group has one link, so it is referred to in one rule.
-/

namespace CodonGrammar.Bnf

/-- How often a rule refers to a non-terminal. -/
def references (rule : Rule) (symbol : NonTerminal) : Nat :=
  (rule.alternatives.map Expression.symbols).flatten.count (.nonTerminal symbol)

/-- The number of alternatives. -/
def Alternatives.count : Alternatives → Nat
  | .single _ => 1
  | .cons _ rest => rest.count + 1

/-- How often the rule of a group repeats the alternatives inside. -/
def Bracket.copies : Bracket → Nat
  | .optional | .zeroOrMore => 1
  | .oneOrMore => 2

/-- Where the rule of a group is, and where it is referred to: as often as its group is repeated in
the rule around it, at the end of its own alternatives, and nowhere else. -/
structure Outline.GroupLayout (outline : Outline) (stated added : List Rule) (group : PlacedGroup)
    (rule : Rule) : Prop where
  lowered : GroupRule group.group rule
  own : (stated ++ added)[group.place]? = some rule
  enclosing : (∃ other, stated[group.around]? = some other ∧ references other rule.head = 1) ∨
    ∃ other otherRule, (other, otherRule) ∈ outline.placed.zip added ∧
      other.place = group.around ∧ references otherRule rule.head = other.bracket.copies
  elsewhere : ∀ place other, (stated ++ added)[place]? = some other → place ≠ group.place →
    place ≠ group.around → references other rule.head = 0
  again : references rule rule.head = if group.bracket = .optional then 0 else group.body.count
  last : ∀ alternative ∈ rule.alternatives,
    .nonTerminal rule.head ∉ alternative.symbols.dropLast

/-! ## Counting references -/

/-- The names of the rules of groups, each with the place of the rule around the group. -/
def links (placed : List PlacedGroup) (added : List Rule) : List (NonTerminal × Nat) :=
  (placed.zip added).map fun (group, rule) => (rule.head, group.around)

theorem links_append {placed more : List PlacedGroup} {added others : List Rule}
    (hLength : placed.length = added.length) :
    links (placed ++ more) (added ++ others) = links placed added ++ links more others := by
  rw [links, List.zip_append hLength, List.map_append]
  rfl

theorem links_count_eq_zero {placed : List PlacedGroup} {place : Nat}
    (h : ∀ group ∈ placed, group.around ≠ place) (added : List Rule) (name : NonTerminal) :
    (links placed added).count (name, place) = 0 := by
  rw [List.count_eq_zero]
  intro hMember
  obtain ⟨⟨group, rule⟩, hEntry, hSame⟩ := List.mem_map.mp hMember
  exact h group (List.of_mem_zip hEntry).1 (Prod.mk.inj hSame).2

/-- The rule of a group repeats alternatives that refer to a name as often as the links say. -/
def Explained (name : NonTerminal) (linked : List (NonTerminal × Nat)) (group : PlacedGroup)
    (rule : Rule) : Prop :=
  ∃ inside, inside.length = group.body.count ∧
    rule.alternatives.map Expression.symbols
      = group.bracket.choices (.nonTerminal rule.head) inside ∧
    inside.flatten.count (.nonTerminal name) = linked.count (name, group.place)

/-- All rules of groups are explained by the links among them. -/
def ExplainedAll (name : NonTerminal) (placed : List PlacedGroup) (added : List Rule) : Prop :=
  ∀ entry ∈ placed.zip added, Explained name (links placed added) entry.1 entry.2

theorem ExplainedAll.append {name : NonTerminal} {placed more : List PlacedGroup}
    {added others : List Rule} (h : ExplainedAll name placed added)
    (hMore : ExplainedAll name more others) (hApart : Apart placed more)
    (hLength : placed.length = added.length) :
    ExplainedAll name (placed ++ more) (added ++ others) := by
  rintro ⟨group, rule⟩ hEntry
  rw [List.zip_append hLength] at hEntry
  rw [links_append hLength]
  -- The groups of one half are in no rule of the other half, so the other links add nothing.
  rcases List.mem_append.mp hEntry with hEntry | hEntry
  · obtain ⟨inside, hInside, hChoices, hCount⟩ := h _ hEntry
    refine ⟨inside, hInside, hChoices, ?_⟩
    have hNone := links_count_eq_zero
      (fun other hOther => (hApart group (List.of_mem_zip hEntry).1 other hOther).2) others name
    rw [List.count_append, hNone, hCount, Nat.add_zero]
  · obtain ⟨inside, hInside, hChoices, hCount⟩ := hMore _ hEntry
    refine ⟨inside, hInside, hChoices, ?_⟩
    have hNone := links_count_eq_zero
      (fun other hOther => (hApart other hOther group (List.of_mem_zip hEntry).1).1) added name
    rw [List.count_append, hNone, hCount, Nat.zero_add]

/-- Symbols refer to a name as often as the links say, and so do the rules of the groups among
them. -/
structure Accounts (name : NonTerminal) (around : Nat) (symbols : List Symbol)
    (placed : List PlacedGroup) (added : List Rule) : Prop where
  length_eq : placed.length = added.length
  here : symbols.count (.nonTerminal name) = (links placed added).count (name, around)
  inner : ExplainedAll name placed added

namespace Accounts

variable {name : NonTerminal} {next around : Nat} {symbols others : List Symbol}
  {placed more : List PlacedGroup} {added later : List Rule}

theorem plain {symbol : Symbol} (h : symbol ≠ .nonTerminal name) :
    Accounts name around [symbol] [] [] where
  length_eq := rfl
  here := by simp [links, h]
  inner := by simp [ExplainedAll]

theorem append (h : Accounts name around symbols placed added)
    (hMore : Accounts name around others more later) (hApart : Apart placed more) :
    Accounts name around (symbols ++ others) (placed ++ more) (added ++ later) where
  length_eq := by rw [List.length_append, List.length_append, h.length_eq, hMore.length_eq]
  here := by rw [links_append h.length_eq, List.count_append, List.count_append, h.here, hMore.here]
  inner := h.inner.append hMore.inner hApart h.length_eq

theorem group {bracket : Bracket} {body : Alternatives} {inside : List (List Symbol)} {rule : Rule}
    (h : Accounts name (next + body.groups.length) inside.flatten placed added)
    (hPlaced : Placement next (· = next + body.groups.length) body.groups placed)
    (hInside : inside.length = body.count)
    (hChoices : rule.alternatives.map Expression.symbols
      = bracket.choices (.nonTerminal rule.head) inside)
    (hOutside : around < next ∨ next + body.groups.length < around) :
    Accounts name around [.nonTerminal rule.head]
      (placed ++ [⟨bracket, body, next + body.groups.length, around⟩]) (added ++ [rule]) where
  length_eq := by rw [List.length_append, List.length_append, h.length_eq]; rfl
  here := by
    have hInner : ∀ group ∈ placed, group.around ≠ around :=
      hPlaced.around_ne (by omega) (by omega)
    rw [links_append h.length_eq, List.count_append, links_count_eq_zero hInner]
    simp [links, List.count_singleton]
  inner := by
    have hLast : ∀ place, place ≠ around →
        (links (placed ++ [⟨bracket, body, next + body.groups.length, around⟩])
            (added ++ [rule])).count (name, place)
          = (links placed added).count (name, place) := by
      intro place hPlace
      rw [links_append h.length_eq, List.count_append, Nat.add_eq_left]
      refine links_count_eq_zero ?_ _ _
      intro group hGroup
      obtain rfl := List.mem_singleton.mp hGroup
      exact hPlace.symm
    rintro ⟨group, other⟩ hEntry
    rw [List.zip_append h.length_eq] at hEntry
    rcases List.mem_append.mp hEntry with hEntry | hEntry
    · obtain ⟨inner, hLength, hInner, hCount⟩ := h.inner _ hEntry
      have hPlace := hPlaced.place_bounds (List.of_mem_zip hEntry).1
      refine ⟨inner, hLength, hInner, ?_⟩
      rw [hLast _ (by dsimp only; omega), hCount]
    · cases List.mem_singleton.mp hEntry
      refine ⟨inside, hInside, hChoices, ?_⟩
      rw [hLast _ (by dsimp only; omega)]
      exact h.here

end Accounts

theorem Alternatives.Lowers.length_inside : ∀ {alternatives : Alternatives}
    {inside : List (List Symbol)} {added : List Rule},
    alternatives.Lowers inside added → inside.length = alternatives.count
  | .single _, _, _, h => by
    cases h
    rfl
  | .cons _ rest, _, _, h => by
    cases h with
    | cons _ hRest => exact congrArg (· + 1) hRest.length_inside

section Lowers

variable {name : NonTerminal}

mutual

theorem Element.Lowers.accounts {next around : Nat} : ∀ {element : Element} {symbol : Symbol}
    {added : List Rule}, element.Lowers symbol added → name ∉ element.nonTerminals →
    (around < next ∨ next + element.groups.length ≤ around) →
    Accounts name around [symbol] (element.placed next around) added
  | _, _, _, .word _ _, _, _ => .plain (by simp)
  | _, _, _, .nonTerminal symbol, hName, _ => by
    refine .plain ?_
    intro hSame
    cases hSame
    exact hName (List.mem_singleton.mpr rfl)
  | .group bracket body, _, _, .group hBody hChoices, hName, hOutside => by
    have hAround : around < next ∨ next + body.groups.length < around := by
      rw [Element.groups, List.length_append, List.length_singleton] at hOutside
      omega
    exact (hBody.accounts hName (.inr (Nat.le_refl _))).group (body.placement next _)
      hBody.length_inside hChoices hAround

theorem Sequence.Lowers.accounts {next around : Nat} : ∀ {sequence : Sequence}
    {symbols : List Symbol} {added : List Rule}, sequence.Lowers symbols added →
    name ∉ sequence.nonTerminals → (around < next ∨ next + sequence.groups.length ≤ around) →
    Accounts name around symbols (sequence.placed next around) added
  | _, _, _, .single hElement, hName, hOutside => hElement.accounts hName hOutside
  | .cons element rest, _, _, .cons hElement hRest, hName, hOutside => by
    rw [Sequence.groups, List.length_append, ← Nat.add_assoc] at hOutside
    obtain ⟨hFirst, hOthers⟩ := not_or.mp (mt List.mem_append.mpr hName)
    refine (hElement.accounts hFirst (by omega)).append (hRest.accounts hOthers (by omega)) ?_
    exact (element.placement next around).apart (rest.placement _ around) fun place hPlace => by
      omega

theorem Alternatives.Lowers.accounts {next around : Nat} : ∀ {alternatives : Alternatives}
    {inside : List (List Symbol)} {added : List Rule}, alternatives.Lowers inside added →
    name ∉ alternatives.nonTerminals →
    (around < next ∨ next + alternatives.groups.length ≤ around) →
    Accounts name around inside.flatten (alternatives.placed next around) added
  | _, _, _, .single hSequence, hName, hOutside => by
    rw [List.flatten_cons, List.flatten_nil, List.append_nil]
    exact hSequence.accounts hName hOutside
  | .cons sequence rest, _, _, .cons hSequence hRest, hName, hOutside => by
    rw [Alternatives.groups, List.length_append, ← Nat.add_assoc] at hOutside
    obtain ⟨hFirst, hOthers⟩ := not_or.mp (mt List.mem_append.mpr hName)
    rw [List.flatten_cons]
    refine (hSequence.accounts hFirst (by omega)).append (hRest.accounts hOthers (by omega)) ?_
    exact (sequence.placement next around).apart (rest.placement _ around) fun place hPlace => by
      omega

end

end Lowers

/-- The rules of a source refer to a name as often as the links say, and so do the rules of its
groups. -/
structure RulesAccount (name : NonTerminal) (place : Nat) (stated : List Rule)
    (placed : List PlacedGroup) (added : List Rule) : Prop where
  length_eq : placed.length = added.length
  here : ∀ index rule, stated[index]? = some rule →
    references rule name = (links placed added).count (name, place + index)
  inner : ExplainedAll name placed added

theorem RulesLower.heads {rules : List SourceRule} {stated added : List Rule}
    (h : RulesLower rules stated added) : stated.map Rule.head = rules.map SourceRule.head := by
  induction h with
  | nil => rfl
  | cons hHead _ _ ih => rw [List.map_cons, List.map_cons, hHead, ih]

theorem RulesLower.length_stated {rules : List SourceRule} {stated added : List Rule}
    (h : RulesLower rules stated added) : stated.length = rules.length := by
  have hLength := congrArg List.length h.heads
  rwa [List.length_map, List.length_map] at hLength

theorem RulesLower.account {name : NonTerminal} {rules : List SourceRule}
    {stated added : List Rule} (h : RulesLower rules stated added)
    (hName : ∀ rule ∈ rules, name ∉ rule.alternatives.nonTerminals) {next place : Nat}
    (hPlace : place + rules.length ≤ next) :
    RulesAccount name place stated (placedGroups next place rules) added := by
  induction h generalizing next place with
  | nil => exact ⟨rfl, by simp, by simp [ExplainedAll, placedGroups]⟩
  | @cons source rule rest stated first others hHead hFirst hRest ih =>
    obtain ⟨hSource, hOthers⟩ := List.forall_mem_cons.mp hName
    rw [List.length_cons] at hPlace
    let more := placedGroups (next + source.alternatives.groups.length) (place + 1) rest
    have hRule : Accounts name place (rule.alternatives.map Expression.symbols).flatten
        (source.alternatives.placed next place) first :=
      hFirst.accounts hSource (.inl (by omega))
    have hMore : RulesAccount name (place + 1) stated more others := ih hOthers (by omega)
    have hPlaced := source.alternatives.placement next place
    have hMorePlaced := placement_rules (next + source.alternatives.groups.length) (place + 1) rest
    constructor
    · rw [placedGroups, List.length_append, List.length_append, hRule.length_eq, hMore.length_eq]
    · intro index other hOther
      rw [placedGroups, links_append hRule.length_eq, List.count_append]
      cases index with
      | zero =>
        cases hOther
        have hNone : ∀ group ∈ more, group.around ≠ place + 0 :=
          hMorePlaced.around_ne (by omega) (by omega)
        rw [links_count_eq_zero hNone]
        exact hRule.here
      | succ index =>
        rw [List.getElem?_cons_succ] at hOther
        have hIndex : index < rest.length := by
          rw [← hRest.length_stated]
          exact (List.getElem?_eq_some_iff.mp hOther).1
        have hNone : ∀ group ∈ source.alternatives.placed next place,
            group.around ≠ place + (index + 1) :=
          hPlaced.around_ne (by omega) (by omega)
        rw [links_count_eq_zero hNone, hMore.here index other hOther, Nat.zero_add,
          Nat.add_assoc, Nat.add_comm 1]
    · refine hRule.inner.append hMore.inner ?_ hRule.length_eq
      have hFirstOuter : Placement next (· < next) source.alternatives.groups
          (source.alternatives.placed next place) := hPlaced.mono fun around hAround => by omega
      have hMoreOuter : Placement (next + source.alternatives.groups.length) (· < next)
          (rest.flatMap fun rule => rule.alternatives.groups) more :=
        hMorePlaced.mono fun around hAround => by omega
      exact hFirstOuter.apart hMoreOuter fun around hBelow => .inl hBelow

/-! ## References of one rule -/

theorem Bracket.count_choices (bracket : Bracket) (again name : NonTerminal)
    (inside : List (List Symbol)) :
    (bracket.choices (.nonTerminal again) inside).flatten.count (.nonTerminal name)
      = bracket.copies * inside.flatten.count (.nonTerminal name)
        + if again = name ∧ bracket ≠ .optional then inside.length else 0 := by
  have hAgain : (inside.map (· ++ [Symbol.nonTerminal again])).flatten.count (.nonTerminal name)
      = inside.flatten.count (.nonTerminal name) + if again = name then inside.length else 0 := by
    induction inside with
    | nil => simp
    | cons symbols rest ih =>
      simp only [List.map_cons, List.flatten_cons, List.count_append, ih, List.count_singleton,
        beq_iff_eq, Symbol.nonTerminal.injEq, List.length_cons]
      split
      · omega
      · omega
  cases bracket with
  | optional => simp [choices, copies]
  | zeroOrMore => simp [choices, copies, hAgain]
  | oneOrMore =>
    simp [choices, copies, hAgain]
    omega

theorem Explained.references_eq {name : NonTerminal} {linked : List (NonTerminal × Nat)}
    {group : PlacedGroup} {rule : Rule} (h : Explained name linked group rule) :
    references rule name
      = group.bracket.copies * linked.count (name, group.place)
        + if rule.head = name ∧ group.bracket ≠ .optional then group.body.count else 0 := by
  obtain ⟨inside, hLength, hChoices, hCount⟩ := h
  rw [references, hChoices, Bracket.count_choices, hCount, hLength]

/-- A name that the alternatives inside do not have is met at the end of alternatives only. -/
theorem Explained.not_mem_dropLast {name : NonTerminal} {linked : List (NonTerminal × Nat)}
    {group : PlacedGroup} {rule : Rule} (h : Explained name linked group rule)
    (hNone : linked.count (name, group.place) = 0) :
    ∀ alternative ∈ rule.alternatives, .nonTerminal name ∉ alternative.symbols.dropLast := by
  obtain ⟨inside, -, hChoices, hCount⟩ := h
  rw [hNone, List.count_eq_zero] at hCount
  have hInside : ∀ symbols ∈ inside, Symbol.nonTerminal name ∉ symbols := by
    intro symbols hSymbols hMember
    exact hCount (List.mem_flatten.mpr ⟨symbols, hSymbols, hMember⟩)
  intro alternative hAlternative
  have hChoice : alternative.symbols ∈ rule.alternatives.map Expression.symbols :=
    List.mem_map_of_mem hAlternative
  rw [hChoices, Bracket.mem_choices] at hChoice
  rcases hChoice with ⟨-, hEmpty⟩ | ⟨-, hOnce⟩ | ⟨-, once, hOnce, hAgain⟩
  · simp [hEmpty]
  · exact fun hMember => hInside _ hOnce ((List.dropLast_sublist _).subset hMember)
  · rw [hAgain, List.dropLast_concat]
    exact hInside once hOnce

/-! ## The layout -/

namespace Outline

variable {outline : Outline} {stated added : List Rule}

namespace LowersTo

variable (h : outline.LowersTo stated added)

include h

theorem length_placed : outline.placed.length = added.length := by
  have hGroups : outline.groups.length = added.length := h.rules.groupRules.length_eq
  rw [outline.placement.length_eq, hGroups]

theorem getElem?_place {group : PlacedGroup} {rule : Rule}
    (hEntry : (group, rule) ∈ outline.placed.zip added) :
    (stated ++ added)[group.place]? = some rule := by
  obtain ⟨index, hIndex⟩ := List.mem_iff_getElem?.mp hEntry
  obtain ⟨hGroup, hRule⟩ := List.getElem?_zip_eq_some.mp hIndex
  rw [place_eq hGroup, ← h.rules.length_stated, List.getElem?_append_right (Nat.le_add_right _ _),
    Nat.add_sub_cancel_left]
  exact hRule

/-- Each rule of the grammar is stated or that of a group. -/
theorem stated_or_entry {place : Nat} {rule : Rule}
    (hRule : (stated ++ added)[place]? = some rule) :
    stated[place]? = some rule ∨
      ∃ group, (group, rule) ∈ outline.placed.zip added ∧ group.place = place := by
  rcases Nat.lt_or_ge place stated.length with hStated | hAdded
  · rw [List.getElem?_append_left hStated] at hRule
    exact .inl hRule
  · rw [List.getElem?_append_right hAdded] at hRule
    have hIndex := (List.getElem?_eq_some_iff.mp hRule).1
    rw [← h.length_placed] at hIndex
    have hGroup := List.getElem?_eq_getElem hIndex
    refine .inr ⟨outline.placed[place - stated.length], ?_, ?_⟩
    · exact List.mem_of_getElem? (List.getElem?_zip_eq_some.mpr ⟨hGroup, hRule⟩)
    · rw [place_eq hGroup, ← h.rules.length_stated, Nat.add_sub_cancel' hAdded]

theorem groupRule {group : PlacedGroup} {rule : Rule}
    (hEntry : (group, rule) ∈ outline.placed.zip added) : GroupRule group.group rule := by
  have hRules := h.rules.groupRules
  have hGroups : outline.rules.flatMap (fun rule => rule.alternatives.groups)
      = outline.placed.map PlacedGroup.group := outline.placement.groups_eq.symm
  rw [hGroups, List.forall₂_map_left_iff] at hRules
  exact List.forall₂_zip hRules hEntry

theorem distinct_entries :
    ((outline.placed.zip added).map fun entry => entry.2.head).Nodup := by
  have hHeads : (outline.placed.zip added).map (fun entry => entry.2.head)
      = ((outline.placed.zip added).map Prod.snd).map Rule.head := by
    rw [List.map_map]
    rfl
  rw [hHeads, List.map_snd_zip (Nat.le_of_eq h.length_placed.symm)]
  exact h.distinct

theorem eq_of_head_eq {group other : PlacedGroup} {rule otherRule : Rule}
    (hEntry : (group, rule) ∈ outline.placed.zip added)
    (hOther : (other, otherRule) ∈ outline.placed.zip added) (hHead : otherRule.head = rule.head) :
    other = group :=
  congrArg Prod.fst (List.inj_on_of_nodup_map h.distinct_entries hOther hEntry hHead)

/-- A group is in one rule only. -/
theorem links_count {group : PlacedGroup} {rule : Rule}
    (hEntry : (group, rule) ∈ outline.placed.zip added) (place : Nat) :
    (links outline.placed added).count (rule.head, place)
      = if group.around = place then 1 else 0 := by
  have hNodup : (links outline.placed added).Nodup := by
    apply List.Nodup.of_map Prod.fst
    rw [links, List.map_map]
    exact h.distinct_entries
  have hMember : (rule.head, place) ∈ links outline.placed added ↔ group.around = place := by
    constructor
    · intro hLink
      obtain ⟨⟨other, otherRule⟩, hOther, hSame⟩ := List.mem_map.mp hLink
      obtain ⟨hHead, hAround⟩ := Prod.mk.inj hSame
      rw [← h.eq_of_head_eq hEntry hOther hHead]
      exact hAround
    · rintro rfl
      exact List.mem_map.mpr ⟨_, hEntry, rfl⟩
  rw [hNodup.count]
  simp only [hMember]

theorem around_lt {group : PlacedGroup} (hGroup : group ∈ outline.placed) :
    group.around < (stated ++ added).length := by
  rw [List.length_append, h.rules.length_stated, ← h.length_placed, outline.placement.length_eq]
  rcases outline.placement.around group hGroup with hAround | hAround
  · omega
  · omega

section Entry

variable {group : PlacedGroup} {rule : Rule} (hEntry : (group, rule) ∈ outline.placed.zip added)

include hEntry

theorem account : RulesAccount rule.head 0 stated outline.placed added := by
  refine h.rules.account ?_ (by omega)
  intro source hSource hWritten
  exact h.fresh rule (List.of_mem_zip hEntry).2
    (List.mem_flatMap.mpr ⟨source, hSource, List.mem_cons_of_mem _ hWritten⟩)

theorem references_stated {place : Nat} {other : Rule} (hOther : stated[place]? = some other) :
    references other rule.head = if group.around = place then 1 else 0 := by
  rw [(h.account hEntry).here place other hOther, h.links_count hEntry, Nat.zero_add]

theorem references_entry {other : PlacedGroup} {otherRule : Rule}
    (hOther : (other, otherRule) ∈ outline.placed.zip added) (hPlace : other.place ≠ group.place) :
    references otherRule rule.head
      = if group.around = other.place then other.bracket.copies else 0 := by
  have hNotOwn : ¬ (otherRule.head = rule.head ∧ other.bracket ≠ .optional) := by
    rintro ⟨hSame, -⟩
    exact hPlace (congrArg PlacedGroup.place (h.eq_of_head_eq hEntry hOther hSame))
  have hReferences := ((h.account hEntry).inner _ hOther).references_eq
  rw [if_neg hNotOwn, Nat.add_zero, h.links_count hEntry] at hReferences
  rw [hReferences]
  dsimp only
  split
  · exact Nat.mul_one _
  · exact Nat.mul_zero _

/-- Every group has its rule where the outline says, and its name is met there and in the rule
around the group only. -/
theorem groupLayout : outline.GroupLayout stated added group rule := by
  have hGroup := (List.of_mem_zip hEntry).1
  have hOwn := (h.account hEntry).inner _ hEntry
  have hNone : (links outline.placed added).count (rule.head, group.place) = 0 := by
    rw [h.links_count hEntry, if_neg (outline.around_ne_place hGroup)]
  constructor
  · exact h.groupRule hEntry
  · exact h.getElem?_place hEntry
  · have hAround := List.getElem?_eq_getElem (h.around_lt hGroup)
    rcases h.stated_or_entry hAround with hOther | ⟨other, hOther, hPlace⟩
    · exact .inl ⟨_, hOther, by rw [h.references_stated hEntry hOther, if_pos rfl]⟩
    · -- The rule around the group is that of another one, so what it says of itself is left out.
      have hAway := outline.around_ne_place hGroup
      refine .inr ⟨other, _, hOther, hPlace, ?_⟩
      rw [h.references_entry hEntry hOther (by omega), if_pos hPlace.symm]
  · intro place other hOther hPlace hAround
    rcases h.stated_or_entry hOther with hStated | ⟨entry, hListed, rfl⟩
    · rw [h.references_stated hEntry hStated, if_neg hAround.symm]
    · rw [h.references_entry hEntry hListed hPlace, if_neg hAround.symm]
  · rw [hOwn.references_eq, hNone]
    cases group.bracket <;> simp
  · exact hOwn.not_mem_dropLast hNone

end Entry

end LowersTo

end Outline

/-- The names of the added rules are not among those that lowering was told to avoid. -/
theorem Outline.lower_fresh (outline : Outline) (names : List String) :
    ∀ rule ∈ (outline.lower names).added, rule.head.name ∉ names := by
  obtain ⟨added, -, hGrows⟩ := exists_lowerRules (outline.rules.map SourceRule.head)
    outline.rules ⟨0, names, []⟩ (fun rule hRule => List.mem_map_of_mem hRule)
  have hAdded : (outline.lower names).added = added := hGrows.added_eq
  rw [hAdded]
  exact hGrows.fresh

theorem start_eq {grammar : Grammar} {outline : Outline} {stated added : List Rule}
    (hRules : grammar.rules = stated ++ added)
    (hHeads : stated.map Rule.head = outline.rules.map SourceRule.head) :
    grammar.start = (outline.rules.head outline.nonempty).head := by
  obtain ⟨sources, hSources⟩ := outline
  obtain ⟨rules, hNonempty⟩ := grammar
  cases sources with
  | nil => exact absurd rfl hSources
  | cons source rest =>
    obtain ⟨rule, others, rfl, hHead, -⟩ := List.map_eq_cons_iff.mp hHeads
    cases hRules
    exact hHead

/-- A source that is accepted states its rules first, and its first head is the start symbol. Then
there is one rule for each group. Its name is written nowhere in the source and differs from those
of the other groups, and it is referred to where its layout says. -/
theorem parse_layout {source : String} {grammar : Grammar}
    (h : Grammar.parse source = .ok grammar) :
    ∃ (list : TokenList) (outline : Outline) (stated added : List Rule),
      tokenize source = .ok list ∧ outline.signs = list.tokens.map Token.sign ∧
      grammar.rules = stated ++ added ∧ outline.LowersTo stated added ∧
      stated.map Rule.head = outline.rules.map SourceRule.head ∧
      grammar.start = (outline.rules.head outline.nonempty).head ∧
      added.length = ((list.tokens.map Token.kind).filterMap Kind.closed?).length ∧
      (added.map Rule.head).Nodup ∧
      (∀ rule ∈ added, ¬ Sign.ofNonTerminal rule.head <:+: list.tokens.map Token.sign) ∧
      outline.placed.map PlacedGroup.group = outline.groups ∧
      List.Forall₂ (outline.GroupLayout stated added) outline.placed added := by
  obtain ⟨list, hTokens⟩ := exists_tokenize_of_parse h
  obtain ⟨outline, hSigns, rfl⟩ := (parse_eq_ok_iff hTokens).mp h
  have hLowers := (outline.lower_lowersTo list.bracketedNames
    fun symbol => outline.name_mem_bracketedNames hSigns).1
  have hGroups : outline.groups.length
      = ((list.tokens.map Token.kind).filterMap Kind.closed?).length := by
    have hClosers := congrArg List.length outline.closers
    rw [hSigns, List.filterMap_map, List.length_map] at hClosers
    rw [← hClosers, List.filterMap_map]
    rfl
  refine ⟨list, outline, _, _, hTokens, hSigns, rfl, hLowers, hLowers.rules.heads,
    start_eq rfl hLowers.rules.heads, ?_, hLowers.distinct, ?_, outline.placement.groups_eq, ?_⟩
  · rw [← hGroups, ← hLowers.length_placed, outline.placement.length_eq]
  · intro rule hRule hWritten
    exact outline.lower_fresh _ rule hRule (TokenList.mem_bracketedNames_of_infix hWritten)
  · exact List.forall₂_iff_zip.mpr ⟨hLowers.length_placed, hLowers.groupLayout⟩

set_option maxRecDepth 10000 in
/-- The inner group is repeated by the outer one, so its name is there twice. -/
theorem parse_layout_nested :
    ∃ grammar inner outer, Grammar.parse "<a>::=({x})" = .ok grammar ∧
      grammar.rules[1]? = some inner ∧ grammar.rules[2]? = some outer ∧
      references outer inner.head = 2 ∧ references inner inner.head = 1 := by
  let x : Terminal := ⟨"x", by decide⟩
  let body : Alternatives := .single (.single (.word .name x))
  let around : Alternatives := .single (.single (.group .zeroOrMore body))
  let expected : Outline := ⟨[⟨⟨"a"⟩, .single (.single (.group .oneOrMore around))⟩], by simp⟩
  have hTokens : tokenize "<a>::=({x})" = .ok ⟨[⟨.mark .lt, 0⟩, ⟨.word .name ⟨"a", by decide⟩, 1⟩,
      ⟨.mark .gt, 2⟩, ⟨.mark .assign, 3⟩, ⟨.mark .lparen, 6⟩, ⟨.mark .lbrace, 7⟩,
      ⟨.word .name x, 8⟩, ⟨.mark .rbrace, 9⟩, ⟨.mark .rparen, 10⟩], 11⟩ := by
    cbv
  have hParse := (parse_eq_ok_iff hTokens).mpr ⟨expected, rfl, rfl⟩
  obtain ⟨list, outline, stated, added, hList, hSigns, hRules, -, hHeads, -, -, -, -, -, hLayout⟩ :=
    parse_layout hParse
  cases hList.symm.trans hTokens
  obtain rfl : outline = expected := Outline.eq_of_signs_eq hSigns rfl
  have hPlaced : expected.placed = [⟨.zeroOrMore, body, 1, 2⟩, ⟨.oneOrMore, around, 2, 0⟩] := rfl
  rw [hPlaced] at hLayout
  obtain ⟨inner, rest, hInner, hRest, rfl⟩ := List.forall₂_cons_left_iff.mp hLayout
  obtain ⟨outer, others, hOuter, -, rfl⟩ := List.forall₂_cons_left_iff.mp hRest
  refine ⟨_, inner, outer, hParse, ?_, ?_, ?_, hInner.again⟩
  · rw [hRules]
    exact hInner.own
  · rw [hRules]
    exact hOuter.own
  · rcases hInner.enclosing with ⟨other, hOther, -⟩ | ⟨other, otherRule, hOther, hPlace, hTwice⟩
    · have hLength : (stated.map Rule.head).length = 1 := congrArg List.length hHeads
      have hPlace : 2 < stated.length := (List.getElem?_eq_some_iff.mp hOther).1
      rw [List.length_map] at hLength
      omega
    · rw [hPlaced, List.zip_cons_cons, List.zip_cons_cons, List.zip_nil_left] at hOther
      rcases List.mem_cons.mp hOther with hFirst | hSecond
      · cases hFirst
        cases hPlace
      · cases List.mem_singleton.mp hSecond
        exact hTwice

end CodonGrammar.Bnf
