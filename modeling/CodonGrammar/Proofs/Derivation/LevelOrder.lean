import CodonGrammar.Proofs.Derivation.Serving
import CodonGrammar.Proofs.Tree.Places

/-!
# From left to right is level by level

A tree can be grown level by level: the leaves that have a rule wait in a queue, the first of them
is expanded, and its children that have a rule go to the end of the queue. With the same chooser,
this asks the same queries as deriving a sentence from left to right, and the leaves of the tree are
the sentence (`Grammar.derive_agrees_levels`).

A pass under way shows the leaves of the tree: those that it has put together and those that it
still has to go through. The leaves that wait are first the ones of the second part and then the
ones of the first part, which belong to the next pass (`Pass.Shows`).
-/

namespace CodonGrammar

variable {σ ε : Type}

/-- A tree, and its leaves that wait for their expansion, each with its address and its rule. -/
structure Growth where
  tree : DerivationTree
  waiting : List (Address × Rule)

namespace Grammar

variable (grammar : Grammar) (chooser : Chooser σ ε)

/-- The places whose symbols have a rule, with the rule instead of the symbol. -/
def expandable (places : List (Address × Symbol)) : List (Address × Rule) :=
  places.filterMap fun (address, symbol) =>
    (grammar.expansionOf? symbol).map fun rule => (address, rule)

/-- The first leaf in the queue is expanded, and its new children join the queue. -/
def levelExpander : Expander Growth := fun growth =>
  match growth.waiting with
  | [] => none
  | (address, rule) :: rest =>
    some (rule, fun alternative =>
      ⟨growth.tree.attachAll address alternative.symbols,
        rest ++ grammar.expandable (Tree.childPlaces address alternative.symbols)⟩)

/-- The start symbol alone. -/
def seed : Growth :=
  ⟨.leaf (.nonTerminal grammar.start), grammar.expandable [([], .nonTerminal grammar.start)]⟩

/-- Derives a tree level by level with at most `limit` expansions. -/
def deriveLevels (limit : Nat) (state : σ) : Answer σ (ChoiceError ε) (Derived DerivationTree) :=
  (grammar.levelExpander.run chooser limit grammar.seed state).map fun (growth, left) =>
    ⟨growth.tree, limit - left⟩

/-! ## The leaves that wait -/

variable {grammar}

theorem expandable_append (first second : List (Address × Symbol)) :
    grammar.expandable (first ++ second) = grammar.expandable first ++ grammar.expandable second :=
  List.filterMap_append

theorem expandable_finished {places : List (Address × Symbol)}
    (h : grammar.Finished (places.map Prod.snd)) : grammar.expandable places = [] := by
  rw [expandable, List.filterMap_eq_nil_iff]
  intro place hPlace
  rw [Option.map_eq_none_iff]
  exact h _ (List.mem_map_of_mem hPlace)

/-- The first symbol with a rule is the first one that waits. -/
theorem expandable_of_split {places : List (Address × Symbol)} {before after : List Symbol}
    {rule : Rule}
    (h : grammar.splitAtExpandable (places.map Prod.snd) = some (before, rule, after)) :
    ∃ front address symbol back, places = front ++ (address, symbol) :: back ∧
      front.map Prod.snd = before ∧ back.map Prod.snd = after ∧
      grammar.expandable front = [] ∧
      grammar.expandable places = (address, rule) :: grammar.expandable back := by
  obtain ⟨symbol, hPlaces, hRule, hBefore⟩ := splitAtExpandable_eq_some h
  obtain ⟨front, rest, rfl, rfl, hRest⟩ := List.map_eq_append_iff.mp hPlaces
  obtain ⟨⟨address, symbol⟩, back, rfl, rfl, rfl⟩ := List.map_eq_cons_iff.mp hRest
  have hFront := expandable_finished hBefore
  refine ⟨front, address, symbol, back, rfl, rfl, rfl, hFront, ?_⟩
  rw [expandable_append, hFront]
  simp [expandable, hRule]

end Grammar

/-! ## Passes and levels -/

/-- The leaves of the tree are the symbols of the pass. The ones that wait first are those that the
pass still has to go through. -/
def Pass.Shows (grammar : Grammar) (pass : Pass) (growth : Growth) : Prop :=
  ∃ made left : List (Address × Symbol), growth.tree.leafPlaces = made ++ left ∧
    pass = ⟨made.map Prod.snd, left.map Prod.snd⟩ ∧
    growth.waiting = grammar.expandable left ++ grammar.expandable made

namespace Pass.Shows

variable {grammar : Grammar} {pass : Pass} {growth : Growth}

theorem sentence_eq (h : pass.Shows grammar growth) : pass.sentence = growth.tree.sentence := by
  obtain ⟨made, left, hTree, rfl, -⟩ := h
  rw [Tree.sentence, Tree.fringe_eq_leafLabels, ← Tree.leafPlaces_labels, hTree, List.map_append,
    Pass.sentence]

/-- At the end of a pass the next one shows the same tree. -/
theorem again (h : pass.Shows grammar growth) (hLeft : grammar.Finished pass.left) :
    Shows grammar ⟨[], pass.sentence⟩ growth := by
  obtain ⟨made, left, hTree, rfl, hWaiting⟩ := h
  refine ⟨[], made ++ left, hTree, ?_, ?_⟩
  · rw [Pass.sentence, List.map_append, List.map_nil]
  · rw [hWaiting, Grammar.expandable_append, Grammar.expandable_finished hLeft]
    simp [Grammar.expandable]

theorem waiting_eq_nil (h : pass.Shows grammar growth)
    (hSentence : grammar.Finished pass.sentence) : growth.waiting = [] := by
  obtain ⟨made, left, -, rfl, hWaiting⟩ := h
  obtain ⟨hMade, hLeft⟩ := List.forall_mem_append.mp hSentence
  rw [hWaiting, Grammar.expandable_finished hMade, Grammar.expandable_finished hLeft,
    List.append_nil]

/-- A symbol that the pass expands is the leaf that waits first. -/
theorem expand (h : pass.Shows grammar growth) {before after : List Symbol} {rule : Rule}
    (hSplit : grammar.splitAtExpandable pass.left = some (before, rule, after)) :
    ∃ follow, grammar.levelExpander growth = some (rule, follow) ∧ ∀ alternative : Expression,
      Shows grammar ⟨pass.made ++ before ++ alternative.symbols, after⟩ (follow alternative) := by
  obtain ⟨made, left, hTree, rfl, hWaiting⟩ := h
  obtain ⟨front, address, symbol, back, rfl, rfl, rfl, hFront, hLeft⟩ :=
    Grammar.expandable_of_split hSplit
  rw [hLeft, List.cons_append] at hWaiting
  rw [Grammar.levelExpander, hWaiting]
  refine ⟨_, rfl, ?_⟩
  intro alternative
  have hTree' : growth.tree.leafPlaces = (made ++ front) ++ (address, symbol) :: back := by
    rw [hTree, List.append_assoc]
  refine ⟨made ++ front ++ Tree.childPlaces address alternative.symbols, back, ?_, ?_, ?_⟩
  · rw [Tree.leafPlaces_attachAll alternative.nonempty _ hTree']
    simp only [List.append_assoc]
  · simp [Tree.childPlaces_labels]
  · simp [Grammar.expandable_append, hFront]

end Pass.Shows

namespace Grammar

variable (grammar : Grammar) (chooser : Chooser σ ε)

/-- The passes and the levels ask alike. -/
theorem passExpander_matches :
    grammar.passExpander.Matches grammar.levelExpander (Pass.Shows grammar) := by
  intro pass growth hShows
  cases hLeft : grammar.splitAtExpandable pass.left with
  | some split =>
    obtain ⟨before, rule, after⟩ := split
    obtain ⟨follow, hLevel, hFollow⟩ := hShows.expand hLeft
    refine .inr ⟨rule, _, follow, ?_, hLevel, fun alternative _ => hFollow alternative⟩
    simp only [passExpander, hLeft]
  | none =>
    -- The end of a pass is no step, and the levels do not see it.
    have hAgain := hShows.again (splitAtExpandable_eq_none_iff.mp hLeft)
    cases hSentence : grammar.splitAtExpandable pass.sentence with
    | some split =>
      obtain ⟨before, rule, after⟩ := split
      obtain ⟨follow, hLevel, hFollow⟩ := hAgain.expand hSentence
      refine .inr ⟨rule, _, follow, ?_, hLevel, fun alternative _ => hFollow alternative⟩
      simp [passExpander, hLeft, hSentence]
    | none =>
      have hWaiting := hShows.waiting_eq_nil (splitAtExpandable_eq_none_iff.mp hSentence)
      exact .inl ⟨by simp [passExpander, hLeft, hSentence], by rw [levelExpander, hWaiting]⟩

theorem shows_seed : Pass.Shows grammar ⟨[], [.nonTerminal grammar.start]⟩ grammar.seed :=
  ⟨[], [([], .nonTerminal grammar.start)], rfl, rfl, by simp [seed, expandable]⟩

/-- The leaves of the tree that is grown level by level are the sentence from left to right. -/
theorem deriveLevels_read {limit : Nat} (hLimit : 1 ≤ limit) (state : σ) :
    (grammar.deriveLevels chooser limit state).map Derived.read
      = grammar.derive chooser .leftToRight limit state := by
  have hRead : ∀ (pass : Pass) (growth : Growth), pass.Shows grammar growth →
      pass.sentence = growth.tree.sentence := fun _ _ hShows => hShows.sentence_eq
  rw [derive_leftToRight_eq_run hLimit, deriveLevels, Answer.map_map]
  exact (grammar.passExpander_matches.run_derived hRead chooser limit grammar.shows_seed state).symm

theorem untraced_deriveLevels (limit : Nat) (state : σ × List (Query ε)) :
    (grammar.deriveLevels chooser.traced limit state).untraced
      = grammar.deriveLevels chooser limit state.1 := by
  rw [deriveLevels, deriveLevels, ← Expander.untraced_run]
  rfl

/-- With the same chooser, growing a tree level by level and deriving a sentence from left to right
are one derivation. Both ask the same queries, leave the same state and fail alike, and the leaves
of the tree are the sentence. A chooser that always answers in range never makes them fail. -/
theorem derive_agrees_levels {limit : Nat} (hLimit : 1 ≤ limit) (state : σ) :
    ∃ (outcome : Except (ChoiceError ε) (Derived DerivationTree)) (last : σ)
      (queries : List (Query ε)),
      grammar.deriveLevels chooser limit state = (outcome, last) ∧
      grammar.derive chooser .leftToRight limit state = (outcome.map Derived.read, last) ∧
      grammar.deriveLevels chooser.traced limit (state, []) = (outcome, (last, queries)) ∧
      grammar.derive chooser.traced .leftToRight limit (state, [])
        = (outcome.map Derived.read, (last, queries)) ∧
      (chooser.InRange → ∃ tree, outcome = .ok tree) := by
  cases hLevels : grammar.deriveLevels chooser.traced limit (state, []) with
  | mk outcome reached =>
    have hPlain := grammar.untraced_deriveLevels chooser limit (state, [])
    rw [hLevels] at hPlain
    have hSentence := grammar.deriveLevels_read chooser hLimit state
    rw [← hPlain] at hSentence
    have hTraced := grammar.deriveLevels_read chooser.traced hLimit (state, [])
    rw [hLevels] at hTraced
    refine ⟨outcome, reached.1, reached.2, hPlain.symm, hSentence.symm, rfl, hTraced.symm, ?_⟩
    intro hRange
    obtain ⟨queries, sentence, ending, hDecides, hAnswers⟩ :=
      (hRange.serves grammar).exists_decides (.sentence .leftToRight) hLimit
        (trivial : (fun _ => True) state)
    have hBoth := hSentence.trans (hDecides.run hAnswers)
    cases outcome with
    | ok tree => exact ⟨tree, rfl⟩
    | error error => cases hBoth

/-- A limit in the middle of a pass. -/
theorem derive_agrees_levels_cut :
    let x : Symbol := .terminal ⟨"x", by decide⟩
    let a : Symbol := .nonTerminal ⟨"a"⟩
    let grammar : Grammar := ⟨[
      ⟨⟨"s"⟩, [⟨[a, a], by simp⟩], by simp⟩, ⟨⟨"a"⟩, [⟨[a, x], by simp⟩], by simp⟩], by simp⟩
    let first : Chooser Nat Empty := fun _ _ count => (.ok 0, count + 1)
    ∃ tree, grammar.deriveLevels first 4 0 = (.ok tree, 4) ∧
      tree.result.sentence = [a, x, x, a, x] ∧
      grammar.derive first .leftToRight 4 0 = (.ok ⟨[a, x, x, a, x], 4⟩, 4) := by
  intro x a grammar first
  obtain ⟨outcome, last, -, hLevels, hSentence, -, -, -⟩ :=
    derive_agrees_levels grammar first (by decide : 1 ≤ 4) 0
  have hResult : grammar.derive first .leftToRight 4 0 = (.ok ⟨[a, x, x, a, x], 4⟩, 4) := rfl
  cases outcome with
  | error error => cases hSentence.symm.trans hResult
  | ok tree =>
    injection hSentence.symm.trans hResult with hRead hLast
    injection hRead with hRead
    refine ⟨tree, ?_, congrArg Derived.result hRead, hResult⟩
    rw [hLevels, hLast]

end Grammar

end CodonGrammar
