import CodonGrammar.Proofs.Derivation.Engine
import CodonGrammar.Proofs.Tree.Growth

/-!
# What the engines give

An engine gives a sentence or a tree, which is more than the sentence that it is read as. Each engine
is the run of a sound expander, and what it gives is a view of the situation in which the run ends
(`Grammar.exists_drives`), so what holds of all sound expanders holds of the engines. The steps of
such a run continue the result: a sentence by steps of the grammar, and a tree by children below its
leaves.
-/

namespace CodonGrammar

variable {σ ε : Type}

/-- What an engine gives. -/
abbrev Engine.Result : Engine → Type
  | sentence _ => List Symbol
  | tree => DerivationTree

/-- The sentence of a result. -/
def Engine.read : (engine : Engine) → engine.Result → List Symbol
  | sentence _, made => made
  | tree, grown => grown.sentence

/-- From the start symbol on there is a query, unless the limit is zero. -/
theorem Expander.Sound.queries_ne_nil {S : Type} {expander : Expander S} {grammar : Grammar}
    {read : S → List Symbol} (hSound : expander.Sound grammar read) {start last : S}
    (hStart : read start = [.nonTerminal grammar.start]) {queries : List (Query ε)}
    (hPlays : expander.Plays start queries last) {limit : Nat} (hLimit : 1 ≤ limit)
    (hEnd : queries.length = limit ∨ expander last = none) : queries ≠ [] := by
  rintro rfl
  cases hPlays
  rcases hEnd with hSpent | hStops
  · rw [List.length_nil] at hSpent
    omega
  · have hFinished := hSound.finished hStops
    rw [hStart] at hFinished
    exact grammar.not_finished_start hFinished

namespace Grammar

/-- Derives the result of an engine with at most `limit` expansions. -/
def produce (grammar : Grammar) (engine : Engine) (chooser : Chooser σ ε) (limit : Nat)
    (state : σ) : Answer σ (ChoiceError ε) (Derived engine.Result) :=
  match engine with
  | .sentence strategy => grammar.derive chooser strategy limit state
  | .tree => grammar.deriveTree chooser limit state

/-- Within the limit the engine asks these queries from a state on and makes this result, one
expansion for each of them, and it leaves the chooser in the last state. -/
structure Produces (grammar : Grammar) (engine : Engine) (chooser : Chooser σ ε) (limit : Nat)
    (state : σ) (queries : List (Query ε)) (result : engine.Result) (last : σ) : Prop where
  plain : grammar.produce engine chooser limit state = (.ok ⟨result, queries.length⟩, last)
  traced : grammar.produce engine chooser.traced limit (state, [])
    = (.ok ⟨result, queries.length⟩, (last, queries.reverse))

/-- The queries and the result of an engine are determined. -/
theorem Produces.unique {grammar : Grammar} {engine : Engine} {chooser : Chooser σ ε} {limit : Nat}
    {state last ending : σ} {queries others : List (Query ε)} {result other : engine.Result}
    (hFirst : grammar.Produces engine chooser limit state queries result last)
    (hOther : grammar.Produces engine chooser limit state others other ending) :
    queries = others ∧ result = other := by
  obtain ⟨hDerived, hState⟩ := Prod.mk.inj (hFirst.traced.symm.trans hOther.traced)
  obtain ⟨-, hQueries⟩ := Prod.mk.inj hState
  exact ⟨List.reverse_inj.mp hQueries, (Derived.mk.inj (Except.ok.inj hDerived)).1⟩

/-- The answered queries continue the first result to the second one: the sentence by one step for
each of them, and a tree only at its leaves. -/
def Continues (grammar : Grammar) (queries : List (Query ε)) :
    (engine : Engine) → engine.Result → engine.Result → Prop
  | .sentence _, first, second => grammar.DerivesBy queries first second
  | .tree, first, second =>
    grammar.DerivesBy queries first.sentence second.sentence ∧ first.Grows second

/-! ## Trees -/

variable (grammar : Grammar)

/-- The step at the first leaf that has a rule. -/
def treeExpander : Expander DerivationTree := fun tree =>
  (tree.firstRule? grammar).map fun rule =>
    (rule, fun alternative => tree.expand grammar alternative.symbols)

theorem growTree_eq_run (chooser : Chooser σ ε) (budget : Nat) (tree : DerivationTree) (state : σ) :
    grammar.growTree chooser budget tree state
      = grammar.treeExpander.run chooser budget tree state := by
  induction budget generalizing tree state with
  | zero => rfl
  | succ budget ih =>
    rw [growTree, Expander.run, treeExpander]
    cases tree.firstRule? grammar with
    | none => rfl
    | some rule =>
      apply Answer.andThen_congr
      intro alternative next _
      exact ih _ next

theorem sound_treeExpander : grammar.treeExpander.Sound grammar Tree.sentence where
  finished := by
    intro tree hNone
    have hRule := Option.map_eq_none_iff.mp hNone
    rw [Tree.firstRule?_eq, Option.map_eq_none_iff, splitAtExpandable_eq_none_iff] at hRule
    rwa [Tree.sentence, Tree.fringe_eq_leafLabels]
  step := by
    intro tree rule next hSome
    obtain ⟨found, hRule, hStep⟩ := Option.map_eq_some_iff.mp hSome
    cases hStep
    rw [Tree.firstRule?_eq, ← Tree.fringe_eq_leafLabels] at hRule
    obtain ⟨⟨before, used, after⟩, hSplit, rfl⟩ := Option.map_eq_some_iff.mp hRule
    obtain ⟨symbol, hSentence, hUsed, -⟩ := splitAtExpandable_eq_some hSplit
    refine ⟨before, symbol, after, hSentence, hUsed, ?_⟩
    intro alternative
    rw [Tree.sentence_expand grammar alternative.nonempty hSplit, List.append_assoc]

end Grammar

namespace Tree

variable (grammar : Grammar) {symbols : List Symbol}

mutual

theorem grows_expand? : ∀ {tree grown : DerivationTree},
    tree.expand? grammar symbols = some grown → tree.Grows grown
  | node symbol [], grown => by
    intro h
    rw [expand?] at h
    split at h
    · cases h
      exact .leaf symbol _
    · cases h
  | node symbol (first :: rest), grown => by
    intro h
    rw [expand?] at h
    split at h
    · rename_i children hChildren
      cases h
      exact .node symbol (grows_expandIn? hChildren)
    · cases h

theorem grows_expandIn? : ∀ {trees grown : List DerivationTree},
    expandIn? grammar symbols trees = some grown → GrowsAll trees grown
  | [], grown => by
    intro h
    cases h
  | tree :: rest, grown => by
    intro h
    rw [expandIn?] at h
    split at h
    · rename_i expanded hExpanded
      cases h
      exact .cons (grows_expand? hExpanded) (.refl rest)
    · split at h
      · rename_i others hOthers
        cases h
        exact .cons (.refl tree) (grows_expandIn? hOthers)
      · cases h

end

theorem grows_expand (tree : DerivationTree) : tree.Grows (tree.expand grammar symbols) := by
  rw [expand]
  cases hExpand : tree.expand? grammar symbols with
  | none => exact .refl tree
  | some grown => exact grows_expand? grammar hExpand

end Tree

namespace Grammar

theorem grows_of_plays {grammar : Grammar} {tree last : DerivationTree}
    {queries : List (Query ε)} (h : grammar.treeExpander.Plays tree queries last) :
    tree.Grows last := by
  induction h with
  | nil => exact .refl _
  | cons hNext _ _ _ ih =>
    obtain ⟨rule, -, hStep⟩ := Option.map_eq_some_iff.mp hNext
    cases hStep
    exact (Tree.grows_expand grammar _).trans ih

/-! ## All engines -/

/-- The expander makes the results of an engine from the start symbol on. -/
structure Drives (grammar : Grammar) (engine : Engine) {S : Type} (expander : Expander S)
    (view : S → engine.Result) (start : S) : Prop where
  sound : expander.Sound grammar fun situation => engine.read (view situation)
  start_eq : engine.read (view start) = [.nonTerminal grammar.start]
  continues : ∀ {ε : Type} {situation last : S} {queries : List (Query ε)},
    expander.Plays situation queries last →
      grammar.Continues queries engine (view situation) (view last)
  produce_eq : ∀ {σ ε : Type} (chooser : Chooser σ ε) {limit : Nat} (state : σ), 1 ≤ limit →
    grammar.produce engine chooser limit state
      = (expander.run chooser limit start state).map fun (situation, left) =>
          ⟨view situation, limit - left⟩

theorem drives_tree (grammar : Grammar) :
    grammar.Drives .tree grammar.treeExpander id (.leaf (.nonTerminal grammar.start)) where
  sound := grammar.sound_treeExpander
  start_eq := Tree.sentence_leaf _
  continues := fun hPlays => ⟨grammar.sound_treeExpander.derivesBy hPlays, grows_of_plays hPlays⟩
  produce_eq := by
    intro σ ε chooser limit state _
    rw [← growTree_eq_run]
    exact Answer.andThen_map _ _

theorem exists_drives (grammar : Grammar) (engine : Engine) :
    ∃ (S : Type) (expander : Expander S) (view : S → engine.Result) (start : S),
      grammar.Drives engine expander view start := by
  cases engine with
  | tree => exact ⟨_, _, _, _, grammar.drives_tree⟩
  | sentence strategy =>
    cases strategy with
    | leftMost =>
      refine ⟨_, grammar.firstExpander, id, [.nonTerminal grammar.start], ?_⟩
      refine ⟨grammar.sound_firstExpander, rfl, grammar.sound_firstExpander.derivesBy, ?_⟩
      intro σ ε chooser limit state hLimit
      exact derive_leftMost_eq_run hLimit state
    | leftToRight =>
      refine ⟨_, grammar.passExpander, Pass.sentence, ⟨[], [.nonTerminal grammar.start]⟩, ?_⟩
      refine ⟨grammar.sound_passExpander, rfl, grammar.sound_passExpander.derivesBy, ?_⟩
      intro σ ε chooser limit state hLimit
      exact derive_leftToRight_eq_run hLimit state

/-- The answers to the queries that lead to the end of a run decide the result. -/
theorem Drives.produce_of_plays {grammar : Grammar} {engine : Engine} {S : Type}
    {expander : Expander S} {view : S → engine.Result} {start last : S}
    (hDrives : grammar.Drives engine expander view start) {queries : List (Query ε)}
    (hPlays : expander.Plays start queries last) {limit : Nat} (hLimit : 1 ≤ limit)
    (hLength : queries.length ≤ limit) (hEnd : queries.length = limit ∨ expander last = none)
    {chooser : Chooser σ ε} {state after : σ} (hAnswers : chooser.Answers state queries after) :
    grammar.produce engine chooser limit state
      = (.ok ⟨view last, queries.length⟩, after) := by
  rw [hDrives.produce_eq chooser state hLimit,
    Expander.run_completed hPlays hAnswers hLength hEnd]
  simp [Nat.sub_sub_self hLength]

theorem Drives.produces_of_plays {grammar : Grammar} {engine : Engine} {S : Type}
    {expander : Expander S} {view : S → engine.Result} {start last : S}
    (hDrives : grammar.Drives engine expander view start) {queries : List (Query ε)}
    (hPlays : expander.Plays start queries last) {limit : Nat} (hLimit : 1 ≤ limit)
    (hLength : queries.length ≤ limit) (hEnd : queries.length = limit ∨ expander last = none)
    {chooser : Chooser σ ε} {state after : σ} (hAnswers : chooser.Answers state queries after) :
    grammar.Produces engine chooser limit state queries (view last) after where
  plain := hDrives.produce_of_plays hPlays hLimit hLength hEnd hAnswers
  traced := hDrives.produce_of_plays hPlays hLimit hLength hEnd hAnswers.traced_all

/-- A derived sentence is what the engine gives, read as a sentence. -/
theorem generate_eq_produce (grammar : Grammar) (engine : Engine) (chooser : Chooser σ ε)
    (limit : Nat) (state : σ) :
    grammar.generate engine chooser limit state
      = (grammar.produce engine chooser limit state).map fun made =>
          ⟨engine.read made.result, made.expansions⟩ := by
  cases engine with
  | tree => rfl
  | sentence strategy =>
    rw [generate, produce]
    obtain ⟨outcome, last⟩ := grammar.derive chooser strategy limit state
    cases outcome <;> rfl

/-- Each engine is the run of a sound expander from the start symbol on. -/
theorem exists_expander (grammar : Grammar) (engine : Engine) :
    ∃ (S : Type) (expander : Expander S) (read : S → List Symbol) (start : S),
      expander.Sound grammar read ∧ read start = [.nonTerminal grammar.start] ∧
      ∀ {σ ε : Type} (chooser : Chooser σ ε) (limit : Nat) (state : σ), 1 ≤ limit →
        grammar.generate engine chooser limit state
          = (expander.run chooser limit start state).map fun (situation, left) =>
              ⟨read situation, limit - left⟩ := by
  obtain ⟨S, expander, view, start, hDrives⟩ := grammar.exists_drives engine
  refine ⟨S, expander, fun situation => engine.read (view situation), start, hDrives.sound,
    hDrives.start_eq, ?_⟩
  intro σ ε chooser limit state hLimit
  rw [generate_eq_produce, hDrives.produce_eq chooser state hLimit, Answer.map_map]
  rfl

end Grammar

end CodonGrammar
