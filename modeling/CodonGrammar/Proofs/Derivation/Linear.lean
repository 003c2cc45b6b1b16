import CodonGrammar.Proofs.Derivation.Engine

/-!
# Linear grammars

A grammar is linear if no alternative holds more than one symbol that has a rule. A derivation then
never has more than one symbol to expand, so there is no order in which the strategies could differ:
from left to right and left-most are one derivation (`Grammar.derive_agrees_of_isLinear`).

The invariant is that at most one symbol of the sentence has a rule. While it holds, the step of a
pass is the left-most step of its whole sentence, wherever the pass is
(`Grammar.firstExpander_sentence`), and each alternative of a linear grammar keeps it
(`Grammar.expandableCount_expand_le_one`).
-/

namespace CodonGrammar

variable {σ ε : Type}

namespace Grammar

/-- How many symbols of a sentence have a rule. -/
def expandableCount (grammar : Grammar) (sentence : List Symbol) : Nat :=
  sentence.countP fun symbol => (grammar.expansionOf? symbol).isSome

/-- No alternative of a rule holds more than one symbol that has a rule. -/
def IsLinear (grammar : Grammar) : Prop :=
  ∀ rule ∈ grammar.rules, ∀ alternative ∈ rule.alternatives,
    grammar.expandableCount alternative.symbols ≤ 1

instance (grammar : Grammar) : Decidable grammar.IsLinear :=
  inferInstanceAs (Decidable (∀ rule ∈ grammar.rules, ∀ alternative ∈ rule.alternatives,
    grammar.expandableCount alternative.symbols ≤ 1))

variable {grammar : Grammar}

/-! ## Counting what can be expanded -/

theorem expandableCount_append (first second : List Symbol) :
    grammar.expandableCount (first ++ second)
      = grammar.expandableCount first + grammar.expandableCount second :=
  List.countP_append

theorem expandableCount_eq_zero_iff {sentence : List Symbol} :
    grammar.expandableCount sentence = 0 ↔ grammar.Finished sentence := by
  simp [expandableCount, Finished]

theorem expandableCount_of_split {sentence before after : List Symbol} {rule : Rule}
    (h : grammar.splitAtExpandable sentence = some (before, rule, after)) :
    grammar.expandableCount sentence = grammar.expandableCount after + 1 := by
  obtain ⟨symbol, rfl, hRule, hBefore⟩ := splitAtExpandable_eq_some h
  rw [expandableCount_append, expandableCount_eq_zero_iff.mpr hBefore, Nat.zero_add]
  exact List.countP_cons_of_pos (by rw [hRule]; rfl)

theorem mem_rules_of_expansionOf? {symbol : Symbol} {rule : Rule}
    (h : grammar.expansionOf? symbol = some rule) : rule ∈ grammar.rules := by
  obtain ⟨head, -, hHead⟩ := exists_ruleFor? h
  exact List.mem_of_find?_eq_some hHead

/-! ## One symbol to expand at most -/

/-- An alternative of a linear grammar in the place of the only symbol that has a rule. -/
theorem expandableCount_expand_le_one (hLinear : grammar.IsLinear)
    {sentence before after : List Symbol} {rule : Rule}
    (hSplit : grammar.splitAtExpandable sentence = some (before, rule, after))
    (hOne : grammar.expandableCount sentence ≤ 1) {alternative : Expression}
    (hMember : alternative ∈ rule.alternatives) :
    grammar.expandableCount (before ++ (alternative.symbols ++ after)) ≤ 1 := by
  have hAfter := expandableCount_of_split hSplit
  obtain ⟨symbol, -, hRule, hBefore⟩ := splitAtExpandable_eq_some hSplit
  have hAlternative := hLinear rule (mem_rules_of_expansionOf? hRule) alternative hMember
  rw [expandableCount_append, expandableCount_append, expandableCount_eq_zero_iff.mpr hBefore]
  omega

/-- With one symbol to expand, a pass expands the one that the left-most step expands. -/
theorem firstExpander_sentence {pass : Pass} (hOne : grammar.expandableCount pass.sentence ≤ 1) :
    grammar.firstExpander pass.sentence
      = (grammar.passExpander pass).map fun (rule, next) =>
          (rule, fun alternative => (next alternative).sentence) := by
  rw [passExpander, firstExpander]
  cases hLeft : grammar.splitAtExpandable pass.left with
  | none =>
    -- The next pass starts, with the whole sentence to go through.
    cases grammar.splitAtExpandable pass.sentence <;> simp [Pass.sentence]
  | some split =>
    obtain ⟨before, rule, after⟩ := split
    -- The one symbol is still to come, so what the pass has made holds none.
    have hCount := expandableCount_of_split hLeft
    rw [Pass.sentence, expandableCount_append, hCount] at hOne
    have hMade : grammar.Finished pass.made := expandableCount_eq_zero_iff.mp (by omega)
    rw [Pass.sentence, splitAtExpandable_append, splitAtExpandable_eq_none_iff.mpr hMade, hLeft]
    simp [Pass.sentence]

theorem firstExpander_matches_passExpander (hLinear : grammar.IsLinear) :
    grammar.firstExpander.Matches grammar.passExpander fun sentence pass =>
      sentence = pass.sentence ∧ grammar.expandableCount sentence ≤ 1 := by
  rintro sentence pass ⟨rfl, hOne⟩
  have hStep := firstExpander_sentence hOne
  cases hPass : grammar.passExpander pass with
  | none =>
    rw [hPass] at hStep
    exact .inl ⟨hStep, rfl⟩
  | some step =>
    obtain ⟨rule, follow⟩ := step
    rw [hPass, Option.map_some] at hStep
    refine .inr ⟨rule, _, follow, hStep, rfl, ?_⟩
    intro alternative hMember
    refine ⟨rfl, ?_⟩
    obtain ⟨⟨before, found, after⟩, hSplit, hEq⟩ := Option.map_eq_some_iff.mp hStep
    obtain ⟨rfl, hNext⟩ := Prod.mk.inj hEq
    rw [← congrFun hNext alternative]
    exact expandableCount_expand_le_one hLinear hSplit hOne hMember

/-! ## Both strategies -/

/-- In a linear grammar both strategies are the run of the left-most step. -/
theorem derive_eq_firstExpander_run (hLinear : grammar.IsLinear) (chooser : Chooser σ ε)
    {limit : Nat} (hLimit : 1 ≤ limit) (strategy : Strategy) (state : σ) :
    grammar.derive chooser strategy limit state
      = (grammar.firstExpander.run chooser limit [.nonTerminal grammar.start] state).map
          fun (sentence, left) => ⟨sentence, limit - left⟩ := by
  cases strategy with
  | leftMost => exact derive_leftMost_eq_run hLimit state
  | leftToRight =>
    have hRead : ∀ (sentence : List Symbol) (pass : Pass),
        sentence = pass.sentence ∧ grammar.expandableCount sentence ≤ 1 →
          id sentence = pass.sentence := fun _ _ hRelated => hRelated.1
    have hStart : [.nonTerminal grammar.start] = Pass.sentence ⟨[], [.nonTerminal grammar.start]⟩ ∧
        grammar.expandableCount [.nonTerminal grammar.start] ≤ 1 :=
      ⟨rfl, List.countP_le_length⟩
    have hMatches := firstExpander_matches_passExpander hLinear
    rw [derive_leftToRight_eq_run hLimit]
    exact (hMatches.run_derived hRead chooser limit hStart state).symm

/-- In a linear grammar the strategies agree, whatever the chooser answers. They ask the same
queries, leave the chooser in the same state, and have the same sentence after the same number of
expansions or the same error, which is the one of the last query. -/
theorem derive_agrees_of_isLinear (hLinear : grammar.IsLinear) (chooser : Chooser σ ε) {limit : Nat}
    (hLimit : 1 ≤ limit) (state : σ) :
    ∃ (outcome : Except (ChoiceError ε) (Derived (List Symbol))) (last : σ)
      (queries : List (Query ε)),
      (∀ strategy, grammar.derive chooser strategy limit state = (outcome, last)) ∧
      (∀ strategy, grammar.derive chooser.traced strategy limit (state, [])
        = (outcome, (last, queries.reverse))) ∧
      chooser.Answers state queries last ∧
      ∀ error, outcome = .error error →
        ∃ answered query, queries = answered ++ [query] ∧ query.chosen = .error error := by
  obtain ⟨outcome, last, queries, hRun, hTraced, hAnswers, hFails⟩ :=
    grammar.firstExpander.exists_traced chooser limit [.nonTerminal grammar.start] state []
  rw [List.append_nil] at hTraced
  refine ⟨outcome.map fun (sentence, left) => ⟨sentence, limit - left⟩, last, queries,
    ?_, ?_, hAnswers, ?_⟩
  · intro strategy
    rw [derive_eq_firstExpander_run hLinear chooser hLimit, hRun]
    rfl
  · intro strategy
    rw [derive_eq_firstExpander_run hLinear chooser.traced hLimit, hTraced]
    rfl
  · intro error hError
    apply hFails
    cases outcome with
    | error other => simpa [Except.map] using hError
    | ok value => cases hError

/-- A linear grammar with a non-terminal that has no rule. The limit cuts off the first derivation,
and in the second one the chooser leaves the range. -/
theorem derive_agrees_of_isLinear_undefined :
    let u : Symbol := .nonTerminal ⟨"u"⟩
    let a : Symbol := .nonTerminal ⟨"a"⟩
    let x : Symbol := .terminal ⟨"x", by decide⟩
    let rule : Rule := ⟨⟨"a"⟩, [.single x, ⟨[x, a, u], by simp⟩], by simp⟩
    let grammar : Grammar := ⟨[⟨⟨"s"⟩, [⟨[u, a, x], by simp⟩], by simp⟩, rule], by simp⟩
    let counting : Chooser Nat Empty := fun _ _ place => (.ok place, place + 1)
    grammar.IsLinear ∧
      (∀ strategy, grammar.derive counting strategy 2 0 = (.ok ⟨[u, x, a, u, x], 2⟩, 2)) ∧
      ∀ strategy, grammar.derive counting strategy 3 0 = (.error (.outside 2 rule), 3) := by
  intro u a x rule grammar counting
  have hLinear : grammar.IsLinear := by decide
  obtain ⟨cut, last, -, hCut, -⟩ :=
    derive_agrees_of_isLinear hLinear counting (by decide : 1 ≤ 2) 0
  obtain ⟨failed, lastFailed, -, hFailed, -⟩ :=
    derive_agrees_of_isLinear hLinear counting (by decide : 1 ≤ 3) 0
  have hResult : grammar.derive counting .leftMost 2 0 = (.ok ⟨[u, x, a, u, x], 2⟩, 2) := rfl
  have hError : grammar.derive counting .leftMost 3 0 = (.error (.outside 2 rule), 3) := rfl
  refine ⟨hLinear, ?_, ?_⟩
  · rwa [(hCut .leftMost).symm.trans hResult] at hCut
  · rwa [(hFailed .leftMost).symm.trans hError] at hFailed

end Grammar

end CodonGrammar
