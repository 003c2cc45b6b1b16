import CodonGrammar.Proofs.Derivation.Queries
import CodonGrammar.Proofs.Derivation.Rewriting

/-!
# Deriving step by step

Every way to derive goes from situation to situation. In a situation it either stops or asks for the
alternative of one rule, and the answer leads to the next situation. An `Expander` is this step
alone, without chooser and without limit, and `Expander.run` takes the steps.

A run is determined by what its queries are answered. `Expander.Plays` says which situation answered
queries lead to, and `Chooser.Answers` says which answers a chooser gives to them. Main statements:

* `Expander.run_of_plays`: a run goes through the situations that its answered queries lead to,
* `Expander.exists_plays`: every run is of this kind, up to its end or to the query that fails,
* `Expander.Matches.run_map`: expanders that ask alike in related situations run alike,
* `Expander.Sound.derivesBy`: if each step of an expander is a step of the grammar, so are its runs.
-/

namespace CodonGrammar

variable {σ ε S T V α β : Type}

namespace Answer

/-- The answer with a function applied to its value. -/
def map (f : α → β) (answer : Answer σ ε α) : Answer σ ε β := (answer.1.map f, answer.2)

@[simp] theorem map_ok (f : α → β) (value : α) (state : σ) :
    map f ((.ok value, state) : Answer σ ε α) = (.ok (f value), state) := rfl

@[simp] theorem map_error (f : α → β) (error : ε) (state : σ) :
    map f ((.error error, state) : Answer σ ε α) = (.error error, state) := rfl

theorem map_andThen (f : β → V) (answer : Answer σ ε α) (next : α → σ → Answer σ ε β) :
    (answer.andThen next).map f = answer.andThen fun value state => (next value state).map f := by
  obtain ⟨outcome, state⟩ := answer
  cases outcome <;> rfl

theorem map_map (g : β → V) (f : α → β) (answer : Answer σ ε α) :
    (answer.map f).map g = answer.map (g ∘ f) := by
  obtain ⟨outcome, state⟩ := answer
  cases outcome <;> rfl

/-- Two ways to go on may differ for values that the answer does not have. -/
theorem andThen_congr {answer : Answer σ ε α} {first second : α → σ → Answer σ ε β}
    (h : ∀ value state, answer = (.ok value, state) → first value state = second value state) :
    answer.andThen first = answer.andThen second := by
  obtain ⟨outcome, state⟩ := answer
  cases outcome with
  | error error => rfl
  | ok value => exact h value state rfl

end Answer

/-! ## Answered queries -/

/-- The query for a rule in a state. -/
def Chooser.query (chooser : Chooser σ ε) (rule : Rule) (state : σ) : Query ε :=
  ⟨rule, rule.arity, (chooser rule rule.arity state).1⟩

theorem Rule.alternativeAt?_eq_none_iff {rule : Rule} {choice : Int} :
    rule.alternativeAt? choice = none ↔ ¬ (0 ≤ choice ∧ choice < rule.arity) := by
  rw [alternativeAt?, arity]
  split
  · simp only [true_iff]
    omega
  · rw [List.getElem?_eq_none_iff]
    omega

theorem Rule.mem_of_alternativeAt? {rule : Rule} {choice : Int} {alternative : Expression}
    (h : rule.alternativeAt? choice = some alternative) : alternative ∈ rule.alternatives := by
  rw [alternativeAt?] at h
  split at h
  · cases h
  · exact List.mem_of_getElem? h

namespace Query

/-- The answer is a number from zero on and below the bound. -/
def InRange (query : Query ε) : Prop :=
  ∃ choice, query.answer = .ok choice ∧ 0 ≤ choice ∧ choice < query.bound

/-- The alternative that a query is answered with, or why it is answered with none. -/
def chosen (query : Query ε) : Except (ChoiceError ε) Expression :=
  match query.answer with
  | .error error => .error (.chooser error)
  | .ok choice =>
    match query.rule.alternativeAt? choice with
    | some alternative => .ok alternative
    | none => .error (.outside choice query.rule)

theorem chosen_eq_ok_iff {query : Query ε} {alternative : Expression} :
    query.chosen = .ok alternative ↔
      ∃ choice, query.answer = .ok choice ∧ query.rule.alternativeAt? choice = some alternative := by
  rw [chosen]
  cases query.answer with
  | error error => simp
  | ok choice => cases hPlace : query.rule.alternativeAt? choice <;> simp [hPlace]

theorem mem_of_chosen {query : Query ε} {alternative : Expression}
    (h : query.chosen = .ok alternative) : alternative ∈ query.rule.alternatives := by
  obtain ⟨choice, -, hPlace⟩ := chosen_eq_ok_iff.mp h
  exact Rule.mem_of_alternativeAt? hPlace

theorem chosen_outside {query : Query ε} (hBound : query.bound = query.rule.arity) {choice : Int}
    (hAnswer : query.answer = .ok choice) (hOutside : ¬ query.InRange) :
    query.chosen = .error (.outside choice query.rule) := by
  have hNone : query.rule.alternativeAt? choice = none := by
    rw [Rule.alternativeAt?_eq_none_iff, ← hBound]
    intro hRange
    exact hOutside ⟨choice, hAnswer, hRange⟩
  simp only [chosen, hAnswer, hNone]

/-- A query chooses an alternative exactly when its answer is in range. -/
theorem inRange_iff {query : Query ε} (hBound : query.bound = query.rule.arity) :
    query.InRange ↔ ∃ alternative, query.chosen = .ok alternative := by
  constructor
  · rintro ⟨choice, hAnswer, hRange⟩
    rw [hBound] at hRange
    cases hPlace : query.rule.alternativeAt? choice with
    | none => exact absurd hRange (Rule.alternativeAt?_eq_none_iff.mp hPlace)
    | some alternative => exact ⟨alternative, by simp only [chosen, hAnswer, hPlace]⟩
  · rintro ⟨alternative, hChosen⟩
    cases hAnswer : query.answer with
    | error error => simp [chosen, hAnswer] at hChosen
    | ok choice =>
      refine ⟨choice, hAnswer, ?_⟩
      rw [hBound]
      refine Decidable.not_not.mp fun hOutside => ?_
      have hNone := Rule.alternativeAt?_eq_none_iff.mpr hOutside
      simp [chosen, hAnswer, hNone] at hChosen

end Query

theorem Rule.choose_eq (rule : Rule) (chooser : Chooser σ ε) (state : σ) :
    rule.choose chooser state
      = ((chooser.query rule state).chosen, (chooser rule rule.arity state).2) := by
  rw [choose, Query.chosen, Chooser.query]
  cases chooser rule rule.arity state with
  | mk answer next =>
    cases answer with
    | error error => rfl
    | ok choice => cases hPlace : rule.alternativeAt? choice <;> simp only [hPlace]

theorem Rule.mem_of_choose {rule : Rule} {chooser : Chooser σ ε} {state after : σ}
    {alternative : Expression} (h : rule.choose chooser state = (.ok alternative, after)) :
    alternative ∈ rule.alternatives := by
  rw [choose_eq] at h
  have hChosen : (chooser.query rule state).chosen = .ok alternative := congrArg Prod.fst h
  exact Query.mem_of_chosen hChosen

/-- A chooser that never fails and never leaves the range. -/
def Chooser.InRange (chooser : Chooser σ ε) : Prop :=
  ∀ rule state, (chooser.query rule state).InRange

/-- Asked one after another from a state on, the queries have these answers, and the chooser is left
in the last state. -/
inductive Chooser.Answers (chooser : Chooser σ ε) : σ → List (Query ε) → σ → Prop where
  | nil (state : σ) : Answers chooser state [] state
  | cons {query : Query ε} {rest : List (Query ε)} {state next last : σ} :
      chooser query.rule query.bound state = (query.answer, next) →
      Answers chooser next rest last → Answers chooser state (query :: rest) last

namespace Chooser.Answers

variable {chooser : Chooser σ ε} {state next last : σ} {queries : List (Query ε)}

theorem single {query : Query ε}
    (h : chooser query.rule query.bound state = (query.answer, last)) :
    chooser.Answers state [query] last :=
  .cons h (.nil last)

theorem append {others : List (Query ε)} (hFirst : chooser.Answers state queries next)
    (hOthers : chooser.Answers next others last) :
    chooser.Answers state (queries ++ others) last := by
  induction hFirst with
  | nil => exact hOthers
  | cons hAnswer _ ih => exact .cons hAnswer (ih hOthers)

/-- The state in which the chooser is between two parts of the queries. -/
theorem split {first second : List (Query ε)}
    (h : chooser.Answers state (first ++ second) last) :
    ∃ middle, chooser.Answers state first middle ∧ chooser.Answers middle second last := by
  induction first generalizing state with
  | nil => exact ⟨state, .nil state, h⟩
  | cons query rest ih =>
    cases h with
    | cons hAnswer hRest =>
      obtain ⟨middle, hFirst, hSecond⟩ := ih hRest
      exact ⟨middle, .cons hAnswer hFirst, hSecond⟩

/-- A chooser that keeps its queries gives the same answers. -/
theorem traced (h : chooser.Answers state queries last) (earlier : List (Query ε)) :
    chooser.traced.Answers (state, earlier) queries (last, queries.reverse ++ earlier) := by
  induction h generalizing earlier with
  | nil state => exact .nil _
  | @cons query rest state next last hAnswer _ ih =>
    rw [List.reverse_cons, List.append_assoc]
    have hFirst : chooser.traced query.rule query.bound (state, earlier)
        = (query.answer, (next, query :: earlier)) := by
      simp only [Chooser.traced, hAnswer]
    exact .cons hFirst (ih (query :: earlier))

/-- A chooser that keeps its queries has kept these ones, and no others. -/
theorem traced_all (h : chooser.Answers state queries last) :
    chooser.traced.Answers (state, []) queries (last, queries.reverse) := by
  have hTraced := h.traced []
  rwa [List.append_nil] at hTraced

theorem inRange (h : chooser.Answers state queries last) (hChooser : chooser.InRange)
    (hBounds : ∀ query ∈ queries, query.bound = query.rule.arity) :
    ∀ query ∈ queries, query.InRange := by
  induction h with
  | nil => simp
  | @cons query rest state next last hAnswer _ ih =>
    obtain ⟨hBound, hRest⟩ := List.forall_mem_cons.mp hBounds
    refine List.forall_mem_cons.mpr ⟨?_, ih hRest⟩
    have hRange := hChooser query.rule state
    rwa [Chooser.query, ← hBound, hAnswer] at hRange

end Chooser.Answers

/-! ## Expanders -/

/-- A way to derive, seen as one step: the rule to ask for in a situation, if any, and the situation
that each alternative leads to. -/
abbrev Expander (S : Type) := S → Option (Rule × (Expression → S))

namespace Expander

variable (expander : Expander S)

/-- Steps until the expander stops or the budget is spent. -/
def run (chooser : Chooser σ ε) : (budget : Nat) → S → σ → Answer σ (ChoiceError ε) (S × Nat)
  | 0, situation, state => (.ok (situation, 0), state)
  | budget + 1, situation, state =>
    match expander situation with
    | none => (.ok (situation, budget + 1), state)
    | some (rule, next) =>
      (rule.choose chooser state).andThen fun alternative state =>
        run chooser budget (next alternative) state

/-- The answered queries lead from one situation to another. -/
inductive Plays : S → List (Query ε) → S → Prop where
  | nil (situation : S) : Plays situation [] situation
  | cons {situation last : S} {next : Expression → S} {query : Query ε} {rest : List (Query ε)}
      {alternative : Expression} :
      expander situation = some (query.rule, next) → query.bound = query.rule.arity →
      query.chosen = .ok alternative → Plays (next alternative) rest last →
      Plays situation (query :: rest) last

variable {expander} {chooser : Chooser σ ε}

theorem Plays.append {situation middle last : S} {queries others : List (Query ε)}
    (hFirst : expander.Plays situation queries middle)
    (hOthers : expander.Plays middle others last) :
    expander.Plays situation (queries ++ others) last := by
  induction hFirst with
  | nil => exact hOthers
  | cons hNext hBound hChosen _ ih => exact .cons hNext hBound hChosen (ih hOthers)

theorem Plays.of_stopped {situation last : S} {queries : List (Query ε)}
    (h : expander.Plays situation queries last) (hStops : expander situation = none) :
    queries = [] ∧ last = situation := by
  cases h with
  | nil => exact ⟨rfl, rfl⟩
  | cons hNext => cases hStops.symm.trans hNext

theorem untraced_run (expander : Expander S) (chooser : Chooser σ ε) (budget : Nat) (situation : S)
    (state : σ × List (Query ε)) :
    (expander.run chooser.traced budget situation state).untraced
      = expander.run chooser budget situation state.1 := by
  induction budget generalizing situation state with
  | zero => rfl
  | succ budget ih =>
    simp only [run]
    cases expander situation with
    | none => rfl
    | some step =>
      exact Answer.untraced_andThen (step.1.untraced_choose chooser state) fun _ next => ih _ next

theorem run_stopped {budget : Nat} {situation : S} (h : budget = 0 ∨ expander situation = none)
    (state : σ) :
    expander.run chooser budget situation state = (.ok (situation, budget), state) := by
  cases budget with
  | zero => rfl
  | succ budget =>
    have hNone : expander situation = none := by
      rcases h with h | h
      · omega
      · exact h
    simp only [run, hNone]

theorem run_step {situation : S} {query : Query ε} {next : Expression → S} {state after : σ}
    (hNext : expander situation = some (query.rule, next)) (hBound : query.bound = query.rule.arity)
    (hAnswer : chooser query.rule query.bound state = (query.answer, after)) (budget : Nat) :
    expander.run chooser (budget + 1) situation state
      = Answer.andThen (query.chosen, after) fun alternative state =>
          expander.run chooser budget (next alternative) state := by
  have hQuery : chooser.query query.rule state = query := by
    rw [Chooser.query, ← hBound, hAnswer]
  simp only [run, hNext, Rule.choose_eq, hQuery, ← hBound, hAnswer]

theorem run_of_plays {situation last : S} {queries : List (Query ε)} {state after : σ}
    (hPlays : expander.Plays situation queries last)
    (hAnswers : chooser.Answers state queries after) (budget : Nat) :
    expander.run chooser (queries.length + budget) situation state
      = expander.run chooser budget last after := by
  induction hPlays generalizing state with
  | nil =>
    cases hAnswers
    rw [List.length_nil, Nat.zero_add]
  | @cons situation last next query rest alternative hNext hBound hChosen _ ih =>
    cases hAnswers with
    | cons hAnswer hRest =>
      rw [List.length_cons, Nat.add_right_comm, run_step hNext hBound hAnswer, hChosen,
        Answer.andThen_ok, ih hRest]

theorem run_completed {situation last : S} {queries : List (Query ε)} {state after : σ}
    (hPlays : expander.Plays situation queries last)
    (hAnswers : chooser.Answers state queries after) {budget : Nat}
    (hLength : queries.length ≤ budget)
    (hEnd : queries.length = budget ∨ expander last = none) :
    expander.run chooser budget situation state = (.ok (last, budget - queries.length), after) := by
  obtain ⟨rest, rfl⟩ := Nat.exists_eq_add_of_le hLength
  have hStops : rest = 0 ∨ expander last = none := by
    rcases hEnd with hSpent | hNone
    · exact .inl (by omega)
    · exact .inr hNone
  rw [run_of_plays hPlays hAnswers, run_stopped hStops, Nat.add_sub_cancel_left]

theorem run_failed {situation last : S} {queries : List (Query ε)} {state after ending : σ}
    (hPlays : expander.Plays situation queries last)
    (hAnswers : chooser.Answers state queries after) {budget : Nat}
    (hLength : queries.length < budget)
    {query : Query ε} {next : Expression → S} {error : ChoiceError ε}
    (hNext : expander last = some (query.rule, next)) (hBound : query.bound = query.rule.arity)
    (hAnswer : chooser query.rule query.bound after = (query.answer, ending))
    (hChosen : query.chosen = .error error) :
    expander.run chooser budget situation state = (.error error, ending) := by
  obtain ⟨rest, rfl⟩ := Nat.exists_eq_add_of_lt hLength
  rw [Nat.add_assoc, run_of_plays hPlays hAnswers, run_step hNext hBound hAnswer, hChosen,
    Answer.andThen_error]

/-- A run ends because the budget is spent, because the expander stops, or because a query fails. -/
theorem exists_plays (expander : Expander S) (chooser : Chooser σ ε) (budget : Nat) (situation : S)
    (state : σ) :
    ∃ (queries : List (Query ε)) (last : S) (after : σ),
      expander.Plays situation queries last ∧ chooser.Answers state queries after ∧
      queries.length ≤ budget ∧ ((queries.length = budget ∨ expander last = none) ∨
        queries.length < budget ∧ ∃ (next : Expression → S) (query : Query ε)
            (error : ChoiceError ε) (ending : σ),
          expander last = some (query.rule, next) ∧ query.bound = query.rule.arity ∧
          chooser query.rule query.bound after = (query.answer, ending) ∧
          query.chosen = .error error) := by
  induction budget generalizing situation state with
  | zero => exact ⟨[], situation, state, .nil _, .nil _, by simp, .inl (.inl rfl)⟩
  | succ budget ih =>
    cases hNext : expander situation with
    | none => exact ⟨[], situation, state, .nil _, .nil _, by simp, .inl (.inr hNext)⟩
    | some step =>
      obtain ⟨rule, next⟩ := step
      let query := chooser.query rule state
      have hAnswer : chooser query.rule query.bound state
          = (query.answer, (chooser rule rule.arity state).2) := rfl
      cases hChosen : query.chosen with
      | error error =>
        exact ⟨[], situation, state, .nil _, .nil _, by simp,
          .inr ⟨by simp, next, query, error, _, hNext, rfl, hAnswer, hChosen⟩⟩
      | ok alternative =>
        obtain ⟨queries, last, after, hPlays, hAnswers, hLength, hEnd⟩ := ih (next alternative) _
        refine ⟨query :: queries, last, after, .cons hNext rfl hChosen hPlays,
          .cons hAnswer hAnswers, ?_, ?_⟩
        · simpa using hLength
        · simpa using hEnd

/-- A run leaves the same with and without a record of its queries, and it only adds to the record.
Only its last query can fail. -/
theorem exists_traced (expander : Expander S) (chooser : Chooser σ ε) (budget : Nat) (situation : S)
    (state : σ) (earlier : List (Query ε)) :
    ∃ (outcome : Except (ChoiceError ε) (S × Nat)) (last : σ) (queries : List (Query ε)),
      expander.run chooser budget situation state = (outcome, last) ∧
      expander.run chooser.traced budget situation (state, earlier)
        = (outcome, (last, queries.reverse ++ earlier)) ∧
      chooser.Answers state queries last ∧
      ∀ error, outcome = .error error →
        ∃ answered query, queries = answered ++ [query] ∧ query.chosen = .error error := by
  obtain ⟨queries, reached, after, hPlays, hAnswers, hLength, hEnd⟩ :=
    expander.exists_plays chooser budget situation state
  have hTraced := hAnswers.traced earlier
  rcases hEnd with hStops | ⟨hLess, next, query, error, ending, hNext, hBound, hAnswer, hChosen⟩
  · refine ⟨_, after, queries, run_completed hPlays hAnswers hLength hStops,
      run_completed hPlays hTraced hLength hStops, hAnswers, ?_⟩
    intro error hError
    cases hError
  · have hLast : chooser.traced query.rule query.bound (after, queries.reverse ++ earlier)
        = (query.answer, (ending, (queries ++ [query]).reverse ++ earlier)) := by
      simp only [Chooser.traced, hAnswer, List.reverse_append, List.reverse_singleton,
        List.cons_append, List.nil_append]
    refine ⟨.error error, ending, queries ++ [query],
      run_failed hPlays hAnswers hLess hNext hBound hAnswer hChosen,
      run_failed hPlays hTraced hLess hNext hBound hLast hChosen,
      hAnswers.append (.single hAnswer), ?_⟩
    intro other hOther
    cases hOther
    exact ⟨queries, query, rfl, hChosen⟩

/-! ## Expanders that ask alike -/

/-- In related situations both expanders stop, or both ask for the same rule, and each of its
alternatives leads to related situations again. -/
def Matches (first : Expander S) (second : Expander T) (related : S → T → Prop) : Prop :=
  ∀ situation other, related situation other →
    first situation = none ∧ second other = none ∨
      ∃ rule next follow, first situation = some (rule, next) ∧ second other = some (rule, follow) ∧
        ∀ alternative ∈ rule.alternatives, related (next alternative) (follow alternative)

theorem Matches.run_map {first : Expander S} {second : Expander T} {related : S → T → Prop}
    (h : first.Matches second related) {read : S → V} {view : T → V}
    (hView : ∀ situation other, related situation other → read situation = view other)
    (chooser : Chooser σ ε) (budget : Nat) {situation : S} {other : T}
    (hRelated : related situation other) (state : σ) :
    (first.run chooser budget situation state).map (Prod.map read id)
      = (second.run chooser budget other state).map (Prod.map view id) := by
  induction budget generalizing situation other state with
  | zero => simp [run, hView _ _ hRelated]
  | succ budget ih =>
    rcases h situation other hRelated with ⟨hFirst, hSecond⟩ | ⟨rule, next, follow, hFirst,
      hSecond, hNext⟩
    · simp [run, hFirst, hSecond, hView _ _ hRelated]
    · simp only [run, hFirst, hSecond, Answer.map_andThen]
      apply Answer.andThen_congr
      intro alternative after hChosen
      exact ih (hNext alternative (Rule.mem_of_choose hChosen)) after

/-- Expanders that ask alike derive alike, and after the same number of expansions. -/
theorem Matches.run_derived {first : Expander S} {second : Expander T} {related : S → T → Prop}
    (h : first.Matches second related) {read : S → V} {view : T → V}
    (hView : ∀ situation other, related situation other → read situation = view other)
    (chooser : Chooser σ ε) (limit : Nat) {situation : S} {other : T}
    (hRelated : related situation other) (state : σ) :
    ((first.run chooser limit situation state).map fun (made, left) =>
        (⟨read made, limit - left⟩ : Derived V))
      = (second.run chooser limit other state).map fun (made, left) =>
          ⟨view made, limit - left⟩ := by
  have hRuns := h.run_map hView chooser limit hRelated state
  have hCount := congrArg (Answer.map fun made : V × Nat =>
    (⟨made.1, limit - made.2⟩ : Derived V)) hRuns
  rw [Answer.map_map, Answer.map_map] at hCount
  exact hCount

/-- Two situations of the same expander with the same next step. -/
theorem run_map_congr {situation other : S} (hNext : expander situation = expander other)
    {read : S → V} (hRead : read situation = read other) (budget : Nat) (state : σ) :
    (expander.run chooser budget situation state).map (Prod.map read id)
      = (expander.run chooser budget other state).map (Prod.map read id) := by
  have hMatches : expander.Matches expander fun first second =>
      expander first = expander second ∧ read first = read second := by
    rintro first second ⟨hSame, -⟩
    cases hSecond : expander second with
    | none => exact .inl ⟨hSame.trans hSecond, rfl⟩
    | some step =>
      exact .inr ⟨step.1, step.2, step.2, hSame.trans hSecond, rfl, fun _ _ => ⟨rfl, rfl⟩⟩
  exact hMatches.run_map (fun _ _ hRelated => hRelated.2) chooser budget ⟨hNext, hRead⟩ state

end Expander

/-! ## Steps of a grammar -/

namespace Grammar

variable (grammar : Grammar)

/-- One symbol is replaced by the alternative of its rule that a query is answered with. -/
inductive RewritesBy (query : Query ε) : List Symbol → List Symbol → Prop where
  | expand (before after : List Symbol) {symbol : Symbol} {alternative : Expression} :
      grammar.expansionOf? symbol = some query.rule → query.chosen = .ok alternative →
      RewritesBy query (before ++ symbol :: after) (before ++ (alternative.symbols ++ after))

/-- One step for each of the queries, in their order. -/
inductive DerivesBy : List (Query ε) → List Symbol → List Symbol → Prop where
  | nil (sentence : List Symbol) : DerivesBy [] sentence sentence
  | cons {query : Query ε} {rest : List (Query ε)} {sentence next last : List Symbol} :
      grammar.RewritesBy query sentence next → DerivesBy rest next last →
      DerivesBy (query :: rest) sentence last

variable {grammar}

theorem DerivesBy.ne_nil {queries : List (Query ε)} {sentence last : List Symbol}
    (h : grammar.DerivesBy queries sentence last) (hSentence : sentence ≠ []) : last ≠ [] := by
  induction h with
  | nil => exact hSentence
  | cons hStep _ ih =>
    apply ih
    cases hStep with
    | @expand before after symbol alternative hRule hChosen => simp [alternative.nonempty]

theorem exists_ruleFor? {symbol : Symbol} {rule : Rule}
    (h : grammar.expansionOf? symbol = some rule) :
    ∃ head, symbol = .nonTerminal head ∧ grammar.ruleFor? head = some rule := by
  cases symbol with
  | terminal symbol => cases h
  | nonTerminal head => exact ⟨head, rfl, h⟩

end Grammar

namespace Expander

/-- Each step of the expander is a step of the grammar on the sentence of the situation, and it
stops only if the sentence is finished. -/
structure Sound (expander : Expander S) (grammar : Grammar) (read : S → List Symbol) : Prop where
  finished : ∀ {situation}, expander situation = none → grammar.Finished (read situation)
  step : ∀ {situation rule next}, expander situation = some (rule, next) →
    ∃ before symbol after, read situation = before ++ symbol :: after ∧
      grammar.expansionOf? symbol = some rule ∧
      ∀ alternative : Expression, read (next alternative) = before ++ (alternative.symbols ++ after)

namespace Sound

variable {expander : Expander S} {grammar : Grammar} {read : S → List Symbol}

theorem stops_of_finished (h : expander.Sound grammar read) {situation : S}
    (hFinished : grammar.Finished (read situation)) : expander situation = none := by
  cases hNext : expander situation with
  | none => rfl
  | some step =>
    obtain ⟨before, symbol, after, hRead, hRule, -⟩ := h.step hNext
    cases (hFinished symbol (by simp [hRead])).symm.trans hRule

theorem derivesBy (h : expander.Sound grammar read) {situation last : S} {queries : List (Query ε)}
    (hPlays : expander.Plays situation queries last) :
    grammar.DerivesBy queries (read situation) (read last) := by
  induction hPlays with
  | nil => exact .nil _
  | cons hNext _ hChosen _ ih =>
    obtain ⟨before, symbol, after, hRead, hRule, hAfter⟩ := h.step hNext
    refine .cons ?_ ih
    rw [hRead, hAfter]
    exact .expand before after hRule hChosen

theorem exists_head (h : expander.Sound grammar read) {situation : S} {rule : Rule}
    {next : Expression → S} (hNext : expander situation = some (rule, next)) :
    ∃ head, grammar.ruleFor? head = some rule := by
  obtain ⟨-, symbol, -, -, hRule, -⟩ := h.step hNext
  obtain ⟨head, -, hHead⟩ := Grammar.exists_ruleFor? hRule
  exact ⟨head, hHead⟩

/-- The queries ask for the first rule of a non-terminal, and how many alternatives it has. -/
theorem queries (h : expander.Sound grammar read) {situation last : S} {queries : List (Query ε)}
    (hPlays : expander.Plays situation queries last) :
    ∀ query ∈ queries, (∃ head, grammar.ruleFor? head = some query.rule) ∧
      query.bound = query.rule.arity ∧ query.InRange := by
  induction hPlays with
  | nil => simp
  | cons hNext hBound hChosen _ ih =>
    refine List.forall_mem_cons.mpr ⟨⟨h.exists_head hNext, hBound, ?_⟩, ih⟩
    exact (Query.inRange_iff hBound).mpr ⟨_, hChosen⟩

end Sound

end Expander

end CodonGrammar
