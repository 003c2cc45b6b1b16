import CodonGrammar.Proofs.Derivation.Results

/-!
# Derivations that cannot fail

A derivation is decided by the answers to its queries: two choosers that give the same answers get
the same sentence (`Grammar.Decides`). A chooser that answers every query about a rule of the
grammar in range, as long as it stays in some class of states, never lets a derivation fail,
whichever engine runs it (`Chooser.Serves.exists_decides`).
-/

namespace CodonGrammar

variable {σ ε : Type}

/-- In this class of states a chooser answers in range whenever it is asked for the first rule of a
non-terminal, and it stays in the class. -/
def Chooser.Serves (chooser : Chooser σ ε) (grammar : Grammar) (kept : σ → Prop) : Prop :=
  ∀ head rule state, grammar.ruleFor? head = some rule → kept state →
    (chooser.query rule state).InRange ∧ kept (chooser rule rule.arity state).2

/-- States that are alike have the same answers and lead to states that are alike. -/
def Chooser.Agrees (chooser : Chooser σ ε) (alike : σ → σ → Prop) : Prop :=
  ∀ rule bound state other, alike state other →
    (chooser rule bound state).1 = (chooser rule bound other).1 ∧
      alike (chooser rule bound state).2 (chooser rule bound other).2

namespace Chooser

variable {chooser : Chooser σ ε} {grammar : Grammar} {queries : List (Query ε)}

theorem Serves.kept_of_answers {kept : σ → Prop} (hServes : chooser.Serves grammar kept)
    {state last : σ} (hAnswers : chooser.Answers state queries last)
    (hAsked : ∀ query ∈ queries, (∃ head, grammar.ruleFor? head = some query.rule) ∧
      query.bound = query.rule.arity) (hKept : kept state) : kept last := by
  induction hAnswers with
  | nil => exact hKept
  | @cons query rest state next last hAnswer _ ih =>
    obtain ⟨⟨⟨head, hHead⟩, hBound⟩, hRest⟩ := List.forall_mem_cons.mp hAsked
    have hNext := (hServes head query.rule state hHead hKept).2
    rw [← hBound, hAnswer] at hNext
    exact ih hRest hNext

/-- A chooser that never leaves the range serves every grammar, whatever state it is in. -/
theorem InRange.serves (hRange : chooser.InRange) (grammar : Grammar) :
    chooser.Serves grammar fun _ => True :=
  fun _ rule state _ _ => ⟨hRange rule state, trivial⟩

/-- While a chooser serves the grammar, the run of a sound expander ends only because the budget is
spent or because the expander stops. -/
theorem Serves.exists_plays {S : Type} {expander : Expander S} {read : S → List Symbol}
    {kept : σ → Prop} (hServes : chooser.Serves grammar kept)
    (hSound : expander.Sound grammar read) (budget : Nat) (situation : S) {state : σ}
    (hKept : kept state) :
    ∃ (queries : List (Query ε)) (last : S) (after : σ),
      expander.Plays situation queries last ∧ chooser.Answers state queries after ∧ kept after ∧
      queries.length ≤ budget ∧ (queries.length = budget ∨ expander last = none) := by
  obtain ⟨queries, last, after, hPlays, hAnswers, hLength, hEnd⟩ :=
    expander.exists_plays chooser budget situation state
  have hAsked : ∀ query ∈ queries, (∃ head, grammar.ruleFor? head = some query.rule) ∧
      query.bound = query.rule.arity := by
    intro query hQuery
    obtain ⟨hHead, hBound, -⟩ := hSound.queries hPlays query hQuery
    exact ⟨hHead, hBound⟩
  have hAfter := hServes.kept_of_answers hAnswers hAsked hKept
  refine ⟨queries, last, after, hPlays, hAnswers, hAfter, hLength, ?_⟩
  rcases hEnd with hStops | ⟨-, next, query, error, ending, hNext, hBound, hAnswer, hChosen⟩
  · exact hStops
  · -- No query fails, because the chooser is still in its class.
    obtain ⟨head, hHead⟩ := hSound.exists_head hNext
    have hRange := (hServes head query.rule after hHead hAfter).1
    have hQuery : chooser.query query.rule after = query := by
      rw [Chooser.query, ← hBound, hAnswer]
    rw [hQuery, Query.inRange_iff hBound, hChosen] at hRange
    obtain ⟨alternative, hSome⟩ := hRange
    cases hSome

theorem Answers.of_alike {alike : σ → σ → Prop} (hAgrees : chooser.Agrees alike) {state last : σ}
    (hAnswers : chooser.Answers state queries last) {other : σ} (hAlike : alike state other) :
    ∃ ending, chooser.Answers other queries ending := by
  induction hAnswers generalizing other with
  | nil => exact ⟨other, .nil other⟩
  | @cons query rest state next last hAnswer _ ih =>
    obtain ⟨hSame, hNext⟩ := hAgrees query.rule query.bound state other hAlike
    rw [hAnswer] at hSame hNext
    obtain ⟨ending, hEnding⟩ := ih hNext
    have hFirst : chooser query.rule query.bound other
        = (query.answer, (chooser query.rule query.bound other).2) := Prod.ext hSame.symm rfl
    exact ⟨ending, .cons hFirst hEnding⟩

end Chooser

/-- While a chooser serves the grammar, an engine has a result, with one step of the grammar for each
of its queries. There is at least one of them, and no more than the limit allows. -/
theorem Chooser.Serves.exists_produces {chooser : Chooser σ ε} {grammar : Grammar}
    {kept : σ → Prop} (hServes : chooser.Serves grammar kept) (engine : Engine) {limit : Nat}
    (hLimit : 1 ≤ limit) {state : σ} (hKept : kept state) :
    ∃ (queries : List (Query ε)) (result : engine.Result) (last : σ),
      grammar.Produces engine chooser limit state queries result last ∧
      chooser.Answers state queries last ∧ queries ≠ [] ∧ queries.length ≤ limit ∧
      (∀ query ∈ queries, query.bound = query.rule.arity ∧ query.InRange) ∧
      grammar.DerivesBy queries [.nonTerminal grammar.start] (engine.read result) := by
  obtain ⟨S, expander, view, start, hDrives⟩ := grammar.exists_drives engine
  obtain ⟨queries, last, after, hPlays, hAnswers, -, hLength, hEnd⟩ :=
    hServes.exists_plays hDrives.sound limit start hKept
  refine ⟨queries, view last, after,
    hDrives.produces_of_plays hPlays hLimit hLength hEnd hAnswers, hAnswers,
    hDrives.sound.queries_ne_nil hDrives.start_eq hPlays hLimit hEnd, hLength, ?_, ?_⟩
  · intro query hQuery
    exact (hDrives.sound.queries hPlays query hQuery).2
  · rw [← hDrives.start_eq]
    exact hDrives.sound.derivesBy hPlays

/-- With these answers the derivation has this sentence. The queries are about first rules and in
range, and each of them is one step. -/
structure Grammar.Decides (grammar : Grammar) (engine : Engine) (limit : Nat)
    (queries : List (Query ε)) (sentence : List Symbol) : Prop where
  asked : ∀ query ∈ queries, (∃ head, grammar.ruleFor? head = some query.rule) ∧
    query.bound = query.rule.arity ∧ query.InRange
  derives : grammar.DerivesBy queries [.nonTerminal grammar.start] sentence
  run : ∀ {σ : Type} {chooser : Chooser σ ε} {state last : σ},
    chooser.Answers state queries last →
      grammar.generate engine chooser limit state = (.ok ⟨sentence, queries.length⟩, last)

theorem Chooser.Serves.exists_decides {chooser : Chooser σ ε} {grammar : Grammar}
    {kept : σ → Prop} (hServes : chooser.Serves grammar kept) (engine : Engine) {limit : Nat}
    (hLimit : 1 ≤ limit) {state : σ} (hKept : kept state) :
    ∃ (queries : List (Query ε)) (sentence : List Symbol) (last : σ),
      grammar.Decides engine limit queries sentence ∧ chooser.Answers state queries last := by
  obtain ⟨S, expander, read, start, hSound, hStart, hRun⟩ := grammar.exists_expander engine
  obtain ⟨queries, situation, after, hPlays, hAnswers, -, hLength, hStops⟩ :=
    hServes.exists_plays hSound limit start hKept
  refine ⟨queries, read situation, after, ⟨hSound.queries hPlays, ?_, ?_⟩, hAnswers⟩
  · rw [← hStart]
    exact hSound.derivesBy hPlays
  · intro τ other first last hOther
    rw [hRun other limit first hLimit, Expander.run_completed hPlays hOther hLength hStops]
    simp [Nat.sub_sub_self hLength]

end CodonGrammar
