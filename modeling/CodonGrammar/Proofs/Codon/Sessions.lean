import CodonGrammar.Proofs.Codec.Reading

/-!
# Sessions with one reader

Readings of their own and derivations with any engine may share one reader of codons. Such a session
asks its reader one query after another, whichever operation asks, and each query that is answered
takes the next codon (`Codons.session_handsOut`). A reading with a bound below one is refused and
takes none, and a derivation takes as many as it makes expansions.

The reader sees nothing but its queries. So the operations are only asked what queries they make and
in which state they leave the reader (`Operation.perform_shared`), and all that is said about codons
is said about lists of queries (`Codons.moved_of_answers`).
-/

namespace CodonGrammar

variable {σ ε : Type}

/-! ## Decisions -/

/-- The queries that have an answer, in their order. -/
def decisions (queries : List (Query ε)) : List (Query ε) := queries.filter (·.answer.isOk)

theorem decisions_of_inRange {queries : List (Query ε)} (h : ∀ query ∈ queries, query.InRange) :
    decisions queries = queries := by
  refine List.filter_eq_self.mpr fun query hQuery => ?_
  obtain ⟨choice, hAnswer, -⟩ := h query hQuery
  rw [hAnswer]
  rfl

/-- A bound below one is refused, and the reader stays. -/
theorem Codec.indexChooser_refused (rule : Rule) {bound : Int} (hBound : bound < 1)
    (codons : Codons) :
    indexChooser rule bound (.shared codons) = (.error (.bound ⟨bound⟩), .shared codons) := by
  simp only [indexChooser, Index.next, Codons.next, if_pos hBound]

/-- Of some queries a reader answers those with a positive bound, each with the codon whose turn it
is, and each moves it by one. -/
theorem Codons.moved_of_answers {codons : Codons} {queries : List (Query RuleCodonsError)}
    {last : Index} (h : Codec.indexChooser.Answers (.shared codons) queries last) :
    last = .shared (advance^[(decisions queries).length] codons) ∧
      ∀ (turn : Nat) (query : Query RuleCodonsError), (decisions queries)[turn]? = some query →
        1 ≤ query.bound ∧
          query.answer = .ok (((advance^[turn] codons).current : Int) % query.bound) := by
  induction queries generalizing codons with
  | nil =>
    cases h
    exact ⟨rfl, by simp [decisions]⟩
  | cons query rest ih =>
    cases h with
    | cons hAnswer hRest =>
      by_cases hBound : query.bound < 1
      · rw [Codec.indexChooser_refused query.rule hBound] at hAnswer
        obtain ⟨hRefused, rfl⟩ := Prod.mk.inj hAnswer
        have hDecisions : decisions (query :: rest) = decisions rest :=
          List.filter_cons_of_neg (by simp [← hRefused, Except.isOk, Except.toBool])
        rw [hDecisions]
        exact ih hRest
      · have hPositive : 1 ≤ query.bound := by omega
        rw [Codec.indexChooser_shared query.rule hPositive] at hAnswer
        obtain ⟨hValue, rfl⟩ := Prod.mk.inj hAnswer
        have hDecisions : decisions (query :: rest) = query :: decisions rest :=
          List.filter_cons_of_pos (by rw [← hValue]; rfl)
        obtain ⟨hLast, hTurns⟩ := ih hRest
        rw [hDecisions, List.length_cons, Function.iterate_succ_apply]
        refine ⟨hLast, ?_⟩
        intro turn other hOther
        cases turn with
        | zero =>
          cases hOther
          exact ⟨hPositive, hValue.symm⟩
        | succ turn => exact hTurns turn other hOther

/-! ## Operations -/

/-- What uses a reader: a reading of its own, or a derivation. -/
inductive Operation where
  | reading (rule : Rule) (bound : Int)
  | derivation (grammar : Grammar) (engine : Engine) (limit : Int)

/-- What comes of an operation. -/
inductive Outcome where
  | reading (answer : Except RuleCodonsError Int)
  | refused (error : LimitError)
  | derivation (engine : Engine)
      (made : Except (ChoiceError RuleCodonsError) (Derived engine.Result))

def Operation.perform (chooser : Chooser σ RuleCodonsError) (operation : Operation) (state : σ) :
    Outcome × σ :=
  match operation with
  | reading rule bound =>
    let (answer, next) := chooser rule bound state
    (.reading answer, next)
  | derivation grammar engine limit =>
    match checkLimit limit with
    | .error error => (.refused error, state)
    | .ok count =>
      let (made, next) := grammar.produce engine chooser count state
      (.derivation engine made, next)

/-- The outcomes of some operations, one after the other. -/
def performAll (chooser : Chooser σ RuleCodonsError) : List Operation → σ → List Outcome × σ
  | [], state => ([], state)
  | operation :: rest, state =>
    let (outcome, next) := operation.perform chooser state
    let (outcomes, last) := performAll chooser rest next
    (outcome :: outcomes, last)

/-- An operation with its outcome and with the queries that it makes, in their order. -/
structure Step where
  operation : Operation
  outcome : Outcome
  queries : List (Query RuleCodonsError)

def Operation.step (operation : Operation) (index : Index) : Step × Index :=
  let (outcome, next, queries) := operation.perform Codec.indexChooser.traced (index, [])
  (⟨operation, outcome, queries.reverse⟩, next)

/-- Some operations with their outcomes and queries, one after the other. -/
def session : List Operation → Index → List Step × Index
  | [], index => ([], index)
  | operation :: rest, index =>
    let (step, next) := operation.step index
    let (steps, last) := session rest next
    (step :: steps, last)

/-- The queries of some steps. -/
def asked (steps : List Step) : List (Query RuleCodonsError) := steps.flatMap Step.queries

/-- A reading makes the one query that it is. A derivation with a positive limit has a result, and
each of its queries is a decision and one of its expansions. -/
def Step.Accounted (step : Step) : Prop :=
  match step.operation with
  | .reading rule bound =>
    ∃ answer, step.outcome = .reading answer ∧ step.queries = [⟨rule, bound, answer⟩]
  | .derivation grammar engine limit =>
    if limit < 1 then step.outcome = .refused ⟨limit⟩ ∧ step.queries = []
    else
      ∃ made, step.outcome = .derivation engine (.ok made) ∧
        made.expansions = step.queries.length ∧ decisions step.queries = step.queries ∧
        1 ≤ made.expansions ∧ made.expansions ≤ limit ∧
        grammar.DerivesBy step.queries [.nonTerminal grammar.start] (engine.read made.result)

/-- What an operation does to a shared reader is what its queries do to it. -/
theorem Operation.perform_shared (operation : Operation) (codons : Codons) :
    ∃ step next, operation.step (.shared codons) = (step, .shared next) ∧
      operation.perform Codec.indexChooser (.shared codons) = (step.outcome, .shared next) ∧
      step.operation = operation ∧ step.Accounted ∧
      Codec.indexChooser.Answers (.shared codons) step.queries (.shared next) := by
  cases operation with
  | reading rule bound =>
    obtain ⟨answer, next, hAnswer⟩ : ∃ answer next,
        Codec.indexChooser rule bound (.shared codons) = (answer, .shared next) := by
      by_cases hBound : bound < 1
      · exact ⟨_, _, Codec.indexChooser_refused rule hBound codons⟩
      · exact ⟨_, _, Codec.indexChooser_shared rule (by omega) codons⟩
    refine ⟨⟨.reading rule bound, .reading answer, [⟨rule, bound, answer⟩]⟩, next, ?_, ?_, rfl,
      ⟨answer, rfl, rfl⟩, .single hAnswer⟩
    · simp [step, perform, Chooser.traced, hAnswer]
    · simp [perform, hAnswer]
  | derivation grammar engine limit =>
    by_cases hLimit : limit < 1
    · refine ⟨⟨.derivation grammar engine limit, .refused ⟨limit⟩, []⟩, codons, ?_, ?_, rfl, ?_,
        .nil _⟩
      · simp [step, perform, checkLimit, hLimit]
      · simp [perform, checkLimit, hLimit]
      · simp [Step.Accounted, hLimit]
    · have hServed : (Index.shared codons).Serves grammar := trivial
      have hCount : 1 ≤ limit.toNat := by omega
      obtain ⟨queries, result, last, hProduces, hAnswers, hSome, hLength, hAsked, hDerives⟩ :=
        (Codec.serves_indexChooser grammar).exists_produces engine hCount hServed
      obtain ⟨rfl, -⟩ := Codons.moved_of_answers hAnswers
      refine ⟨⟨.derivation grammar engine limit, .derivation engine (.ok ⟨result, queries.length⟩),
        queries⟩, _, ?_, ?_, rfl, ?_, hAnswers⟩
      · simp [step, perform, checkLimit, hLimit, hProduces.traced]
      · simp [perform, checkLimit, hLimit, hProduces.plain]
      · have hPositive := List.length_pos_iff.mpr hSome
        have hDecisions := decisions_of_inRange fun query hQuery => (hAsked query hQuery).2
        simp only [Step.Accounted, if_neg hLimit]
        exact ⟨_, rfl, rfl, hDecisions, hPositive, by dsimp only; omega, hDerives⟩

/-! ## Sessions -/

/-- A session with a shared reader does to it what its queries do, and its outcomes are those of the
operations when no record of the queries is kept. -/
theorem session_shared (operations : List Operation) (codons : Codons) :
    ∃ steps last, session operations (.shared codons) = (steps, .shared last) ∧
      performAll Codec.indexChooser operations (.shared codons)
        = (steps.map Step.outcome, .shared last) ∧
      steps.map Step.operation = operations ∧ (∀ step ∈ steps, step.Accounted) ∧
      Codec.indexChooser.Answers (.shared codons) (asked steps) (.shared last) := by
  induction operations generalizing codons with
  | nil => exact ⟨[], codons, rfl, rfl, rfl, by simp, .nil _⟩
  | cons operation rest ih =>
    obtain ⟨step, next, hStep, hPerform, hOperation, hAccounted, hAnswers⟩ :=
      operation.perform_shared codons
    obtain ⟨steps, last, hSession, hAll, hOperations, hSteps, hRest⟩ := ih next
    refine ⟨step :: steps, last, ?_, ?_, ?_, List.forall_mem_cons.mpr ⟨hAccounted, hSteps⟩, ?_⟩
    · simp [session, hStep, hSession]
    · simp [performAll, hPerform, hAll]
    · simp [hOperation, hOperations]
    · simpa only [asked, List.flatMap_cons] using hAnswers.append hRest

namespace Codons

/-- In a session, a reader of some values takes the values in turn. Those that have been taken are
counted by the queries that were answered. -/
structure HandsOut (codons : Codons) (values : List Int) (steps : List Step) (last : Codons) :
    Prop where
  answered : ∀ (turn : Nat) (query : Query RuleCodonsError),
    (decisions (asked steps))[turn]? = some query →
      ∃ value, values[turn % values.length]? = some value ∧
        query.answer = .ok (value % query.bound) ∧
        0 ≤ value % query.bound ∧ value % query.bound < query.bound
  between : ∀ earlier later, asked steps = earlier ++ later →
    ∃ reader, Codec.indexChooser.Answers (.shared codons) earlier (.shared reader) ∧
      Codec.indexChooser.Answers (.shared reader) later (.shared last) ∧
      reader.cursor = (decisions earlier).length % values.length
  refused : ∀ earlier query later, asked steps = earlier ++ query :: later → query.bound < 1 →
    query.answer = .error (.bound ⟨query.bound⟩) ∧
      ∃ reader, Codec.indexChooser.Answers (.shared codons) earlier (.shared reader) ∧
        Codec.indexChooser.Answers (.shared codons) (earlier ++ [query]) (.shared reader)
  cursor : last.cursor = (decisions (asked steps)).length % values.length

theorem handsOut_of_answers {values : List Int} (hFit : ∀ value ∈ values, 0 ≤ value)
    (hNonempty : values.map Int.toNat ≠ []) {steps : List Step} {last : Codons}
    (h : Codec.indexChooser.Answers (.shared (.ofValues (values.map Int.toNat) hNonempty))
      (asked steps) (.shared last)) :
    (ofValues (values.map Int.toNat) hNonempty).HandsOut values steps last := by
  have hCursor : ∀ count, (advance^[count] (ofValues (values.map Int.toNat) hNonempty)).cursor
      = count % values.length := by
    intro count
    rw [((ofValues (values.map Int.toNat) hNonempty).iterate_advance count).2]
    simp [ofValues]
  have hSplit : ∀ earlier later, asked steps = earlier ++ later →
      ∃ reader, Codec.indexChooser.Answers
          (.shared (.ofValues (values.map Int.toNat) hNonempty)) earlier (.shared reader) ∧
        Codec.indexChooser.Answers (.shared reader) later (.shared last) ∧
        reader.cursor = (decisions earlier).length % values.length := by
    intro earlier later hAsked
    rw [hAsked] at h
    obtain ⟨middle, hEarlier, hLater⟩ := h.split
    obtain ⟨rfl, -⟩ := moved_of_answers hEarlier
    exact ⟨_, hEarlier, hLater, hCursor _⟩
  refine ⟨?_, hSplit, ?_, ?_⟩
  · intro turn query hQuery
    obtain ⟨hBound, hAnswer⟩ := (moved_of_answers h).2 turn query hQuery
    obtain ⟨value, hValue, hNumber⟩ := exists_value hNonempty turn
    rw [hNumber, Int.toNat_of_nonneg (hFit value (List.mem_of_getElem? hValue))] at hAnswer
    exact ⟨value, hValue, hAnswer, Int.emod_nonneg _ (by omega), Int.emod_lt_of_pos _ (by omega)⟩
  · intro earlier query later hAsked hBound
    obtain ⟨reader, hEarlier, hLater, -⟩ := hSplit earlier (query :: later) hAsked
    have hRefused := Codec.indexChooser_refused query.rule hBound reader
    cases hLater with
    | cons hAnswer hRest =>
      obtain ⟨hError, -⟩ := Prod.mk.inj (hRefused.symm.trans hAnswer)
      rw [hError] at hRefused
      exact ⟨hError.symm, reader, hEarlier, hEarlier.append (.single hRefused)⟩
  · obtain ⟨hLast, -⟩ := moved_of_answers h
    cases hLast
    exact hCursor _

/-- Whatever uses a reader of some values, the values are handed out in order, from the first one
again after the last one, to the queries that are answered. A query with a bound below one is
refused and takes none, and a derivation takes one for each of its expansions. -/
theorem session_handsOut {values : List Int} (hNonempty : values ≠ [])
    (hFit : ∀ value ∈ values, 0 ≤ value) :
    ∃ codons, ofInts values = .ok codons ∧
      ∀ operations, ∃ steps last, session operations (.shared codons) = (steps, .shared last) ∧
        performAll Codec.indexChooser operations (.shared codons)
          = (steps.map Step.outcome, .shared last) ∧
        steps.map Step.operation = operations ∧ (∀ step ∈ steps, step.Accounted) ∧
        codons.HandsOut values steps last := by
  rcases ofInts_cases values with ⟨-, hNonempty, hCodons⟩ | ⟨hRefused, -⟩
  · refine ⟨_, hCodons, ?_⟩
    intro operations
    obtain ⟨steps, last, hSession, hAll, hOperations, hSteps, hAnswers⟩ :=
      session_shared operations (.ofValues (values.map Int.toNat) hNonempty)
    exact ⟨steps, last, hSession, hAll, hOperations, hSteps, handsOut_of_answers hFit hNonempty
      hAnswers⟩
  · rcases hRefused with rfl | ⟨value, hValue, hNegative⟩
    · exact absurd rfl hNonempty
    · exact absurd (hFit value hValue) (by omega)

/-- Readings of their own, of which one is refused, a sentence, and a tree, all from three codons.
The tree goes on with the first codon again, and a tree without expansions is refused. -/
theorem session_handsOut_mixed :
    let s : NonTerminal := ⟨"s"⟩
    let b : Symbol := .terminal ⟨"b", by decide⟩
    let rule : Rule := ⟨s, [⟨[.nonTerminal s, .nonTerminal s], by simp⟩, .single b], by simp⟩
    let grammar : Grammar := ⟨[rule], by simp⟩
    let values : List Int := [4, 3, 7]
    let operations : List Operation :=
      [.reading rule 5, .reading rule 0, .derivation grammar (.sentence .leftMost) 9,
        .reading rule 4, .derivation grammar .tree 9, .derivation grammar .tree 0,
        .reading rule 3]
    (values ≠ [] ∧ ∀ value ∈ values, 0 ≤ value) ∧
      ∃ codons, ofInts values = .ok codons ∧
        ∃ steps last, session operations (.shared codons) = (steps, .shared last) ∧
          steps.map (fun step => step.queries.map fun query => (query.bound, query.answer.toOption))
            = [[(5, some 4)], [(0, none)], [(2, some 1)], [(4, some 3)],
                [(2, some 0), (2, some 1), (2, some 1)], [], [(3, some 1)]] ∧
          last.cursor = 1 ∧ codons.HandsOut values steps last := by
  intro s b rule grammar values operations
  have hNonempty : values ≠ [] := List.cons_ne_nil _ _
  have hFit : ∀ value ∈ values, 0 ≤ value := by decide
  obtain ⟨codons, hCodons, hSession⟩ := session_handsOut hNonempty hFit
  obtain ⟨steps, last, hSteps, -, -, -, hHandsOut⟩ := hSession operations
  have hMade : (session operations (.shared codons)).1 = steps := by rw [hSteps]
  cases hCodons
  refine ⟨⟨hNonempty, hFit⟩, _, rfl, steps, last, hSteps, ?_, ?_, hHandsOut⟩
  · rw [← hMade]
    decide +kernel
  · rw [hHandsOut.cursor, ← hMade]
    decide +kernel

end Codons

end CodonGrammar
