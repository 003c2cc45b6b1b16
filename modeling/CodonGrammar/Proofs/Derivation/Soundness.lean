import CodonGrammar.Proofs.Derivation.Results

/-!
# What every derivation is

Whatever a chooser answers, an engine asks it at least one query and at most as many as the limit
allows, and each query is for the first rule of a non-terminal (`Grammar.Course`). If all answers
are in range, the engine has a result. It is derived from the start symbol by the answers, one step
for each of them in their order, and it is finished unless the limit is reached. The first answer
out of range ends the derivation with an error.

The proof is about sound expanders: a run goes through the situations that its answered queries lead
to, and there is a step of the grammar for each query.
-/

namespace CodonGrammar

variable {σ ε : Type}

namespace Grammar

/-- What the queries of a derivation with a limit, in the order in which they are asked, say about
its outcome. -/
structure Course (grammar : Grammar) (limit : Nat) (queries : List (Query ε))
    (outcome : Except (ChoiceError ε) (Derived (List Symbol))) : Prop where
  nonempty : 1 ≤ queries.length
  limited : queries.length ≤ limit
  asked : ∀ query ∈ queries,
    (∃ head, grammar.ruleFor? head = some query.rule) ∧ query.bound = query.rule.arity
  derived : (∀ query ∈ queries, query.InRange) →
    ∃ sentence, outcome = .ok ⟨sentence, queries.length⟩ ∧ sentence ≠ [] ∧
      grammar.DerivesBy queries [.nonTerminal grammar.start] sentence ∧
      (queries.length < limit → grammar.Finished sentence)
  outside : ∀ query ∈ queries, ∀ choice, query.answer = .ok choice → ¬ query.InRange →
    outcome = .error (.outside choice query.rule) ∧
      ∃ earlier, queries = earlier ++ [query] ∧ ∀ other ∈ earlier, other.InRange

end Grammar

section Course

variable {S : Type} {expander : Expander S} {grammar : Grammar} {read : S → List Symbol}
  (hSound : expander.Sound grammar read) {start last : S} {queries : List (Query ε)}
  (hPlays : expander.Plays start queries last) {limit : Nat}

include hSound hPlays

theorem Expander.Sound.course_completed (hStart : read start = [.nonTerminal grammar.start])
    (hLimit : 1 ≤ limit) (hLength : queries.length ≤ limit)
    (hEnd : queries.length = limit ∨ expander last = none) :
    grammar.Course limit queries (.ok ⟨read last, queries.length⟩) where
  nonempty := List.length_pos_iff.mpr (hSound.queries_ne_nil hStart hPlays hLimit hEnd)
  limited := hLength
  asked := by
    intro query hQuery
    obtain ⟨hHead, hBound, -⟩ := hSound.queries hPlays query hQuery
    exact ⟨hHead, hBound⟩
  derived := by
    intro _
    have hDerives := hSound.derivesBy hPlays
    rw [hStart] at hDerives
    refine ⟨read last, rfl, hDerives.ne_nil (List.cons_ne_nil _ _), hDerives, ?_⟩
    intro hLess
    rcases hEnd with hSpent | hNone
    · omega
    · exact hSound.finished hNone
  outside := by
    intro query hQuery choice _ hOutside
    obtain ⟨-, -, hRange⟩ := hSound.queries hPlays query hQuery
    exact absurd hRange hOutside

theorem Expander.Sound.course_failed (hLength : queries.length < limit) {query : Query ε}
    {next : Expression → S} {error : ChoiceError ε}
    (hNext : expander last = some (query.rule, next)) (hBound : query.bound = query.rule.arity)
    (hChosen : query.chosen = .error error) :
    grammar.Course limit (queries ++ [query]) (.error error) where
  nonempty := by simp
  limited := by
    rw [List.length_append, List.length_singleton]
    omega
  asked := by
    refine List.forall_mem_append.mpr ⟨?_, ?_⟩
    · intro other hOther
      obtain ⟨hHead, hBound, -⟩ := hSound.queries hPlays other hOther
      exact ⟨hHead, hBound⟩
    · intro other hOther
      obtain rfl := List.mem_singleton.mp hOther
      exact ⟨hSound.exists_head hNext, hBound⟩
  derived := by
    intro hRange
    have hLast := hRange query (List.mem_append_right _ (List.mem_singleton.mpr rfl))
    obtain ⟨alternative, hSome⟩ := (Query.inRange_iff hBound).mp hLast
    cases hChosen.symm.trans hSome
  outside := by
    intro other hOther choice hAnswer hOutside
    -- An answered query has chosen an alternative, so only the failed one can be out of range.
    have hEarlier : ∀ earlier ∈ queries, earlier.InRange := by
      intro earlier hMember
      exact (hSound.queries hPlays earlier hMember).2.2
    rcases List.mem_append.mp hOther with hMember | hMember
    · exact absurd (hEarlier other hMember) hOutside
    · obtain rfl := List.mem_singleton.mp hMember
      rw [Query.chosen_outside hBound hAnswer hOutside] at hChosen
      cases hChosen
      exact ⟨rfl, queries, rfl, hEarlier⟩

end Course

namespace Grammar

/-- Every engine asks queries as `Course` says, and keeping them changes nothing else. A chooser
that always answers in range is never asked in vain. -/
theorem generate_course (grammar : Grammar) (engine : Engine) (chooser : Chooser σ ε) {limit : Nat}
    (hLimit : 1 ≤ limit) (state : σ) :
    ∃ (outcome : Except (ChoiceError ε) (Derived (List Symbol))) (last : σ)
      (queries : List (Query ε)),
      grammar.generate engine chooser limit state = (outcome, last) ∧
      grammar.generate engine chooser.traced limit (state, [])
        = (outcome, (last, queries.reverse)) ∧
      chooser.Answers state queries last ∧
      (chooser.InRange → ∀ query ∈ queries, query.InRange) ∧
      grammar.Course limit queries outcome := by
  obtain ⟨S, expander, read, start, hSound, hStart, hRun⟩ := grammar.exists_expander engine
  rw [hRun chooser limit state hLimit, hRun chooser.traced limit (state, []) hLimit]
  obtain ⟨queries, situation, after, hPlays, hAnswers, hLength, hEnd⟩ :=
    expander.exists_plays chooser limit start state
  have hTraced := hAnswers.traced_all
  rcases hEnd with hStops | ⟨hLess, next, query, error, ending, hNext, hBound, hAnswer, hChosen⟩
  · have hCourse := hSound.course_completed hPlays hStart hLimit hLength hStops
    refine ⟨_, after, queries, ?_, ?_, hAnswers, ?_, hCourse⟩
    · rw [Expander.run_completed hPlays hAnswers hLength hStops]
      simp [Nat.sub_sub_self hLength]
    · rw [Expander.run_completed hPlays hTraced hLength hStops]
      simp [Nat.sub_sub_self hLength]
    · exact fun hChooser => hAnswers.inRange hChooser fun query hQuery =>
        (hCourse.asked query hQuery).2
  · have hCourse := hSound.course_failed hPlays hLess hNext hBound hChosen
    have hAll := hAnswers.append (.single hAnswer)
    have hLast : chooser.traced query.rule query.bound (after, queries.reverse)
        = (query.answer, (ending, query :: queries.reverse)) := by
      simp only [Chooser.traced, hAnswer]
    refine ⟨_, ending, queries ++ [query], ?_, ?_, hAll, ?_, hCourse⟩
    · rw [Expander.run_failed hPlays hAnswers hLess hNext hBound hAnswer hChosen, Answer.map_error]
    · rw [Expander.run_failed hPlays hTraced hLess hNext hBound hLast hChosen, Answer.map_error,
        List.reverse_append]
      rfl
    · exact fun hChooser => hAll.inRange hChooser fun query hQuery => (hCourse.asked query hQuery).2

/-- A left-recursive derivation that the limit cuts off, and one in which the chooser leaves the
range. -/
theorem generate_course_counting :
    let u : Symbol := .nonTerminal ⟨"u"⟩
    let y : Symbol := .terminal ⟨"y", by decide⟩
    let grammar : Grammar := ⟨[
      ⟨⟨"s"⟩, [⟨[.nonTerminal ⟨"a"⟩, u], by simp⟩], by simp⟩,
      ⟨⟨"a"⟩, [.single y, ⟨[.nonTerminal ⟨"a"⟩, y], by simp⟩], by simp⟩], by simp⟩
    let counting : Chooser Nat Empty := fun _ _ place => (.ok place, place + 1)
    let engine : Engine := .sentence .leftToRight
    (∃ queries : List (Query Empty),
        grammar.generate engine counting 2 0 = (.ok ⟨[.nonTerminal ⟨"a"⟩, y, u], 2⟩, 2) ∧
        grammar.Course 2 queries (.ok ⟨[.nonTerminal ⟨"a"⟩, y, u], 2⟩)) ∧
      ∃ (queries : List (Query Empty)) (rule : Rule),
        grammar.generate engine counting 3 0 = (.error (.outside 2 rule), 3) ∧
        grammar.Course 3 queries (.error (.outside 2 rule)) := by
  intro u y grammar counting engine
  obtain ⟨cut, last, queries, hCut, -, -, -, hCourse⟩ :=
    generate_course grammar engine counting (by decide : 1 ≤ 2) 0
  obtain ⟨failed, lastFailed, others, hFailed, -, -, -, hCourseFailed⟩ :=
    generate_course grammar engine counting (by decide : 1 ≤ 3) 0
  constructor
  · have hResult : grammar.generate engine counting 2 0
        = (.ok ⟨[.nonTerminal ⟨"a"⟩, y, u], 2⟩, 2) := rfl
    cases hCut.symm.trans hResult
    exact ⟨queries, hResult, hCourse⟩
  · cases hFailed
    exact ⟨others, _, rfl, hCourseFailed⟩

end Grammar

end CodonGrammar
