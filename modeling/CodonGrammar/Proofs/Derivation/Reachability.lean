import CodonGrammar.Proofs.Derivation.Engine

/-!
# Every finished sentence can be played

A derivation may take its steps in any order. The parts of a sentence are derived independently of
each other, so a symbol that has a rule can always be expanded first, whatever the order was, and
the number of steps stays the same (`Grammar.DerivesIn.expand`). Hence a sound expander can be
answered so that it derives the same finished sentence with the same number of queries
(`Expander.Sound.exists_plays_of_derivesIn`). In which order it asks does not matter.
-/

namespace CodonGrammar

variable {ε S : Type}

namespace Grammar

/-- A sentence is derived from another in the given number of steps. -/
inductive DerivesIn (grammar : Grammar) : Nat → List Symbol → List Symbol → Prop where
  | zero (sentence : List Symbol) : DerivesIn grammar 0 sentence sentence
  | succ {count : Nat} {sentence next last : List Symbol} :
      grammar.Rewrites sentence next → DerivesIn grammar count next last →
      DerivesIn grammar (count + 1) sentence last

variable {grammar : Grammar}

/-! ## Steps in two parts of a sentence -/

/-- A step changes the first part of a sentence or the second one. -/
theorem Rewrites.split {first second next : List Symbol}
    (h : grammar.Rewrites (first ++ second) next) :
    (∃ changed, grammar.Rewrites first changed ∧ next = changed ++ second) ∨
      ∃ changed, grammar.Rewrites second changed ∧ next = first ++ changed := by
  generalize hWhole : first ++ second = whole at h
  obtain ⟨before, after, hRule, hAlternative⟩ := h
  rename_i symbol rule alternative
  rcases List.append_eq_append_iff.mp hWhole with ⟨between, rfl, rfl⟩ | ⟨between, rfl, hSecond⟩
  · exact .inr ⟨_, .expand between after hRule hAlternative, List.append_assoc ..⟩
  · cases between with
    | nil =>
      obtain rfl : symbol :: after = second := hSecond
      refine .inr ⟨_, .expand [] after hRule hAlternative, ?_⟩
      simp
    | cons found between =>
      obtain ⟨rfl, rfl⟩ := List.cons.inj hSecond
      refine .inl ⟨_, .expand before between hRule hAlternative, ?_⟩
      simp

namespace DerivesIn

variable {count more : Nat} {sentence next last : List Symbol}

theorem trans (hFirst : grammar.DerivesIn count sentence next)
    (hMore : grammar.DerivesIn more next last) :
    grammar.DerivesIn (count + more) sentence last := by
  induction hFirst with
  | zero => rwa [Nat.zero_add]
  | succ hStep _ ih =>
    rw [Nat.add_right_comm]
    exact .succ hStep (ih hMore)

theorem append_left (front : List Symbol) (h : grammar.DerivesIn count sentence last) :
    grammar.DerivesIn count (front ++ sentence) (front ++ last) := by
  induction h with
  | zero => exact .zero _
  | succ hStep _ ih => exact .succ (hStep.append_left front) ih

theorem append_right (back : List Symbol) (h : grammar.DerivesIn count sentence last) :
    grammar.DerivesIn count (sentence ++ back) (last ++ back) := by
  induction h with
  | zero => exact .zero _
  | succ hStep _ ih => exact .succ (hStep.append_right back) ih

/-- The two parts of a sentence are derived independently of each other. -/
theorem split {first second : List Symbol} (h : grammar.DerivesIn count (first ++ second) last) :
    ∃ steps others front back, count = steps + others ∧ last = front ++ back ∧
      grammar.DerivesIn steps first front ∧ grammar.DerivesIn others second back := by
  generalize hWhole : first ++ second = whole at h
  induction h generalizing first second with
  | zero => exact ⟨0, 0, first, second, rfl, hWhole.symm, .zero _, .zero _⟩
  | succ hStep _ ih =>
    subst hWhole
    rcases hStep.split with ⟨changed, hChange, rfl⟩ | ⟨changed, hChange, rfl⟩
    · obtain ⟨steps, others, front, back, rfl, rfl, hFirst, hSecond⟩ := ih rfl
      exact ⟨steps + 1, others, front, back, by omega, rfl, .succ hChange hFirst, hSecond⟩
    · obtain ⟨steps, others, front, back, rfl, rfl, hFirst, hSecond⟩ := ih rfl
      exact ⟨steps, others + 1, front, back, by omega, rfl, hFirst, .succ hChange hSecond⟩

/-! ## The order of the steps -/

theorem eq_of_finished (h : grammar.DerivesIn count sentence last)
    (hFinished : grammar.Finished sentence) : count = 0 ∧ last = sentence := by
  cases h with
  | zero => exact ⟨rfl, rfl⟩
  | succ hStep _ =>
    obtain ⟨before, after, hRule, -⟩ := hStep
    cases (hFinished _ (by simp)).symm.trans hRule

/-- A symbol that has a rule is not finished, so its derivation begins with an alternative. -/
theorem of_symbol {symbol : Symbol} {rule : Rule}
    (hRule : grammar.expansionOf? symbol = some rule) (h : grammar.DerivesIn count [symbol] last)
    (hLast : grammar.Finished last) :
    ∃ steps alternative, count = steps + 1 ∧ alternative ∈ rule.alternatives ∧
      grammar.DerivesIn steps alternative.symbols last := by
  generalize hSentence : [symbol] = sentence at h
  cases h with
  | zero =>
    subst hSentence
    cases (hLast symbol (List.mem_singleton.mpr rfl)).symm.trans hRule
  | @succ steps _ _ _ hStep hRest =>
    obtain ⟨before, after, hFound, hAlternative⟩ := hStep
    rcases List.append_eq_singleton_iff.mp hSentence.symm with ⟨rfl, hSingle⟩ | ⟨-, hNil⟩
    · cases hSingle
      cases hFound.symm.trans hRule
      rw [List.nil_append, List.append_nil] at hRest
      exact ⟨steps, _, rfl, hAlternative, hRest⟩
    · cases hNil

/-- Any symbol that has a rule may be expanded first. -/
theorem expand {before after : List Symbol} {symbol : Symbol} {rule : Rule}
    (hRule : grammar.expansionOf? symbol = some rule)
    (h : grammar.DerivesIn count (before ++ symbol :: after) last)
    (hLast : grammar.Finished last) :
    ∃ steps alternative, count = steps + 1 ∧ alternative ∈ rule.alternatives ∧
      grammar.DerivesIn steps (before ++ (alternative.symbols ++ after)) last := by
  obtain ⟨first, others, front, rest, rfl, rfl, hFront, hOthers⟩ := h.split
  have hSymbol : grammar.DerivesIn others ([symbol] ++ after) rest := hOthers
  obtain ⟨expanding, later, middle, back, rfl, rfl, hMiddle, hBack⟩ := hSymbol.split
  have hMiddleLast : grammar.Finished middle := by
    intro other hOther
    exact hLast other (List.mem_append_right _ (List.mem_append_left _ hOther))
  obtain ⟨steps, alternative, rfl, hAlternative, hSteps⟩ := hMiddle.of_symbol hRule hMiddleLast
  refine ⟨first + (steps + later), alternative, by omega, hAlternative, ?_⟩
  have hRest := (hSteps.append_right after).trans (hBack.append_left middle)
  exact (hFront.append_right _).trans (hRest.append_left front)

end DerivesIn

end Grammar

/-! ## Playing a derivation -/

theorem Rule.exists_alternativeAt? {rule : Rule} {alternative : Expression}
    (h : alternative ∈ rule.alternatives) :
    ∃ place : Nat, rule.alternativeAt? place = some alternative := by
  obtain ⟨place, hPlace⟩ := List.mem_iff_getElem?.mp h
  have hNonnegative : ¬ (place : Int) < 0 := by omega
  exact ⟨place, by simpa [alternativeAt?, hNonnegative] using hPlace⟩

/-- A finished sentence that is derived in some number of steps is played with that many queries.
The induction is on the number of steps: whatever symbol the expander asks for, it may be expanded
first. -/
theorem Expander.Sound.exists_plays_of_derivesIn {expander : Expander S} {grammar : Grammar}
    {read : S → List Symbol} (h : expander.Sound grammar read) {count : Nat} {situation : S}
    {word : List Symbol} (hDerives : grammar.DerivesIn count (read situation) word)
    (hWord : grammar.Finished word) :
    ∃ (queries : List (Query ε)) (last : S), expander.Plays situation queries last ∧
      queries.length = count ∧ read last = word ∧ expander last = none := by
  induction count generalizing situation with
  | zero =>
    cases hDerives
    exact ⟨[], situation, .nil _, rfl, rfl, h.stops_of_finished hWord⟩
  | succ count ih =>
    cases hNext : expander situation with
    | none => cases (hDerives.eq_of_finished (h.finished hNext)).1
    | some step =>
      obtain ⟨rule, next⟩ := step
      obtain ⟨before, symbol, after, hRead, hRule, hAfter⟩ := h.step hNext
      rw [hRead] at hDerives
      obtain ⟨steps, alternative, hCount, hAlternative, hSteps⟩ := hDerives.expand hRule hWord
      obtain rfl := Nat.succ.inj hCount
      rw [← hAfter] at hSteps
      obtain ⟨queries, last, hPlays, rfl, hLast, hStops⟩ := ih hSteps
      obtain ⟨place, hPlace⟩ := Rule.exists_alternativeAt? hAlternative
      refine ⟨⟨rule, rule.arity, .ok place⟩ :: queries, last, ?_, rfl, hLast, hStops⟩
      exact .cons hNext rfl (by simp [Query.chosen, hPlace]) hPlays

end CodonGrammar
