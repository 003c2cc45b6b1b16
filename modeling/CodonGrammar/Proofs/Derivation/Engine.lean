import CodonGrammar.Proofs.Derivation.Expander
import CodonGrammar.Proofs.Derivation.TreeSentence

/-!
# The engines for sentences as expanders

A sentence is derived from left to right, left-most, or as the leaves of a tree. The first two are
the runs of sound expanders from the start symbol on (`Grammar.derive_leftToRight_eq_run`,
`Grammar.derive_leftMost_eq_run`).

From left to right, the situation is a pass under way: what it has already put together and what it
still has to go through. When nothing is left to expand in the second part, the next pass starts
with both. The rounds over a sentence end by themselves: they are this run whatever number of
rounds is allowed, as long as it is not below the budget (`Grammar.expandPasses_eq_run`).
-/

namespace CodonGrammar

variable {σ ε : Type}

/-- The ways to derive a sentence. -/
inductive Engine where
  /-- As a list of symbols. -/
  | sentence (strategy : Strategy)
  /-- As a tree, read by its leaves. -/
  | tree

/-- Derives a sentence with an engine and at most `limit` expansions. -/
def Grammar.generate (grammar : Grammar) (engine : Engine) (chooser : Chooser σ ε) (limit : Nat)
    (state : σ) : Answer σ (ChoiceError ε) (Derived (List Symbol)) :=
  match engine with
  | .sentence strategy => grammar.derive chooser strategy limit state
  | .tree => (grammar.deriveTree chooser limit state).map Derived.read

/-- A pass over a sentence under way. -/
structure Pass where
  made : List Symbol
  left : List Symbol

/-- The whole sentence of a pass. -/
def Pass.sentence (pass : Pass) : List Symbol := pass.made ++ pass.left

namespace Grammar

variable (grammar : Grammar) (chooser : Chooser σ ε)

/-- The left-most step. -/
def firstExpander : Expander (List Symbol) := fun sentence =>
  (grammar.splitAtExpandable sentence).map fun (before, rule, after) =>
    (rule, fun alternative => before ++ (alternative.symbols ++ after))

/-- The step of a pass, or the first one of the next pass. -/
def passExpander : Expander Pass := fun pass =>
  match grammar.splitAtExpandable pass.left with
  | some (before, rule, after) =>
    some (rule, fun alternative => ⟨pass.made ++ before ++ alternative.symbols, after⟩)
  | none =>
    (grammar.splitAtExpandable pass.sentence).map fun (before, rule, after) =>
      (rule, fun alternative => ⟨before ++ alternative.symbols, after⟩)

variable {grammar} {chooser}

/-! ## The first symbol with a rule -/

theorem splitAtExpandable_eq_some {sentence before after : List Symbol} {rule : Rule}
    (h : grammar.splitAtExpandable sentence = some (before, rule, after)) :
    ∃ symbol, sentence = before ++ symbol :: after ∧ grammar.expansionOf? symbol = some rule ∧
      grammar.Finished before := by
  induction sentence generalizing before with
  | nil => cases h
  | cons symbol rest ih =>
    rw [splitAtExpandable] at h
    cases hRule : grammar.expansionOf? symbol with
    | some found =>
      rw [hRule] at h
      cases h
      exact ⟨symbol, rfl, hRule, by simp [Finished]⟩
    | none =>
      rw [hRule] at h
      obtain ⟨⟨front, found, back⟩, hSplit, hEq⟩ := Option.map_eq_some_iff.mp h
      cases hEq
      obtain ⟨expandable, rfl, hFound, hFront⟩ := ih hSplit
      exact ⟨expandable, rfl, hFound, List.forall_mem_cons.mpr ⟨hRule, hFront⟩⟩

theorem splitAtExpandable_eq_none_iff {sentence : List Symbol} :
    grammar.splitAtExpandable sentence = none ↔ grammar.Finished sentence := by
  induction sentence with
  | nil => simp [splitAtExpandable, Finished]
  | cons symbol rest ih =>
    rw [splitAtExpandable, Finished, List.forall_mem_cons]
    cases grammar.expansionOf? symbol with
    | some rule => simp
    | none => simpa [Finished] using ih

/-! ## Left-most -/

theorem expandFirst_eq_run (budget : Nat) (sentence : List Symbol) (state : σ) :
    grammar.expandFirst chooser budget sentence state
      = grammar.firstExpander.run chooser budget sentence state := by
  induction budget generalizing sentence state with
  | zero => rfl
  | succ budget ih =>
    rw [expandFirst, Expander.run, firstExpander]
    cases grammar.splitAtExpandable sentence with
    | none => rfl
    | some split =>
      apply Answer.andThen_congr
      intro alternative next _
      rw [ih, List.append_assoc]

variable (grammar) in
theorem sound_firstExpander : grammar.firstExpander.Sound grammar id where
  finished := by
    intro sentence hNone
    exact splitAtExpandable_eq_none_iff.mp (Option.map_eq_none_iff.mp hNone)
  step := by
    intro sentence rule next hSome
    obtain ⟨⟨before, found, after⟩, hSplit, hStep⟩ := Option.map_eq_some_iff.mp hSome
    cases hStep
    obtain ⟨symbol, hSentence, hRule, -⟩ := splitAtExpandable_eq_some hSplit
    exact ⟨before, symbol, after, hSentence, hRule, fun _ => rfl⟩

/-! ## From left to right -/

variable (grammar) in
theorem sound_passExpander : grammar.passExpander.Sound grammar Pass.sentence where
  finished := by
    intro pass hNone
    rw [passExpander] at hNone
    split at hNone
    · cases hNone
    · exact splitAtExpandable_eq_none_iff.mp (Option.map_eq_none_iff.mp hNone)
  step := by
    intro pass rule next hSome
    rw [passExpander] at hSome
    split at hSome
    · rename_i before found after hSplit
      cases hSome
      obtain ⟨symbol, hLeft, hRule, -⟩ := splitAtExpandable_eq_some hSplit
      refine ⟨pass.made ++ before, symbol, after, ?_, hRule, ?_⟩
      · rw [Pass.sentence, hLeft, List.append_assoc]
      · intro alternative
        rw [Pass.sentence, List.append_assoc]
    · obtain ⟨⟨before, found, after⟩, hSplit, hStep⟩ := Option.map_eq_some_iff.mp hSome
      cases hStep
      obtain ⟨symbol, hSentence, hRule, -⟩ := splitAtExpandable_eq_some hSplit
      refine ⟨before, symbol, after, hSentence, hRule, ?_⟩
      intro alternative
      rw [Pass.sentence, List.append_assoc]

/-- A symbol without a rule moves on as it is. -/
theorem passExpander_keep {symbol : Symbol} (hNone : grammar.expansionOf? symbol = none)
    (made rest : List Symbol) :
    grammar.passExpander ⟨made, symbol :: rest⟩
      = grammar.passExpander ⟨made ++ [symbol], rest⟩ := by
  simp only [passExpander, splitAtExpandable, hNone, Pass.sentence, List.append_assoc,
    List.cons_append, List.nil_append]
  cases grammar.splitAtExpandable rest <;> simp

/-- At the end of a pass, all of it is left to the next one. -/
theorem passExpander_again (made : List Symbol) :
    grammar.passExpander ⟨made, []⟩ = grammar.passExpander ⟨[], made⟩ := by
  simp only [passExpander, splitAtExpandable, Pass.sentence, List.append_nil, List.nil_append]
  cases grammar.splitAtExpandable made <;> simp

/-- A run from a pass, read by its sentence. -/
abbrev runPasses (grammar : Grammar) (chooser : Chooser σ ε) (budget : Nat) (pass : Pass)
    (state : σ) : Answer σ (ChoiceError ε) (List Symbol × Nat) :=
  (grammar.passExpander.run chooser budget pass state).map (Prod.map Pass.sentence id)

theorem runPasses_again (budget : Nat) (made : List Symbol) (state : σ) :
    grammar.runPasses chooser budget ⟨made, []⟩ state
      = grammar.runPasses chooser budget ⟨[], made⟩ state :=
  Expander.run_map_congr (passExpander_again made) (by simp [Pass.sentence]) budget state

/-- The run from the middle of a pass is the rest of the pass, then the run from its end. -/
theorem expandPass_runPasses (budget : Nat) (made left : List Symbol) (state : σ) :
    ((grammar.expandPass chooser budget left state).andThen fun (next, remaining) state =>
        grammar.runPasses chooser remaining ⟨made ++ next, []⟩ state)
      = grammar.runPasses chooser budget ⟨made, left⟩ state := by
  -- The induction is on what is left of the pass. What it has made so far only grows.
  fun_induction expandPass grammar chooser budget left state generalizing made with
  | case1 => simp
  | case2 => simp [runPasses, Expander.run, Pass.sentence]
  | case3 budget symbol rest state hNone ih =>
    have hMove : grammar.runPasses chooser (budget + 1) ⟨made, symbol :: rest⟩ state
        = grammar.runPasses chooser (budget + 1) ⟨made ++ [symbol], rest⟩ state :=
      Expander.run_map_congr (passExpander_keep hNone made rest) (by simp [Pass.sentence]) _ _
    rw [hMove, ← ih, Answer.andThen_assoc]
    simp only [Answer.andThen_ok, List.append_assoc, List.cons_append, List.nil_append]
  | case4 budget symbol rest state rule hRule ih =>
    have hStep : grammar.passExpander ⟨made, symbol :: rest⟩
        = some (rule, fun alternative => ⟨made ++ [] ++ alternative.symbols, rest⟩) := by
      simp only [passExpander, splitAtExpandable, hRule]
    simp only [runPasses, Expander.run, hStep, Answer.map_andThen, Answer.andThen_assoc]
    apply Answer.andThen_congr
    intro alternative next _
    rw [List.append_nil]
    refine Eq.trans ?_ (ih next (made ++ alternative.symbols))
    simp only [Answer.andThen_ok, List.append_assoc]

/-- A pass uses nothing of its budget only if nothing can be expanded or there is no budget. -/
theorem expandPass_spends {budget : Nat} {left : List Symbol} {state last : σ}
    {next : List Symbol} {remaining : Nat}
    (h : grammar.expandPass chooser budget left state = (.ok (next, remaining), last)) :
    remaining ≤ budget ∧
      (remaining = budget → next = left ∧ (budget = 0 ∨ grammar.Finished left)) := by
  fun_induction expandPass grammar chooser budget left state generalizing next remaining with
  | case1 =>
    cases h
    simp [Finished]
  | case2 =>
    cases h
    simp
  | case3 budget symbol rest state hNone ih =>
    cases hPass : grammar.expandPass chooser (budget + 1) rest state with
    | mk outcome after =>
      rw [hPass] at h
      cases outcome with
      | error error => cases h
      | ok value =>
        cases h
        obtain ⟨hLess, hSame⟩ := ih hPass
        refine ⟨hLess, ?_⟩
        intro hUnspent
        obtain ⟨hNext, hFinished⟩ := hSame hUnspent
        have hRest : grammar.Finished rest := by
          rcases hFinished with hZero | hRest
          · omega
          · exact hRest
        exact ⟨by rw [hNext], .inr (List.forall_mem_cons.mpr ⟨hNone, hRest⟩)⟩
  | case4 budget symbol rest state rule hRule ih =>
    cases hChoice : rule.choose chooser state with
    | mk choice chosen =>
      rw [hChoice] at h
      cases choice with
      | error error => cases h
      | ok alternative =>
        rw [Answer.andThen_ok] at h
        cases hPass : grammar.expandPass chooser budget rest chosen with
        | mk outcome after =>
          rw [hPass] at h
          cases outcome with
          | error error => cases h
          | ok value =>
            cases h
            have hLess := (ih chosen hPass).1
            exact ⟨by omega, by omega⟩

theorem expandPasses_eq_run {passes budget : Nat} (hPasses : budget ≤ passes)
    (sentence : List Symbol) (state : σ) :
    grammar.expandPasses chooser passes budget sentence state
      = grammar.runPasses chooser budget ⟨[], sentence⟩ state := by
  induction passes generalizing budget sentence state with
  | zero =>
    obtain rfl : budget = 0 := by omega
    simp [expandPasses, runPasses, Expander.run, Pass.sentence]
  | succ passes ih =>
    -- Every pass but the last spends some of the budget, so it never outgrows the passes left.
    rw [expandPasses, ← expandPass_runPasses]
    apply Answer.andThen_congr
    rintro ⟨next, remaining⟩ after hPass
    obtain ⟨hLess, hSame⟩ := expandPass_spends hPass
    dsimp only
    rw [List.nil_append, runPasses_again]
    split
    · rename_i hUnspent
      obtain ⟨rfl, hFinished⟩ := hSame hUnspent
      have hStops : remaining = 0 ∨ grammar.passExpander ⟨[], next⟩ = none := by
        rcases hFinished with hZero | hFinished
        · exact .inl (by omega)
        · have hNone := splitAtExpandable_eq_none_iff.mpr hFinished
          exact .inr (by simp [passExpander, Pass.sentence, hNone])
      rw [runPasses, Expander.run_stopped hStops, Answer.map_ok]
      simp [Pass.sentence]
    · exact ih (by omega) next after

/-! ## From the start symbol on -/

theorem expansionOf?_start (grammar : Grammar) :
    grammar.expansionOf? (.nonTerminal grammar.start) = some grammar.firstRule :=
  grammar.ruleFor?_start

theorem not_finished_start (grammar : Grammar) :
    ¬ grammar.Finished [.nonTerminal grammar.start] := by
  intro hFinished
  have hNone := hFinished _ (List.mem_singleton.mpr rfl)
  rw [expansionOf?_start] at hNone
  cases hNone

theorem derive_leftMost_eq_run {limit : Nat} (hLimit : 1 ≤ limit) (state : σ) :
    grammar.derive chooser .leftMost limit state
      = (grammar.firstExpander.run chooser limit [.nonTerminal grammar.start] state).map
          fun (sentence, left) => ⟨sentence, limit - left⟩ := by
  obtain ⟨budget, rfl⟩ := Nat.exists_eq_add_of_le' hLimit
  rw [derive, ← expandFirst_eq_run, expandFirst_start, Answer.map_andThen]
  apply Answer.andThen_congr
  intro alternative next _
  exact Answer.andThen_map _ _

theorem derive_leftToRight_eq_run {limit : Nat} (hLimit : 1 ≤ limit) (state : σ) :
    grammar.derive chooser .leftToRight limit state
      = (grammar.passExpander.run chooser limit ⟨[], [.nonTerminal grammar.start]⟩ state).map
          fun (pass, left) => ⟨pass.sentence, limit - left⟩ := by
  obtain ⟨budget, rfl⟩ := Nat.exists_eq_add_of_le' hLimit
  have hStep : grammar.passExpander ⟨[], [.nonTerminal grammar.start]⟩
      = some (grammar.firstRule, fun alternative => ⟨[] ++ [] ++ alternative.symbols, []⟩) := by
    simp only [passExpander, splitAtExpandable, expansionOf?_start]
  simp only [derive, Expander.run, hStep, Answer.map_andThen, List.nil_append]
  apply Answer.andThen_congr
  intro alternative next _
  rw [expandPasses_eq_run (by omega), ← runPasses_again, Nat.add_sub_cancel]
  exact (Answer.andThen_map _ _).trans (Answer.map_map _ _ _)

end Grammar

end CodonGrammar
