import CodonGrammar.Derivation.TreeGrowth

/-!
# The queries of a derivation

`Chooser.traced` keeps every question to a chooser together with its answer, a failure included.
This changes nothing else: without the queries, a derivation with such a chooser is the derivation
with the chooser itself. So a fact about derivations with all choosers also says which questions are
asked.
-/

namespace CodonGrammar

variable {σ τ ε α β : Type}

/-! ## Answers -/

namespace Answer

theorem andThen_assoc {γ : Type} (answer : Answer σ ε α) (next : α → σ → Answer σ ε β)
    (last : β → σ → Answer σ ε γ) :
    (answer.andThen next).andThen last
      = answer.andThen fun value state => (next value state).andThen last := by
  obtain ⟨outcome, state⟩ := answer
  cases outcome <;> rfl

theorem andThen_map (answer : Answer σ ε α) (f : α → β) :
    (answer.andThen fun value state => (.ok (f value), state)) = (answer.1.map f, answer.2) := by
  obtain ⟨outcome, state⟩ := answer
  cases outcome <;> rfl

/-- An answer without the second part of its state. -/
def untraced (answer : Answer (σ × τ) ε α) : Answer σ ε α := (answer.1, answer.2.1)

theorem untraced_andThen {answer : Answer (σ × τ) ε α} {plain : Answer σ ε α}
    {next : α → σ × τ → Answer (σ × τ) ε β} {plainNext : α → σ → Answer σ ε β}
    (h : answer.untraced = plain)
    (hNext : ∀ value state, (next value state).untraced = plainNext value state.1) :
    (answer.andThen next).untraced = plain.andThen plainNext := by
  subst h
  obtain ⟨outcome, state⟩ := answer
  cases outcome with
  | error error => rfl
  | ok value => exact hNext value state

end Answer

/-! ## Queries -/

/-- A question to a chooser, with the number that it answered or its failure. -/
structure Query (ε : Type) where
  rule : Rule
  bound : Int
  answer : Except ε Int

/-- The chooser that also keeps its queries, the latest first. -/
def Chooser.traced (chooser : Chooser σ ε) : Chooser (σ × List (Query ε)) ε :=
  fun rule bound (state, queries) =>
    let (answer, state) := chooser rule bound state
    (answer, (state, ⟨rule, bound, answer⟩ :: queries))

variable (chooser : Chooser σ ε)

theorem Rule.untraced_choose (rule : Rule) (state : σ × List (Query ε)) :
    (rule.choose chooser.traced state).untraced = rule.choose chooser state.1 := by
  simp only [choose, Chooser.traced]
  cases chooser rule rule.arity state.1 with
  | mk outcome next =>
    cases outcome with
    | error error => rfl
    | ok choice => cases hPlace : rule.alternativeAt? choice <;> simp [hPlace, Answer.untraced]

namespace Grammar

variable (grammar : Grammar)

theorem untraced_expandFirst (budget : Nat) (sentence : List Symbol)
    (state : σ × List (Query ε)) :
    (grammar.expandFirst chooser.traced budget sentence state).untraced
      = grammar.expandFirst chooser budget sentence state.1 := by
  induction budget generalizing sentence state with
  | zero => rfl
  | succ budget ih =>
    simp only [expandFirst]
    cases grammar.splitAtExpandable sentence with
    | none => rfl
    | some split =>
      exact Answer.untraced_andThen (split.2.1.untraced_choose chooser state)
        fun _ next => ih _ next

theorem untraced_growTree (budget : Nat) (tree : DerivationTree) (state : σ × List (Query ε)) :
    (grammar.growTree chooser.traced budget tree state).untraced
      = grammar.growTree chooser budget tree state.1 := by
  induction budget generalizing tree state with
  | zero => rfl
  | succ budget ih =>
    simp only [growTree]
    cases tree.firstRule? grammar with
    | none => rfl
    | some rule =>
      exact Answer.untraced_andThen (rule.untraced_choose chooser state) fun _ next => ih _ next

theorem untraced_derive (limit : Nat) (state : σ × List (Query ε)) :
    (grammar.derive chooser.traced .leftMost limit state).untraced
      = grammar.derive chooser .leftMost limit state.1 := by
  refine Answer.untraced_andThen (grammar.firstRule.untraced_choose chooser state) ?_
  intro alternative next
  exact Answer.untraced_andThen (grammar.untraced_expandFirst chooser (limit - 1) _ next)
    fun _ _ => rfl

theorem untraced_deriveTree (limit : Nat) (state : σ × List (Query ε)) :
    (grammar.deriveTree chooser.traced limit state).untraced
      = grammar.deriveTree chooser limit state.1 :=
  Answer.untraced_andThen (grammar.untraced_growTree chooser limit _ state) fun _ _ => rfl

end Grammar

end CodonGrammar
