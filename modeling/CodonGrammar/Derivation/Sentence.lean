import CodonGrammar.Derivation.Chooser
import CodonGrammar.Log.Record

/-!
# Deriving sentences

A derivation starts with an alternative of the first rule and replaces symbols that have a rule by
the alternative that a chooser picks, until no such symbol is left or a given number of expansions
has been made, the one of the start symbol included.
Symbols without a rule stay in the sentence, and so does whatever is left when the limit is reached.

There are two strategies. From left to right, each pass over the sentence expands every symbol that
has a rule, and what a pass puts in is left to the next one. Left-most, each step expands the first
symbol that has a rule.
-/

namespace CodonGrammar

/-- Which of the symbols that have a rule is expanded next. -/
inductive Strategy where
  | leftToRight
  | leftMost
  deriving DecidableEq, Repr

/-- The word for a strategy. -/
def Strategy.word : Strategy → String
  | leftToRight => "left-to-right"
  | leftMost => "left-most"

def Strategy.ofWord? (word : String) : Option Strategy :=
  [leftToRight, leftMost].find? (·.word = word)

namespace Grammar

variable {σ ε : Type} (grammar : Grammar) (chooser : Chooser σ ε)

/-! ## From left to right -/

/-- One pass over a sentence with a budget of expansions. It gives the sentence after the pass and
the budget that is left. -/
def expandPass : (budget : Nat) → List Symbol → σ →
    Answer σ (ChoiceError ε) (List Symbol × Nat)
  | budget, [], state => (.ok ([], budget), state)
  | 0, symbol :: rest, state => (.ok (symbol :: rest, 0), state)
  | budget + 1, symbol :: rest, state =>
    match grammar.expansionOf? symbol with
    | none =>
      (expandPass (budget + 1) rest state).andThen fun (sentence, left) state =>
        (.ok (symbol :: sentence, left), state)
    | some rule =>
      (rule.choose chooser state).andThen fun alternative state =>
        (expandPass budget rest state).andThen fun (sentence, left) state =>
          (.ok (alternative.symbols ++ sentence, left), state)

/-- Passes until one of them expands nothing. Every other pass takes from the budget, so as many
passes as there is budget are enough. -/
def expandPasses : (passes budget : Nat) → List Symbol → σ →
    Answer σ (ChoiceError ε) (List Symbol × Nat)
  | 0, budget, sentence, state => (.ok (sentence, budget), state)
  | passes + 1, budget, sentence, state =>
    (expandPass grammar chooser budget sentence state).andThen fun (next, left) state =>
      if left = budget then (.ok (next, left), state)
      else expandPasses passes left next state

/-! ## Left-most -/

/-- The first symbol of a sentence that has a rule: what stands before it, its rule, and what stands
after it. -/
def splitAtExpandable : List Symbol → Option (List Symbol × Rule × List Symbol)
  | [] => none
  | symbol :: rest =>
    match grammar.expansionOf? symbol with
    | some rule => some ([], rule, rest)
    | none =>
      (splitAtExpandable rest).map fun (before, rule, after) => (symbol :: before, rule, after)

/-- Steps until no symbol has a rule or the budget is spent. -/
def expandFirst : (budget : Nat) → List Symbol → σ →
    Answer σ (ChoiceError ε) (List Symbol × Nat)
  | 0, sentence, state => (.ok (sentence, 0), state)
  | budget + 1, sentence, state =>
    match grammar.splitAtExpandable sentence with
    | none => (.ok (sentence, budget + 1), state)
    | some (before, rule, after) =>
      (rule.choose chooser state).andThen fun alternative state =>
        expandFirst budget (before ++ alternative.symbols ++ after) state

/-! ## Either way -/

/-- Derives a sentence with at most `limit` expansions, where `limit` is positive: the start symbol
is expanded in any case. -/
def derive (strategy : Strategy) (limit : Nat) (state : σ) :
    Answer σ (ChoiceError ε) (Derived (List Symbol)) :=
  (grammar.firstRule.choose chooser state).andThen fun alternative state =>
    let budget := limit - 1
    let run := match strategy with
      | .leftToRight => grammar.expandPasses chooser budget budget alternative.symbols state
      | .leftMost => grammar.expandFirst chooser budget alternative.symbols state
    run.andThen fun (sentence, left) state => (.ok ⟨sentence, limit - left⟩, state)

end Grammar

/-- The log records about a derived sentence: one, if the limit was reached. -/
def Derived.sentenceRecords (derived : Derived (List Symbol)) (limit : Nat) : List Log.Record :=
  if limit ≤ derived.expansions then
    [⟨.debug, "cfgevo.generators",
      "Derivation stopped at the expansion limit (" ++ limit.repr ++ ")"⟩]
  else []

end CodonGrammar
