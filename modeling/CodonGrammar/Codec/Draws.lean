/-!
# Random numbers

A random source answers a lower and an upper bound with a number from the lower bound on and below
the upper one. Scripted draws are such a source: they are numbers used one after the other, and from
the beginning again, each taken modulo the width of the range that is asked for.
-/

namespace CodonGrammar

/-- Draws a number from the first bound on and below the second one. -/
abbrev RandomSource (σ : Type) := Int → Int → σ → Int × σ

namespace RandomSource

variable {σ : Type}

def times (source : RandomSource σ) (lower upper : Int) : Nat → σ → List Int × σ
  | 0, state => ([], state)
  | count + 1, state =>
    let (first, state) := source lower upper state
    let (others, state) := times source lower upper count state
    (first :: others, state)

/-- One request to a source, and its answer. -/
structure Call where
  lower : Int
  upper : Int
  drawn : Int

/-- The source that also keeps its calls, the latest first. -/
def recorded (source : RandomSource σ) : RandomSource (σ × List Call) :=
  fun lower upper (state, calls) =>
    let (drawn, state) := source lower upper state
    (drawn, (state, ⟨lower, upper, drawn⟩ :: calls))

end RandomSource

/-- A non-empty list of scripted numbers, and the cursor of the next one. -/
structure Draws where
  numbers : List Nat
  cursor : Nat
  cursor_lt : cursor < numbers.length

namespace Draws

/-- The draws at the beginning of a list of numbers, if there is one. -/
def of? (numbers : List Nat) : Option Draws :=
  if h : 0 < numbers.length then some ⟨numbers, 0, h⟩ else none

/-- The scripted numbers as a random source. -/
def draw : RandomSource Draws := fun lower upper draws =>
  (lower + (draws.numbers.get ⟨draws.cursor, draws.cursor_lt⟩ : Int) % (upper - lower),
    ⟨draws.numbers, (draws.cursor + 1) % draws.numbers.length,
      Nat.mod_lt _ (Nat.zero_lt_of_lt draws.cursor_lt)⟩)

/-- A scripted number lies in the range that is asked for, unless the range is empty. -/
theorem draw_bounds {lower upper : Int} (h : lower < upper) (draws : Draws) :
    lower ≤ (draw lower upper draws).1 ∧ (draw lower upper draws).1 < upper := by
  have hLow := Int.emod_nonneg (draws.numbers.get ⟨draws.cursor, draws.cursor_lt⟩ : Int)
    (show upper - lower ≠ 0 by omega)
  have hHigh := Int.emod_lt_of_pos (draws.numbers.get ⟨draws.cursor, draws.cursor_lt⟩ : Int)
    (show 0 < upper - lower by omega)
  simp only [draw]
  omega

end Draws

end CodonGrammar
