import CodonGrammar.Bnf.Lowering
import Mathlib.Data.Finset.Dedup
import Mathlib.Data.Finset.Insert

/-!
# The search for a new name

The name of a group is searched for in a loop that nothing bounds. Each round counts up by one, and
the first round whose name is not taken ends the loop. `Search` is this loop with the number of its
rounds, and `Searches` is one search after another, each with the numbering that the one before it
leaves.

Lowering itself takes the number from `freshNumber`, which looks no further than a search can get.
-/

namespace CodonGrammar.Bnf

/-- What the search for a fresh name looks at and changes: the last number used, and the names that
are taken. -/
structure Numbering where
  counter : Nat
  names : Finset String

def Lowering.numbering (state : Lowering) : Numbering := ⟨state.counter, state.names.toFinset⟩

/-- One round: the name with the next number, unless it is taken. -/
def Numbering.round (head : NonTerminal) (bracket : Bracket) (start : Numbering) :
    Option NonTerminal × Numbering :=
  let number := start.counter + 1
  let name := auxiliaryName head bracket number
  if name ∈ start.names then (none, ⟨number, start.names⟩)
  else (some ⟨name⟩, ⟨number, insert name start.names⟩)

/-- A search that ends after some rounds, with the non-terminal that it returns and the numbering
that it leaves. -/
inductive Search (head : NonTerminal) (bracket : Bracket) :
    Numbering → Nat → NonTerminal → Numbering → Prop where
  | found {start last : Numbering} {symbol : NonTerminal} :
      start.round head bracket = (some symbol, last) → Search head bracket start 1 symbol last
  | again {start next last : Numbering} {rounds : Nat} {symbol : NonTerminal} :
      start.round head bracket = (none, next) → Search head bracket next rounds symbol last →
      Search head bracket start (rounds + 1) symbol last

/-- What a search finds: the non-terminal that it returns, with the counter that it leaves. -/
structure Found where
  symbol : NonTerminal
  counter : Nat

/-- Searches for new names, one after another, with all that they find and the numbering after the
last of them. -/
inductive Searches :
    Numbering → List (NonTerminal × Bracket) → List Found → Numbering → Prop where
  | nil (start : Numbering) : Searches start [] [] start
  | cons {start next last : Numbering} {head : NonTerminal} {bracket : Bracket} {rounds : Nat}
      {symbol : NonTerminal} {requests : List (NonTerminal × Bracket)} {found : List Found} :
      Search head bracket start rounds symbol next → Searches next requests found last →
      Searches start ((head, bracket) :: requests) (⟨symbol, next.counter⟩ :: found) last

end CodonGrammar.Bnf
