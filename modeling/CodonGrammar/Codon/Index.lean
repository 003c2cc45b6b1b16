import CodonGrammar.Codon.RuleCodons

/-!
# Symbol indexes

A symbol index is whatever picks the alternatives of a derivation: codons shared by all rules,
codons of each rule, or a script of numbers that are answered as they are, one after the other and
from the beginning again, whether they fit the rule or not.
-/

namespace CodonGrammar

/-- A non-empty list of answers, and the cursor of the next one. -/
structure Script where
  answers : List Int
  cursor : Nat
  cursor_lt : cursor < answers.length

namespace Script

/-- The script at the beginning of its answers, if there is one. -/
def of? (answers : List Int) : Option Script :=
  if h : 0 < answers.length then some ⟨answers, 0, h⟩ else none

/-- Answers the number at the cursor. -/
def next (script : Script) : Int × Script :=
  (script.answers.get ⟨script.cursor, script.cursor_lt⟩,
    ⟨script.answers, (script.cursor + 1) % script.answers.length,
      Nat.mod_lt _ (Nat.zero_lt_of_lt script.cursor_lt)⟩)

end Script

/-- What picks the alternatives of a derivation. -/
inductive Index where
  | shared (codons : Codons)
  | byRule (codons : RuleCodons)
  | script (script : Script)

namespace Index

/-- Picks a number for a rule with the given head and number of alternatives. -/
def next (index : Index) (head : NonTerminal) (bound : Int) :
    Except RuleCodonsError Int × Index :=
  match index with
  | shared codons =>
    match codons.next bound with
    | (.ok value, moved) => (.ok value, shared moved)
    | (.error error, moved) => (.error (.bound error), shared moved)
  | byRule codons =>
    match codons.next head bound with
    | (.ok value, moved) => (.ok value, byRule moved)
    | (.error error, moved) => (.error error, byRule moved)
  | script answers =>
    let (value, moved) := answers.next
    (.ok value, script moved)

end Index

end CodonGrammar
