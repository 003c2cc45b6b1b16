import CodonGrammar.Codon.Codons
import CodonGrammar.Grammar.Basic

/-!
# One reader for each rule

Each rule of a grammar may have codons of its own. The reader to use is the one at the place of the
first rule with the head in question; readers of later rules with the same head are never moved.
-/

namespace CodonGrammar

/-- The heads of the rules of a grammar, each with the reader of its rule, in the order of the
rules. -/
structure RuleCodons where
  readers : List (NonTerminal × Codons)

/-- The number of readers is not the number of rules. -/
structure ReaderCountError where
  expected : Nat
  actual : Nat
  deriving DecidableEq, Repr

def ReaderCountError.message (error : ReaderCountError) : String :=
  "Expected one codon reader per rule (" ++ error.expected.repr ++ "), got "
    ++ error.actual.repr ++ "."

/-- Why a reading by rule fails. -/
inductive RuleCodonsError where
  /-- No rule has this head. -/
  | noCodons (head : NonTerminal)
  /-- The bound is not positive. -/
  | bound (error : BoundError)
  deriving DecidableEq, Repr

def RuleCodonsError.message : RuleCodonsError → String
  | noCodons head => "No codons for rule " ++ head.written
  | bound error => error.message

namespace RuleCodons

/-- The readers of the rules of a grammar, one for each. -/
def of (grammar : Grammar) (readers : List Codons) : Except ReaderCountError RuleCodons :=
  if readers.length = grammar.rules.length then
    .ok ⟨(grammar.rules.map Rule.head).zip readers⟩
  else
    .error ⟨grammar.rules.length, readers.length⟩

/-- Reads from the first of the readers with the given head. -/
def nextFrom (head : NonTerminal) (bound : Int) : List (NonTerminal × Codons) →
    Except RuleCodonsError Nat × List (NonTerminal × Codons)
  | [] => (.error (.noCodons head), [])
  | (owner, reader) :: rest =>
    if owner = head then
      match reader.next bound with
      | (.ok value, moved) => (.ok value, (owner, moved) :: rest)
      | (.error error, moved) => (.error (.bound error), (owner, moved) :: rest)
    else
      let (answer, others) := nextFrom head bound rest
      (answer, (owner, reader) :: others)

/-- Reads one codon of the first rule with the given head. -/
def next (codons : RuleCodons) (head : NonTerminal) (bound : Int) :
    Except RuleCodonsError Nat × RuleCodons :=
  let (answer, readers) := nextFrom head bound codons.readers
  (answer, ⟨readers⟩)

/-- The cursors of all readers, in the order of the rules. -/
def cursors (codons : RuleCodons) : List Nat :=
  codons.readers.map fun reader => reader.2.cursor

end RuleCodons

end CodonGrammar
