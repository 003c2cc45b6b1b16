import CodonGrammar.Number.Numeral
import CodonGrammar.Text.Split

/-!
# Codons on the command line

Codons are written as integers with commas between them. Spaces do not count, wherever they are, and
neither do commas with nothing between them.
-/

namespace CodonGrammar.CommandLine

/-- Why a text is no list of codons. -/
inductive CodonListError where
  /-- One of the parts is no integer. -/
  | malformed (text : String)
  /-- There are no parts. -/
  | empty
  deriving DecidableEq, Repr

def CodonListError.message : CodonListError → String
  | malformed text => "codons must be comma separated integers: " ++ Text.quoted text
  | empty => "at least one codon is needed"

/-- The parts of a text between its commas, spaces and empty parts left out. -/
def codonParts (text : List Char) : List (List Char) :=
  (Text.splitAtEach ',' (text.filter (· != ' '))).filter (!·.isEmpty)

/-- The integers that parts of a text are written for, if all of them are. -/
def readParts : List (List Char) → Option (List Int)
  | [] => some []
  | part :: rest =>
    match Number.readInteger (String.ofList part), readParts rest with
    | .ok number, some numbers => some (number :: numbers)
    | _, _ => none

def readCodonList (text : String) : Except CodonListError (List Int) :=
  match readParts (codonParts text.toList) with
  | none => .error (.malformed text)
  | some [] => .error .empty
  | some (first :: rest) => .ok (first :: rest)

end CodonGrammar.CommandLine
