import CodonGrammar.Derivation.Chooser
import CodonGrammar.Number.Field
import CodonGrammar.Environment

/-!
# Settings

What the program takes from its environment. A variable that is missing or empty stands for the
default. The three numbers have to be positive; all that are not are reported together.
-/

namespace CodonGrammar

/-- The settings of the program. -/
structure Settings where
  /-- How many expansions a derivation makes at most. -/
  limit : Positive := ⟨defaultLimit, by decide⟩
  /-- How many codons a random chromosome has. -/
  codonCount : Positive := ⟨100, by decide⟩
  /-- The number that all random codons are below. -/
  codonMax : Positive := ⟨256, by decide⟩
  /-- The word for the least level of log records that are kept. -/
  logLevel : String := "INFO"
  /-- The file to which log records go. -/
  logFile : String := "cfgevo.log"
  deriving DecidableEq

namespace Settings

def default : Settings := {}

section Reading

variable (reader : FieldReader)

def numberFrom (setting : Option String) (otherwise : Positive) : Except FieldError Positive :=
  match setting with
  | none => .ok otherwise
  | some text => reader.readPositive (.text text)

def ofEnvironment (environment : Environment) : Except (List FieldFault) Settings :=
  let number := fun name => numberFrom reader (environment.nonempty? name)
  let limit := number "CFGEVO_LIMIT" default.limit
  let codonCount := number "CFGEVO_CODON_COUNT" default.codonCount
  let codonMax := number "CFGEVO_CODON_MAX" default.codonMax
  match limit, codonCount, codonMax with
  | .ok limit, .ok codonCount, .ok codonMax =>
    .ok ⟨limit, codonCount, codonMax,
      (environment.nonempty? "LOG_LEVEL").getD default.logLevel,
      (environment.nonempty? "LOG_FILE").getD default.logFile⟩
  | _, _, _ =>
    .error ([FieldFault.of? "limit" limit, FieldFault.of? "codon_count" codonCount,
      FieldFault.of? "codon_max" codonMax].filterMap id)

end Reading

end Settings

end CodonGrammar
