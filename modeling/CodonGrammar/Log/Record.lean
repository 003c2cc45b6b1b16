/-!
# Log records

What a computation has to say besides its result: records with a severity, the name of the part
that speaks, and a text.
-/

namespace CodonGrammar.Log

/-- How severe a record is, from the least to the most. -/
inductive Level where
  | debug
  | info
  | warning
  | error
  | critical
  deriving DecidableEq, Repr

/-- The word for a level in a record. -/
def Level.word : Level → String
  | debug => "DEBUG"
  | info => "INFO"
  | warning => "WARNING"
  | error => "ERROR"
  | critical => "CRITICAL"

/-- The rank of a level, growing with its severity. -/
def Level.rank : Level → Nat
  | debug => 10
  | info => 20
  | warning => 30
  | error => 40
  | critical => 50

/-- One log record. -/
structure Record where
  level : Level
  logger : String
  message : String
  deriving DecidableEq, Repr

end CodonGrammar.Log
