import CodonGrammar.Bnf.Token

/-!
# Errors in grammar source

Reading a source fails in one of two ways. A lexical error is a character that belongs to no token.
A misplaced token is one that cannot follow what was read before it; the error says what was
expected in its place.
-/

namespace CodonGrammar.Bnf

/-- What was expected where a token does not fit. -/
inductive Expected where
  /-- A given mark. -/
  | mark (mark : Mark)
  /-- A name. -/
  | name
  /-- Anything that an alternative can start with. -/
  | symbol
  /-- The apostrophe that ends a quoted text. -/
  | closingQuote
  deriving DecidableEq, Repr

/-- The name by which messages call what was expected. -/
def Expected.shown : Expected → String
  | mark m => m.name
  | name => "ID"
  | symbol => "symbol"
  | closingQuote => "closing quote of QUOTED_STRING"

/-- An error in grammar source. -/
inductive Error where
  /-- A character that starts no token. -/
  | lexical (char : Char) (position : Nat)
  /-- A token that does not fit. -/
  | misplaced (expected : Expected) (actual : Token)
  deriving DecidableEq

namespace Error

def position : Error → Nat
  | lexical _ position => position
  | misplaced _ actual => actual.position

def message : Error → String
  | lexical char position =>
    "Got invalid character " ++ Text.quoted (String.singleton char) ++ " at position "
      ++ position.repr ++ "."
  | misplaced expected actual =>
    "Expected " ++ expected.shown ++ " but got " ++ actual.shown ++ " at position "
      ++ actual.position.repr ++ "."

end Error

end CodonGrammar.Bnf
