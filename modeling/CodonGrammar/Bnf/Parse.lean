import CodonGrammar.Bnf.Cursor
import CodonGrammar.Bnf.Lowering

/-!
# Grammars from source

A source is cut into tokens, the tokens make an outline, and the brackets of the outline become
rules of their own.

Brackets may lie inside each other to any depth. A parser with one call for each open bracket gives
up when the calls are nested too deeply for the system that it runs on. Such a limit is no part of
the language and is left out here: a source is accepted or refused for its tokens alone.
-/

namespace CodonGrammar

namespace Bnf

/-- Reads a whole source. -/
def read (source : String) : Except Error Reading :=
  match tokenize source with
  | .error error => .error error
  | .ok list =>
    match Outline.ofTokens list with
    | .error error => .error error
    | .ok outline => .ok (outline.lower list.bracketedNames)

end Bnf

/-- The grammar that a source describes. -/
def Grammar.parse (source : String) : Except Bnf.Error Grammar :=
  (Bnf.read source).map Bnf.Reading.grammar

end CodonGrammar
