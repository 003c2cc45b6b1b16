import CodonGrammar.Bnf.Characters
import CodonGrammar.Grammar.Basic

/-!
# Grammars in writing

Every symbol, alternative, rule and grammar has one written form. A terminal is written as it is
when its text is one bare run, and otherwise between apostrophes: when it is empty, or holds a
blank, a mark or an unprintable character. Rules stand on lines of their own; a terminal may break
a line, but only between its apostrophes.
-/

namespace CodonGrammar

namespace Bnf

open Text (isBlank isPrintable)

/-- Whether the assignment mark occurs anywhere in a text. -/
def holdsAssign : List Char → Bool
  | [] => false
  | c :: rest => startsWithAssign (c :: rest) || holdsAssign rest

/-- A character that a terminal holds only between apostrophes. -/
def forcesQuotes (c : Char) : Bool :=
  isBlank c || (Mark.ofChar? c).isSome || !isPrintable c

/-- Whether a terminal with this text is written between apostrophes. -/
def needsQuotes (text : List Char) : Bool :=
  text.isEmpty || holdsAssign text || text.any forcesQuotes

end Bnf

def Terminal.written (symbol : Terminal) : String :=
  if Bnf.needsQuotes symbol.text.toList then
    String.ofList (Text.apostrophe :: symbol.text.toList ++ [Text.apostrophe])
  else
    symbol.text

def Symbol.written : Symbol → String
  | .terminal symbol => symbol.written
  | .nonTerminal symbol => symbol.written

/-- The written form of an alternative, its symbols separated by single spaces. -/
def Expression.written (expression : Expression) : String :=
  String.intercalate " " (expression.symbols.map Symbol.written)

def Rule.written (rule : Rule) : String :=
  rule.head.written ++ " ::= "
    ++ String.intercalate " | " (rule.alternatives.map Expression.written)

/-- The written form of a grammar, without a final line break. -/
def Grammar.written (grammar : Grammar) : String :=
  String.intercalate "\n" (grammar.rules.map Rule.written)

/-- The grammar as complete source, with a final line break. -/
def Grammar.toSource (grammar : Grammar) : String :=
  grammar.written ++ "\n"

namespace Bnf

/-- The reason why a text cannot be written as a terminal: it holds an apostrophe. -/
structure Unwritable where
  text : String

def Unwritable.message (error : Unwritable) : String :=
  "Cannot render " ++ Text.quoted error.text ++ ": terminals cannot contain "
    ++ String.singleton Text.apostrophe

/-- The written form of a terminal with the given text. -/
def escape (text : String) : Except Unwritable String :=
  match Terminal.ofText? text with
  | some symbol => .ok symbol.written
  | none => .error ⟨text⟩

end Bnf

end CodonGrammar
