import CodonGrammar.Text.Quoted

/-!
# Plain values

A plain value is what may stand, by mistake or for display, where a part of a grammar or a cell of
a table is expected: a text, an integer, a truth value, nothing, or a list of such values.
`Value.shown` writes it the way messages name a value, `Value.written` the way it stands in for a
symbol, `Value.cell` the way a table shows it.
-/

namespace CodonGrammar

/-- A value that is no part of a grammar. -/
inductive Value where
  | text (chars : String)
  | integer (number : Int)
  | truth (holds : Bool)
  | nothing
  | list (items : List Value)

namespace Value

def truthWord (holds : Bool) : String :=
  if holds then "True" else "False"

mutual

/-- The value as messages show it, with text between quotes. -/
def shown : Value → String
  | text chars => Text.quoted chars
  | integer number => number.repr
  | truth holds => truthWord holds
  | nothing => "None"
  | list items => "[" ++ String.intercalate ", " (shownItems items) ++ "]"

def shownItems : List Value → List String
  | [] => []
  | item :: rest => shown item :: shownItems rest

end

/-- The value as it is written where a symbol is expected, with text as it is. -/
def written : Value → String
  | text chars => chars
  | other => other.shown

/-- The value as the cell of a table: text as it is, and nothing as the empty text. -/
def cell : Value → String
  | nothing => ""
  | other => other.written

end Value

end CodonGrammar
