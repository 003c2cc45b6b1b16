/-!
# Line breaks

A line may end with a line feed, with a carriage return, or with both in this order. Text that comes
from outside gets a single line feed for each of them.
-/

namespace CodonGrammar.Text

/-- The text with a line feed for every line break. -/
def unifyBreaks : List Char → List Char
  | [] => []
  | '\r' :: '\n' :: rest => '\n' :: unifyBreaks rest
  | '\r' :: rest => '\n' :: unifyBreaks rest
  | c :: rest => c :: unifyBreaks rest

end CodonGrammar.Text
