/-!
# Trimming text

Taking the characters of a class away from the ends of a text. What is taken away at the end is the
longest run of such characters there, so the trimmed text and that run make the whole text again.
-/

namespace CodonGrammar.Text

/-- The text without the characters of a class at its end. -/
def trimEnd (inClass : Char → Bool) (text : List Char) : List Char :=
  (text.reverse.dropWhile inClass).reverse

/-- The text without the characters of a class at its two ends. -/
def trim (inClass : Char → Bool) (text : List Char) : List Char :=
  trimEnd inClass (text.dropWhile inClass)

theorem trimEnd_append (inClass : Char → Bool) (text : List Char) :
    trimEnd inClass text ++ (text.reverse.takeWhile inClass).reverse = text := by
  rw [trimEnd, ← List.reverse_append, List.takeWhile_append_dropWhile, List.reverse_reverse]

end CodonGrammar.Text
