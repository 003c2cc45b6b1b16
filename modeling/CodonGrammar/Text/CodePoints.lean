/-!
# Sets of code points

A set of code points is written as a list of ranges. The ranges are increasing and disjoint and
hold both their ends, so a look-up stops at the first range that lies above the code point, and
characters early in the code space are found at once.
-/

namespace CodonGrammar.Text

/-- Ranges of code points, increasing and disjoint, each with both of its ends. -/
abbrev CodePoints := List (Nat × Nat)

namespace CodePoints

/-- Membership in a set of code points. -/
def has : CodePoints → Nat → Bool
  | [], _ => false
  | (first, last) :: rest, n =>
    if n < first then false else if n ≤ last then true else has rest n

end CodePoints

end CodonGrammar.Text
