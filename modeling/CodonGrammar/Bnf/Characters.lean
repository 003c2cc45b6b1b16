import CodonGrammar.Bnf.Token
import CodonGrammar.Text.CharKind

/-!
# Characters in grammar source

The classes of characters by which source is cut into tokens. A name starts with a letter or an
underscore and goes on with alphanumeric characters, underscores and hyphens; between angle
brackets it may also hold spaces. A bare run goes on until a blank, a mark, an apostrophe or an
unprintable character.
-/

namespace CodonGrammar.Bnf

open Text (apostrophe isBlank isLetter isAlphanumeric isPrintable)

def isNameStart (c : Char) : Bool := isLetter c || c == '_'

def isNamePart (c : Char) : Bool := isAlphanumeric c || c == '_' || c == '-'

/-- A character of a name between angle brackets, where spaces are allowed. -/
def isBracketedNamePart (c : Char) : Bool := isNamePart c || c == ' '

/-- Whether the assignment mark stands at the front. -/
def startsWithAssign (chars : List Char) : Bool := assignText.isPrefixOf chars

/-- Whether a bare run has to end before these characters. -/
def endsBareRun : List Char → Bool
  | [] => true
  | c :: rest =>
    isBlank c || (Mark.ofChar? c).isSome || c == apostrophe || startsWithAssign (c :: rest)
      || !isPrintable c

def bareRun : List Char → List Char
  | [] => []
  | c :: rest => if endsBareRun (c :: rest) then [] else c :: bareRun rest

def afterBareRun : List Char → List Char
  | [] => []
  | c :: rest => if endsBareRun (c :: rest) then c :: rest else afterBareRun rest

@[simp] theorem bareRun_append_afterBareRun (chars : List Char) :
    bareRun chars ++ afterBareRun chars = chars := by
  induction chars with
  | nil => rfl
  | cons c rest ih =>
    rw [bareRun, afterBareRun]
    split
    · rfl
    · rw [List.cons_append, ih]

theorem isNamePart_apostrophe : isNamePart apostrophe = false := by decide

theorem isBracketedNamePart_apostrophe : isBracketedNamePart apostrophe = false := by decide

theorem apostrophe_not_mem_takeWhile {p : Char → Bool} (h : p apostrophe = false)
    (chars : List Char) : apostrophe ∉ chars.takeWhile p := by
  intro hMem
  have hHolds : p apostrophe = true := List.all_eq_true.mp List.all_takeWhile _ hMem
  rw [h] at hHolds
  cases hHolds

theorem apostrophe_not_mem_bareRun (chars : List Char) : apostrophe ∉ bareRun chars := by
  induction chars with
  | nil => simp [bareRun]
  | cons c rest ih =>
    rw [bareRun]
    split
    · simp
    · next hGoesOn =>
      have hDiffers : apostrophe ≠ c := by
        intro hSame
        apply hGoesOn
        simp [endsBareRun, hSame]
      simp [hDiffers, ih]

end CodonGrammar.Bnf
