import CodonGrammar.Text.CharKind.Letters
import CodonGrammar.Text.CharKind.Numerals
import CodonGrammar.Text.CharKind.Unprintable

/-!
# Kinds of characters

Every character has exactly one kind, and the character classes that grammar source is read with
(`isLetter`, `isAlphanumeric`, `isPrintable`, `isBlank`) are unions of kinds. So the relations
between the classes hold by cases on the kind: a letter is alphanumeric, an alphanumeric character
is printable, and it is not blank.
-/

namespace CodonGrammar.Text

/-- The blanks: white space, line breaks, and the four separators U+001C to U+001F. -/
def blanks : CodePoints :=
  [(0x9, 0xD), (0x1C, 0x20), (0x85, 0x85), (0xA0, 0xA0), (0x1680, 0x1680), (0x2000, 0x200A),
   (0x2028, 0x2029), (0x202F, 0x202F), (0x205F, 0x205F), (0x3000, 0x3000)]

/-- What a character is, as far as reading and quoting text is concerned. -/
inductive CharKind where
  /-- A letter of any script. -/
  | letter
  /-- A character with a numeric value that is no letter. -/
  | numeral
  /-- Any other character that is seen in print. -/
  | sign
  /-- U+0020, the one blank that counts as printable. -/
  | space
  /-- Any other blank. -/
  | blank
  /-- A control or format character, or an unassigned code point. -/
  | hidden
  deriving DecidableEq, Repr

/-- The kind of a character. -/
def CharKind.of (c : Char) : CharKind :=
  if blanks.has c.toNat then
    if c = ' ' then .space else .blank
  else if letters.has c.toNat then .letter
  else if numerals.has c.toNat then .numeral
  else if unprintables.has c.toNat then .hidden
  else .sign

/-- White space in the widest sense, line breaks included. -/
def isBlank (c : Char) : Bool :=
  match CharKind.of c with
  | .space | .blank => true
  | _ => false

def isLetter (c : Char) : Bool :=
  match CharKind.of c with
  | .letter => true
  | _ => false

def isAlphanumeric (c : Char) : Bool :=
  match CharKind.of c with
  | .letter | .numeral => true
  | _ => false

/-- A character that is written as itself in quoted text. -/
def isPrintable (c : Char) : Bool :=
  match CharKind.of c with
  | .letter | .numeral | .sign | .space => true
  | .blank | .hidden => false

theorem isAlphanumeric_of_isLetter {c : Char} (h : isLetter c = true) :
    isAlphanumeric c = true := by
  unfold isLetter at h
  unfold isAlphanumeric
  cases hk : CharKind.of c <;> simp_all

theorem isPrintable_of_isAlphanumeric {c : Char} (h : isAlphanumeric c = true) :
    isPrintable c = true := by
  unfold isAlphanumeric at h
  unfold isPrintable
  cases hk : CharKind.of c <;> simp_all

theorem not_isBlank_of_isAlphanumeric {c : Char} (h : isAlphanumeric c = true) :
    isBlank c = false := by
  unfold isAlphanumeric at h
  unfold isBlank
  cases hk : CharKind.of c <;> simp_all

end CodonGrammar.Text
