import CodonGrammar.Text.CharKind
import CodonGrammar.Text.Digit
import CodonGrammar.Text.Quoted
import CodonGrammar.Text.Trim

/-!
# Reading decimal numerals

A numeral is an optional sign and decimal digits of any scripts, with single underscores allowed
between digits and white space around the whole. A numeral of more than 4300 digits is refused, and
that is found out before anything after the digits is looked at.
-/

namespace CodonGrammar.Number

/-- White space as it may surround a number: any blank but the separators U+001C to U+001F. -/
def isSurroundingSpace (c : Char) : Bool :=
  Text.isBlank c && !(0x1C ≤ c.toNat && c.toNat ≤ 0x1F)

def trimSpace (text : List Char) : List Char := Text.trim isSurroundingSpace text

def maxDigits : Nat := 4300

/-- Why a text is no numeral. -/
inductive NumeralError where
  /-- The text is not of the form of a numeral. -/
  | malformed (text : String)
  /-- The numeral has too many digits. -/
  | tooLong (digits : Nat)
  deriving DecidableEq, Repr

/-- The largest number of characters that is shown of a text that is no numeral, quotes included. -/
def maxShown : Nat := 200

def NumeralError.message : NumeralError → String
  | malformed text =>
    "invalid literal for int() with base 10: "
      ++ String.ofList ((Text.quoted text).toList.take maxShown)
  | tooLong digits =>
    "Exceeds the limit (" ++ maxDigits.repr
      ++ " digits) for integer string conversion: value has " ++ digits.repr
      ++ " digits; use sys.set_int_max_str_digits() to increase the limit"

def isNumeralPart (c : Char) : Bool := (Text.digitValue? c).isSome || c == '_'

/-- Whether the underscores of a run of digits and underscores stand between digits, one at a time.
The flag says whether the run comes after a digit. An empty run does not fit. -/
def underscoresFit : (afterDigit : Bool) → List Char → Bool
  | afterDigit, [] => afterDigit
  | afterDigit, c :: rest =>
    if c = '_' then afterDigit && underscoresFit false rest else underscoresFit true rest

/-- The number with the given decimal digits, the most significant first. -/
def ofDigits (digits : List Nat) : Nat :=
  digits.foldl (fun number digit => 10 * number + digit) 0

def splitSign : List Char → Bool × List Char
  | '-' :: rest => (true, rest)
  | '+' :: rest => (false, rest)
  | chars => (false, chars)

def withSign (negative : Bool) (number : Nat) : Int :=
  if negative then -number else number

def readInteger (text : String) : Except NumeralError Int :=
  let (negative, unsigned) := splitSign (text.toList.dropWhile isSurroundingSpace)
  let run := unsigned.takeWhile isNumeralPart
  let after := unsigned.dropWhile isNumeralPart
  let digits := run.filterMap Text.digitValue?
  if underscoresFit false run then
    if maxDigits < digits.length then .error (.tooLong digits.length)
    else if after.all isSurroundingSpace then .ok (withSign negative (ofDigits digits))
    else .error (.malformed text)
  else .error (.malformed text)

end CodonGrammar.Number
