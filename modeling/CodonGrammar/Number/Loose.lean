import CodonGrammar.Number.Field

/-!
# Loosely written integers

An integer in a field of a record is written with decimal digits of the ASCII range, without a
leading zero, and with a minus sign in front of it if it is negative. A text that is not of this
form is tidied once, and then it has to be of it. Tidying drops, in this order,

* white space at both ends, and a plus sign, which no minus sign may follow,
* behind a minus sign, which stays, leading zeros and underscores among them, where the first
  character has to be a digit,
* a decimal point with one or more zeros behind it, and nothing else,
* underscores, if none is at an end of the text and no two are side by side.

The digits of what follows the leading zeros need not follow them directly: a minus sign there is
the sign of the number, if there is none in front of the zeros.

A text that starts with too many digits is told apart from one of another form, but only if it
starts with them before it is tidied.

Besides such a text, an integer field takes an integer, a truth value, or a fraction without
fractional part.
-/

namespace CodonGrammar

namespace Number

def isAsciiDigit (c : Char) : Bool := '0' ≤ c && c ≤ '9'

def asciiDigitValue (c : Char) : Nat := c.toNat - '0'.toNat

/-- Why a text stands for no integer. -/
inductive LooseError where
  /-- The text is of another form. -/
  | malformed
  /-- The number has too many digits. -/
  | tooLong
  deriving DecidableEq, Repr

/-- The integer that digits without a leading zero stand for. -/
def readDigits (negative : Bool) (text : List Char) : Except LooseError Int :=
  match text.takeWhile isAsciiDigit with
  | [] => .error .malformed
  | '0' :: _ => if text = ['0'] then .ok 0 else .error .malformed
  | run =>
    if maxDigits < run.length then .error .tooLong
    else if run.length = text.length then
      .ok (withSign negative (ofDigits (run.map asciiDigitValue)))
    else .error .malformed

def readStrict : List Char → Except LooseError Int
  | '-' :: rest => readDigits true rest
  | text => readDigits false text

def dropPlus : List Char → Option (List Char)
  | '+' :: '-' :: _ => none
  | '+' :: rest => some rest
  | text => some text

/-- What is left of a text behind leading zeros, the last of which is given. -/
def afterZeros (last : Char) : List Char → Option (List Char)
  | [] => some [last]
  | c :: rest =>
    if c = '0' || c = '_' then afterZeros c rest
    else if c = '.' then some (last :: c :: rest)
    else if isAsciiDigit c || c = '-' then some (c :: rest)
    else none

/-- The text without leading zeros, of which one stays if nothing but zeros comes before the end or
the decimal point. -/
def dropLeadingZeros : List Char → Option (List Char)
  | [] => none
  | c :: rest =>
    if c = '0' then afterZeros c rest
    else if isAsciiDigit c then some (c :: rest)
    else none

/-- The text up to its first decimal point, if zeros and nothing else follow the point. -/
def dropZeroFraction (text : List Char) : List Char :=
  match text.dropWhile (· != '.') with
  | _ :: '0' :: fraction =>
    if fraction.all (· == '0') then text.takeWhile (· != '.') else text
  | _ => text

/-- Whether every underscore has other characters on both sides. The flag says whether there is one
in front of the text. -/
def underscoresApart : (afterOther : Bool) → List Char → Bool
  | afterOther, [] => afterOther
  | afterOther, c :: rest =>
    if c = '_' then afterOther && underscoresApart false rest else underscoresApart true rest

/-- The text without underscores, if all of them stand apart. -/
def dropUnderscores (text : List Char) : List Char :=
  if underscoresApart false text then text.filter (· != '_') else text

def tidiedDigits (text : List Char) : Option (List Char) :=
  (dropLeadingZeros text).map (dropUnderscores ∘ dropZeroFraction)

def tidied (text : List Char) : Option (List Char) :=
  match dropPlus (trimSpace text) with
  | none => none
  | some ('-' :: unsigned) => (tidiedDigits unsigned).map ('-' :: ·)
  | some unsigned => tidiedDigits unsigned

/-- The integer that a loosely written text stands for. -/
def readLoose (text : String) : Except LooseError Int :=
  match readStrict text.toList with
  | .error .malformed =>
    match (tidied text.toList).map readStrict with
    | some (.ok number) => .ok number
    | _ => .error .malformed
  | outcome => outcome

end Number

/-! ## Fields of loosely written integers -/

/-- The first number that is too large for a 64-bit integer with a sign. -/
def wordBound : Nat := 0x8000000000000000

/-- The value of an integer field. Fractions are taken up to the range of 64-bit integers. -/
def Datum.toField : Datum → Except FieldError Int
  | integer number => .ok number
  | truth holds => .ok (if holds then 1 else 0)
  | fraction number =>
    match Number.Binary64.ofFloat? number with
    | none => .error .notFinite
    | some parts =>
      if !parts.isInteger then .error .fractional
      else if parts.truncate.natAbs < wordBound then .ok parts.truncate
      else .error .tooLarge
  | text chars =>
    match Number.readLoose chars with
    | .ok number => .ok number
    | .error .malformed => .error .unreadable
    | .error .tooLong => .error .tooLarge
  | nothing => .error .notAnInteger
  | list _ => .error .notAnInteger
  | record _ => .error .notAnInteger

/-- The reader of the fields of all records in this program. -/
def FieldReader.loose : FieldReader where
  read := Datum.toField
  read_integer _ := rfl

end CodonGrammar
