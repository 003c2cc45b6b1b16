import CodonGrammar.Number.Binary64
import CodonGrammar.Number.Numeral

/-!
# Data for numbers

Where a number, a bit, or a sequence of these is wanted, a caller may hand over other data as well.
An integer is made of a fraction by cutting it off, of a truth value as zero or one, and of a text
by reading it as a numeral. Any datum stands for a bit: it is set unless it is zero, false, empty or
nothing. A text stands for the sequence of its characters, and a record for that of its names.
-/

namespace CodonGrammar

/-- A datum where a number, a bit or a sequence is wanted. -/
inductive Datum where
  | integer (number : Int)
  | fraction (number : Float)
  | truth (holds : Bool)
  | text (chars : String)
  | nothing
  | list (members : List Datum)
  | record (names : List String)

/-- Why a datum is no integer, or no sequence of integers. -/
inductive DatumError where
  /-- The datum is of a kind that no integer is made of. -/
  | notANumber
  /-- The datum has no members. -/
  | notASequence
  /-- The datum is an infinite or undefined number. -/
  | notFinite
  /-- The datum is a text that is no numeral. -/
  | numeral (error : Number.NumeralError)
  /-- The datum has members, but none at this place. -/
  | noPlace (place : Nat)

def DatumError.message : DatumError → String
  | notANumber => "an integer is made of a number or a text only"
  | notASequence => "a sequence is needed"
  | notFinite => "cannot convert float infinity to integer"
  | numeral error => error.message
  | noPlace place => place.repr

namespace Datum

def toInteger : Datum → Except DatumError Int
  | integer number => .ok number
  | fraction number =>
    match Number.Binary64.ofFloat? number with
    | some parts => .ok parts.truncate
    | none => .error .notFinite
  | truth holds => .ok (if holds then 1 else 0)
  | text chars =>
    match Number.readInteger chars with
    | .ok number => .ok number
    | .error error => .error (.numeral error)
  | nothing => .error .notANumber
  | list _ => .error .notANumber
  | record _ => .error .notANumber

def isSet : Datum → Bool
  | integer number => number != 0
  | fraction number => number != 0
  | truth holds => holds
  | text chars => !chars.isEmpty
  | nothing => false
  | list members => !members.isEmpty
  | record names => !names.isEmpty

/-- The members of a datum, if it stands for a sequence. -/
def members : Datum → Except DatumError (List Datum)
  | list members => .ok members
  | text chars => .ok (chars.toList.map fun c => text (String.singleton c))
  | record names => .ok (names.map text)
  | integer _ => .error .notASequence
  | fraction _ => .error .notASequence
  | truth _ => .error .notASequence
  | nothing => .error .notASequence

/-- The integers that the members of a list stand for, up to the first one that stands for none. -/
def toIntegers : List Datum → Except DatumError (List Int)
  | [] => .ok []
  | datum :: rest =>
    match datum.toInteger with
    | .error error => .error error
    | .ok number =>
      match toIntegers rest with
      | .error error => .error error
      | .ok numbers => .ok (number :: numbers)

/-- A number so many times as large, or a text or a list repeated so many times. -/
def times (count : Nat) : Datum → Except DatumError Datum
  | integer number => .ok (integer (number * count))
  | fraction number => .ok (fraction (number * Float.ofNat count))
  | truth holds => .ok (integer (if holds then count else 0))
  | text chars => .ok (text (String.join (List.replicate count chars)))
  | list members => .ok (list (List.replicate count members).flatten)
  | nothing => .error .notANumber
  | record _ => .error .notANumber

def ofIntegers (numbers : List Int) : Datum := list (numbers.map integer)

@[simp] theorem members_ofIntegers (numbers : List Int) :
    (ofIntegers numbers).members = .ok (numbers.map integer) := rfl

@[simp] theorem toIntegers_map_integer (numbers : List Int) :
    toIntegers (numbers.map integer) = .ok numbers := by
  induction numbers with
  | nil => rfl
  | cons number rest ih => simp only [List.map_cons, toIntegers, toInteger, ih]

end Datum

end CodonGrammar
