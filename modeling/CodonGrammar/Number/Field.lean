import CodonGrammar.Number.Datum

/-!
# Checked fields

A record is filled from data that its caller hands over field by field. An integer field takes an
integer, and its reader says which other data it takes for one. What is made of the fields depends
on the numbers that were read and not on the reader. All faulty fields of a record are reported, in
the order of the fields.
-/

namespace CodonGrammar

/-- Why a field cannot be filled. -/
inductive FieldError where
  /-- The field has to be given. -/
  | missing
  /-- The number is below the least one allowed. -/
  | below (least : Int)
  /-- The datum is none of the given words. -/
  | noneOf (words : List String)
  /-- The datum is of a kind that no integer is made of. -/
  | notAnInteger
  /-- The text does not read as an integer. -/
  | unreadable
  /-- The fraction has a fractional part. -/
  | fractional
  /-- The fraction is infinite or undefined. -/
  | notFinite
  /-- The number is too large to be made of this datum. -/
  | tooLarge
  deriving DecidableEq, Repr

/-- A choice of words in quotes, as in `'a', 'b' or 'c'`. -/
def wordChoice : List String → String
  | [] => ""
  | [word] => Text.quoted word
  | [first, last] => Text.quoted first ++ " or " ++ Text.quoted last
  | first :: rest => Text.quoted first ++ ", " ++ wordChoice rest

namespace FieldError

/-- The short name of an error. -/
def name : FieldError → String
  | missing => "missing"
  | below _ => "greater_than_equal"
  | noneOf _ => "literal_error"
  | notAnInteger => "int_type"
  | unreadable => "int_parsing"
  | fractional => "int_from_float"
  | notFinite => "finite_number"
  | tooLarge => "int_parsing_size"

def message : FieldError → String
  | missing => "Field required"
  | below least => "Input should be greater than or equal to " ++ least.repr
  | noneOf words => "Input should be " ++ wordChoice words
  | notAnInteger => "Input should be a valid integer"
  | unreadable => "Input should be a valid integer, unable to parse string as an integer"
  | fractional => "Input should be a valid integer, got a number with a fractional part"
  | notFinite => "Input should be a finite number"
  | tooLarge => "Unable to parse input string as an integer, exceeded maximum size"

end FieldError

/-- A field, and what is wrong with it. -/
structure FieldFault where
  field : String
  error : FieldError
  deriving DecidableEq, Repr

abbrev Positive := { number : Nat // 1 ≤ number }

/-- How the data in integer fields are read. An integer is read as it is. What else is taken for an
integer, and why other data are refused, is up to the reader. -/
structure FieldReader where
  read : Datum → Except FieldError Int
  read_integer : ∀ number : Int, read (.integer number) = .ok number

attribute [simp] FieldReader.read_integer

namespace FieldReader

variable (reader : FieldReader)

/-- The value of an integer field with a least value. -/
def readFrom (least : Int) (datum : Datum) : Except FieldError Int :=
  match reader.read datum with
  | .ok number => if number < least then .error (.below least) else .ok number
  | .error error => .error error

/-- The value of an integer field that has to be positive. -/
def readPositive (datum : Datum) : Except FieldError Positive :=
  match reader.read datum with
  | .error error => .error error
  | .ok number =>
    if hPositive : 1 ≤ number then .ok ⟨number.toNat, by omega⟩ else .error (.below 1)

end FieldReader

/-- The fault of a field, if there is one. -/
def FieldFault.of? {α : Type} (field : String) (value : Except FieldError α) :
    Option FieldFault :=
  match value with
  | .ok _ => none
  | .error error => some ⟨field, error⟩

end CodonGrammar
