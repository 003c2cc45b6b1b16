import CodonGrammar.Codec.Draws
import CodonGrammar.Number.Field

/-!
# Chromosome specifications

A specification says what a chromosome may be: the half-open range of its values and its length, or
a half-open range of lengths. A chromosome of bits has the values zero and one. Neither range is
ever empty and no chromosome is: these are parts of the type, so a draw from a specification always
has something to draw from.
-/

namespace CodonGrammar

/-- What the values of a chromosome are. -/
inductive ChromosomeKind where
  | integer
  | bit
  deriving DecidableEq, Repr

/-- The word for a kind of chromosome. -/
def ChromosomeKind.word : ChromosomeKind → String
  | integer => "integer"
  | bit => "bit"

def ChromosomeKind.ofWord? (word : String) : Option ChromosomeKind :=
  [integer, bit].find? (·.word = word)

/-- The values of a chromosome lie from `lower` on and below `upper`. Its length is `length`, or it
lies from there on and below `maxLength`. -/
structure ChromosomeSpec where
  kind : ChromosomeKind
  lower : Nat
  upper : Nat
  length : Nat
  maxLength : Option Nat
  lower_lt_upper : lower < upper
  length_pos : 1 ≤ length
  bit_range : kind = .bit → lower = 0 ∧ upper = 2
  length_lt_maxLength : ∀ most, maxLength = some most → length < most

/-- Why numbers make no specification. -/
inductive ChromosomeSpecError where
  /-- There are no values. -/
  | noValues (lower upper : Int)
  /-- The values of bits are not zero and one. -/
  | notBits
  /-- There are no lengths. -/
  | noLengths (length maxLength : Int)
  deriving DecidableEq, Repr

def rangeText (lower upper : Int) : String :=
  "[" ++ lower.repr ++ ", " ++ upper.repr ++ ")"

def ChromosomeSpecError.message : ChromosomeSpecError → String
  | noValues lower upper => "Empty codon range " ++ rangeText lower upper ++ "."
  | notBits => "Bit chromosomes have the value range [0, 2)."
  | noLengths length maxLength => "Empty length range " ++ rangeText length maxLength ++ "."

/-- What is wrong with the fields of a record: some of them on their own, or all together. -/
inductive Invalid (ε : Type) where
  | fields (faults : List FieldFault)
  | together (error : ε)

/-- The fields of a specification as they are handed over. -/
structure ChromosomeFields where
  kind : Option Datum
  lower : Option Datum
  upper : Option Datum
  length : Option Datum
  maxLength : Option Datum

namespace ChromosomeSpec

theorem lt_toNat {number : Nat} {bound : Int} (h : (number : Int) < bound) :
    number < bound.toNat := by
  omega

theorem bitRange_toNat {kind : ChromosomeKind} {lower : Nat} {upper : Int}
    (h : kind = .bit → lower = 0 ∧ upper = 2) (hBit : kind = .bit) :
    lower = 0 ∧ upper.toNat = 2 := by
  obtain ⟨hLower, hUpper⟩ := h hBit
  exact ⟨hLower, by rw [hUpper]; rfl⟩

theorem lt_of_eq_some_toNat {length : Nat} {bound : Int} (h : (length : Int) < bound) (most : Nat)
    (hMost : some bound.toNat = some most) : length < most := by
  cases hMost
  exact lt_toNat h

/-- The specification with the given numbers. The lower end of the values is already known not to be
negative, and the length to be positive. -/
def ofNumbers (kind : ChromosomeKind) (lower : Nat) (upper : Int) (length : Nat)
    (hLength : 1 ≤ length) (maxLength : Option Int) :
    Except ChromosomeSpecError ChromosomeSpec :=
  if hRange : (lower : Int) < upper then
    if hBits : kind = .bit → lower = 0 ∧ upper = 2 then
      match maxLength with
      | none =>
        .ok ⟨kind, lower, upper.toNat, length, none, lt_toNat hRange, hLength,
          bitRange_toNat hBits, nofun⟩
      | some most =>
        if hLonger : (length : Int) < most then
          .ok ⟨kind, lower, upper.toNat, length, some most.toNat, lt_toNat hRange, hLength,
            bitRange_toNat hBits, lt_of_eq_some_toNat hLonger⟩
        else .error (.noLengths length most)
    else .error .notBits
  else .error (.noValues lower upper)

def kindField : Option Datum → Except FieldError ChromosomeKind
  | none => .ok .integer
  | some (.text word) =>
    match ChromosomeKind.ofWord? word with
    | some kind => .ok kind
    | none => .error (.noneOf ["integer", "bit"])
  | some _ => .error (.noneOf ["integer", "bit"])

section Fields

variable (reader : FieldReader)

def lowerField : Option Datum → Except FieldError Nat
  | none => .ok 0
  | some datum => (reader.readFrom 0 datum).map Int.toNat

/-- The upper end of the values in a field, which has to be given. -/
def upperField : Option Datum → Except FieldError Int
  | none => .error .missing
  | some datum => reader.read datum

/-- The length in a field, which has to be given and to be positive. -/
def lengthField : Option Datum → Except FieldError Positive
  | none => .error .missing
  | some datum => reader.readPositive datum

/-- The upper end of the lengths in a field, where nothing stands for none. -/
def maxLengthField : Option Datum → Except FieldError (Option Int)
  | none => .ok none
  | some .nothing => .ok none
  | some datum => (reader.read datum).map some

def ofFields (fields : ChromosomeFields) : Except (Invalid ChromosomeSpecError) ChromosomeSpec :=
  let kind := kindField fields.kind
  let lower := lowerField reader fields.lower
  let upper := upperField reader fields.upper
  let length := lengthField reader fields.length
  let maxLength := maxLengthField reader fields.maxLength
  match kind, lower, upper, length, maxLength with
  | .ok kind, .ok lower, .ok upper, .ok ⟨length, hLength⟩, .ok maxLength =>
    match ofNumbers kind lower upper length hLength maxLength with
    | .ok spec => .ok spec
    | .error error => .error (.together error)
  | _, _, _, _, _ =>
    .error (.fields ([FieldFault.of? "kind" kind, FieldFault.of? "lower" lower,
      FieldFault.of? "upper" upper, FieldFault.of? "length" length,
      FieldFault.of? "max_length" maxLength].filterMap id))

end Fields

variable {σ : Type}

def drawLength (spec : ChromosomeSpec) (source : RandomSource σ) (state : σ) : Nat × σ :=
  match spec.maxLength with
  | none => (spec.length, state)
  | some most =>
    let (length, state) := source spec.length most state
    (length.toNat, state)

/-- Draws a chromosome, its length first. -/
def draw (spec : ChromosomeSpec) (source : RandomSource σ) (state : σ) : List Int × σ :=
  let (length, state) := spec.drawLength source state
  source.times spec.lower spec.upper length state

end ChromosomeSpec

end CodonGrammar
