import CodonGrammar.Grammar.Symbol

/-!
# Codon readers

A codon is a non-negative integer that decides between the alternatives of a rule. A reader holds
a non-empty list of codons and a cursor. Each reading answers the codon at the cursor modulo the
number of alternatives and moves the cursor on; after the last codon it starts again at the first.
A reading without alternatives is refused and moves nothing.

Codons are given as integers, or as bits, of which eight in a row make one byte, the least
significant bit first.
-/

namespace CodonGrammar

/-- A non-empty list of codons, and the cursor of the next one. -/
structure Codons where
  values : List Nat
  cursor : Nat
  cursor_lt : cursor < values.length
  deriving DecidableEq

/-- Why codons cannot be read. -/
inductive CodonError where
  /-- There are no codons. -/
  | none
  /-- One of the integers is negative. -/
  | negative
  /-- There are fewer bits than a codon takes. -/
  | tooFewBits (count : Nat)
  deriving DecidableEq, Repr

/-- How many bits make one codon. -/
def bitsPerCodon : Nat := 8

/-- The text of an error. -/
def CodonError.message : CodonError → String
  | none => "Codons need at least one value."
  | negative => "Codon values must not be negative."
  | tooFewBits count =>
    "At least " ++ bitsPerCodon.repr ++ " bits are needed, got " ++ count.repr ++ "."

/-- The bound of a reading is not positive. -/
structure BoundError where
  bound : Int
  deriving DecidableEq, Repr

/-- The text of the error. -/
def BoundError.message (error : BoundError) : String :=
  "Bound must be positive, got " ++ error.bound.repr ++ "."

namespace Codons

/-- A reader at the beginning of a non-empty list of codons. -/
def ofValues (values : List Nat) (hNonempty : values ≠ []) : Codons :=
  ⟨values, 0, List.length_pos_iff.mpr hNonempty⟩

/-- A reader of the given integers. -/
def ofInts (integers : List Int) : Except CodonError Codons :=
  if h : integers = [] then .error .none
  else if integers.any (· < 0) then .error .negative
  else .ok (ofValues (integers.map Int.toNat) (by simpa using h))

/-- The number with the given binary digits, the least significant first. -/
def byteOf : List Bool → Nat
  | [] => 0
  | bit :: rest => bit.toNat + 2 * byteOf rest

/-- The first `count` bytes of a list of bits. -/
def bytesOf : (count : Nat) → List Bool → List Nat
  | 0, _ => []
  | count + 1, bits => byteOf (bits.take bitsPerCodon) :: bytesOf count (bits.drop bitsPerCodon)

@[simp] theorem length_bytesOf (count : Nat) (bits : List Bool) :
    (bytesOf count bits).length = count := by
  induction count generalizing bits with
  | zero => rfl
  | succ count ih => simp [bytesOf, ih]

/-- A reader of the bytes that the given bits make. Bits that do not fill a byte are left out. -/
def ofBits (bits : List Bool) : Except CodonError Codons :=
  let count := bits.length / bitsPerCodon
  if h : count = 0 then .error (.tooFewBits bits.length)
  else
    .ok (ofValues (bytesOf count bits) (by
      intro hEmpty
      apply h
      rw [← length_bytesOf count bits, hEmpty, List.length_nil]))

/-- The codon at the cursor. -/
def current (codons : Codons) : Nat := codons.values.get ⟨codons.cursor, codons.cursor_lt⟩

/-- The reader with the cursor on the codon after this one, or on the first one again. -/
def advance (codons : Codons) : Codons :=
  ⟨codons.values, (codons.cursor + 1) % codons.values.length,
    Nat.mod_lt _ (Nat.zero_lt_of_lt codons.cursor_lt)⟩

/-- Reads one codon modulo the bound. -/
def next (codons : Codons) (bound : Int) : Except BoundError Nat × Codons :=
  if bound < 1 then (.error ⟨bound⟩, codons)
  else (.ok (codons.current % bound.toNat), codons.advance)

/-- The reader as messages show it. -/
def shown (codons : Codons) : String :=
  "Codons(length=" ++ codons.values.length.repr ++ ", position=" ++ codons.cursor.repr ++ ")"

end Codons

end CodonGrammar
