/-!
# Binary fractions

A number in the 64-bit binary format is a sign, eleven bits of an exponent and 52 bits of a
significand. Its integer part, rounded toward zero, and whether anything is left over are read off
these bits exactly, by shifting them.
-/

namespace CodonGrammar.Number

/-- A finite number as `significand * 2 ^ exponent`, negated if `negative`. The exponent is kept as
a non-negative number, from which 1075 is to be taken. -/
structure Binary64 where
  negative : Bool
  significand : Nat
  biased : Nat

namespace Binary64

/-- The parts of a finite number. Infinities and the undefined numbers have none. -/
def ofFloat? (number : Float) : Option Binary64 :=
  let bits := number.toBits.toNat
  let negative := bits >>> 63 = 1
  let exponent := (bits >>> 52) % 0x800
  let low := bits % 0x10000000000000
  if exponent = 0x7FF then none
  else if exponent = 0 then some ⟨negative, low, 1⟩
  else some ⟨negative, 0x10000000000000 + low, exponent⟩

def truncate (number : Binary64) : Int :=
  let magnitude :=
    if 1075 ≤ number.biased then number.significand <<< (number.biased - 1075)
    else number.significand >>> (1075 - number.biased)
  if number.negative then -magnitude else magnitude

def isInteger (number : Binary64) : Bool :=
  let fractionBits := 1075 - number.biased
  (number.significand >>> fractionBits) <<< fractionBits == number.significand

end Binary64

end CodonGrammar.Number
