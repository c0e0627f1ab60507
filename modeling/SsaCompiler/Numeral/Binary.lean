import SsaCompiler.Numeral.Power

/-!
# Binary floating-point formats

A `BinaryFormat` has a sign bit, exponent bits and fraction bits, laid out from the most significant
to the least significant bit.  The bits of a number without its sign are its *magnitude*; as numbers,
magnitudes are in the order of the values they stand for, which makes rounding a matter of units:

    significand * 2 ^ exponent     = the value of a finite magnitude      (`decode`)
    ofRatio num den                = the magnitude nearest to num / den, a tie going to the even one

Values beyond the largest finite one round to infinity, and small ones to a multiple of the least
unit, so subnormal numbers need no case of their own.
-/

namespace SsaCompiler.Numeral

/-- A floating-point format by the sizes of its two fields. -/
structure BinaryFormat where
  fractionBits : Nat
  exponentBits : Nat
  deriving DecidableEq

namespace BinaryFormat

/-- The format of 32 bits. -/
def single : BinaryFormat := ⟨23, 8⟩

/-- The format of 64 bits. -/
def double : BinaryFormat := ⟨52, 11⟩

/-- The exponent of the least unit, that of the subnormal numbers. -/
def leastExponent (f : BinaryFormat) : Int :=
  2 - twoTo (f.exponentBits - 1) - f.fractionBits

/-- The magnitude of infinity; above it lie those that are not numbers. -/
def infinity (f : BinaryFormat) : Nat :=
  (twoTo f.exponentBits - 1) * twoTo f.fractionBits

/-- The magnitude of the value that is not a number and has no payload. -/
def notANumber (f : BinaryFormat) : Nat :=
  f.infinity + twoTo (f.fractionBits - 1)

/-- The weight of the sign bit. -/
def signWeight (f : BinaryFormat) : Nat :=
  twoTo (f.exponentBits + f.fractionBits)

/-- Whether the sign bit is set. -/
def isNegative (f : BinaryFormat) (bits : Nat) : Bool :=
  f.signWeight ≤ bits % (2 * f.signWeight)

/-- The bits below the sign bit. -/
def magnitude (f : BinaryFormat) (bits : Nat) : Nat :=
  bits % f.signWeight

/-- The bits of a magnitude with a sign. -/
def signed (f : BinaryFormat) (negative : Bool) (magnitude : Nat) : Nat :=
  if negative then f.signWeight + magnitude else magnitude

/-- The biased exponent of a magnitude; zero marks the subnormal numbers. -/
def exponentField (f : BinaryFormat) (magnitude : Nat) : Nat :=
  magnitude / twoTo f.fractionBits

/-- The fraction field of a magnitude. -/
def fractionField (f : BinaryFormat) (magnitude : Nat) : Nat :=
  magnitude % twoTo f.fractionBits

/-- The significand of a finite magnitude and the exponent of its unit. -/
def decode (f : BinaryFormat) (magnitude : Nat) : Nat × Int :=
  if f.exponentField magnitude = 0 then (f.fractionField magnitude, f.leastExponent)
  else
    (f.fractionField magnitude + twoTo f.fractionBits,
      f.leastExponent + f.exponentField magnitude - 1)

end BinaryFormat

/-- The natural number nearest to a quotient; a tie goes to the even one. -/
def roundQuotient (num den : Nat) : Nat :=
  let quotient := num / den
  let rest := num % den
  if 2 * rest < den then quotient
  else if den < 2 * rest then quotient + 1
  else quotient + quotient % 2

/-- The exponent of the greatest power of two that is at most a positive quotient. -/
def binaryExponent (num den : Nat) : Int :=
  let guess : Int := num.log2 - den.log2
  let reached := if 0 ≤ guess then den * twoTo guess.toNat ≤ num else den ≤ num * twoTo (-guess).toNat
  if reached then guess else guess - 1

namespace BinaryFormat

/-- The magnitude nearest to a quotient. -/
def ofRatio (f : BinaryFormat) (num den : Nat) : Nat :=
  if num = 0 then 0
  else
    let unit := max (binaryExponent num den - f.fractionBits) f.leastExponent
    let significand :=
      if 0 ≤ unit then roundQuotient num (den * twoTo unit.toNat)
      else roundQuotient (num * twoTo (-unit).toNat) den
    min f.infinity ((unit - f.leastExponent).toNat * twoTo f.fractionBits + significand)

/-- The bits of the number nearest to an integer. -/
def ofInt (f : BinaryFormat) (n : Int) : Nat :=
  f.signed (n < 0) (f.ofRatio n.natAbs 1)

/-- The magnitude nearest to `n * 10 ^ e`.  A number of `d` digits lies between `10 ^ (d + e - 1)` and
`10 ^ (d + e)`, so powers far outside the range of the format need not be computed. -/
def ofDecimal (f : BinaryFormat) (n : Nat) (e : Int) : Nat :=
  let reach : Int := twoTo f.exponentBits
  let top : Int := (Nat.toDigits 10 n).length + e
  if n = 0 then 0
  else if reach < top then f.infinity
  else if top < -reach then 0
  else if 0 ≤ e then f.ofRatio (n * tenTo e.toNat) 1
  else f.ofRatio n (tenTo (-e).toNat)

end BinaryFormat

end SsaCompiler.Numeral
