import SsaCompiler.Numeral.Binary

/-!
# The fewest digits that read back

The decimal text of a floating-point number has the fewest digits that no other number of its format
is nearer to.  A finite magnitude owns an interval of values around it, the ends included iff its
significand is even.  On the grid of the multiples of a power of ten, only the two neighbours of the
value have to be tried: if any point of the grid lies in the interval, so does one of them.

    shortest f magnitude = (n, p)   where n * 10 ^ p is in the interval of the magnitude,
                                    no coarser grid has a point there, and of two points
                                    on the grid the nearer is taken, a tie going up
-/

namespace SsaCompiler.Numeral

/-- A value with the ends of its interval, all three over one denominator. -/
structure Interval where
  low : Nat
  value : Nat
  high : Nat
  den : Nat
  closed : Bool

/-- The interval of a finite magnitude.  The lower half is halved again at a power of two, where the
numbers below lie twice as close; only the smallest exponent field has no such step. -/
def BinaryFormat.interval (f : BinaryFormat) (magnitude : Nat) : Interval :=
  let (significand, exponent) := f.decode magnitude
  let below := if f.fractionField magnitude = 0 ∧ 1 < f.exponentField magnitude then 1 else 2
  let quarter := exponent - 2
  let scale := twoTo quarter.toNat
  { low := (4 * significand - below) * scale
    value := 4 * significand * scale
    high := (4 * significand + 2) * scale
    den := twoTo (-quarter).toNat
    closed := significand % 2 = 0 }

namespace Interval

/-- The interval in units of a power of ten. -/
def inUnits (i : Interval) (power : Int) : Interval :=
  let up := tenTo (-power).toNat
  { i with
    low := i.low * up, value := i.value * up, high := i.high * up, den := i.den * tenTo power.toNat }

/-- Whether an integer lies in the interval. -/
def contains (i : Interval) (n : Nat) : Bool :=
  if i.closed then i.low ≤ n * i.den && n * i.den ≤ i.high
  else i.low < n * i.den && n * i.den < i.high

/-- The integer beside the value that lies in the interval; of two the nearer, on a tie the upper. -/
def neighbour? (i : Interval) : Option Nat :=
  let down := i.value / i.den
  match i.contains down, i.contains (down + 1) with
  | true, true => some (if i.den ≤ 2 * (i.value % i.den) then down + 1 else down)
  | true, false => some down
  | false, true => some (down + 1)
  | false, false => none

/-- The least power of ten above the value. -/
def decimalExponent (i : Interval) : Int :=
  if i.den ≤ i.value then (Nat.toDigits 10 (i.value / i.den)).length
  else 1 - (Nat.toDigits 10 ((i.den - 1) / i.value)).length

end Interval

/-- No number of either format needs more digits. -/
def mostDigits : Nat := 17

/-- The significand and the power of ten of the shortest decimal in the interval of a positive finite
magnitude. -/
def shortest (f : BinaryFormat) (magnitude : Nat) : Nat × Int :=
  let i := f.interval magnitude
  let top := i.decimalExponent
  let grids := (List.range mostDigits).map fun (n : Nat) => top - 1 - n
  match grids.findSome? fun power => (i.inUnits power).neighbour?.map (·, power) with
  | some (10, power) => (1, power + 1)
  | some (n, power) => (n, power)
  | none => (i.value / i.den, 0)

end SsaCompiler.Numeral
