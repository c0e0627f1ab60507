import SsaCompiler.Numeral.Shortest

/-!
# The text of a floating-point number

A `FloatLayout` says how the digits of a number are set out: which powers of ten are written
positionally, how an exponent is marked and how the values without digits are spelled.  Constants of
the intermediate representation have one such layout, `constantLayout`.
-/

namespace SsaCompiler.Numeral

/-- The format's decisions on a number's text. -/
structure FloatLayout where
  /-- The least and the greatest power of ten of the leading digit that is written positionally. -/
  leastPositional : Int
  mostPositional : Int
  exponentMark : String
  infinity : String
  notANumber : String

/-- A number is written positionally from one ten-thousandth and below ten to the sixteenth, always
with a digit on both sides of the point; otherwise the exponent follows an `e` without a plus sign. -/
def constantLayout : FloatLayout :=
  { leastPositional := -4, mostPositional := 15, exponentMark := "e", infinity := "inf", notANumber := "NaN" }

/-- Digits set out around the point; `place` digits stand before it. -/
def positional (digits : List Char) (place : Int) : String :=
  let zeros (n : Nat) := List.replicate n '0'
  if place ≤ 0 then String.ofList (['0', '.'] ++ zeros (-place).toNat ++ digits)
  else if digits.length ≤ place.toNat then
    String.ofList (digits ++ zeros (place.toNat - digits.length) ++ ['.', '0'])
  else String.ofList (digits.take place.toNat ++ '.' :: digits.drop place.toNat)

/-- Digits with one before the point and the power of ten of that one. -/
def FloatLayout.exponential (l : FloatLayout) (digits : List Char) (power : Int) : String :=
  let significand :=
    match digits with
    | d :: e :: rest => d :: '.' :: e :: rest
    | _ => digits
  String.ofList significand ++ l.exponentMark ++ toString power

/-- The text of a magnitude. -/
def FloatLayout.magnitude (l : FloatLayout) (f : BinaryFormat) (magnitude : Nat) : String :=
  if magnitude = f.infinity then l.infinity
  else if magnitude = 0 then positional ['0'] 1
  else
    let (significand, power) := shortest f magnitude
    let digits := Nat.toDigits 10 significand
    let leading := power + digits.length - 1
    if l.leastPositional ≤ leading ∧ leading ≤ l.mostPositional then positional digits (leading + 1)
    else l.exponential digits leading

/-- The text of a number; one that is not a number has no sign. -/
def FloatLayout.text (l : FloatLayout) (f : BinaryFormat) (bits : Nat) : String :=
  let magnitude := f.magnitude bits
  if f.infinity < magnitude then l.notANumber
  else if f.isNegative bits then "-" ++ l.magnitude f magnitude
  else l.magnitude f magnitude

end SsaCompiler.Numeral
