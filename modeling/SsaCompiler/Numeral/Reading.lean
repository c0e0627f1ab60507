import SsaCompiler.Numeral.Binary

/-!
# Reading numbers

The text of a number with nothing around it.  An integer is an optional sign and at least one digit.
A floating-point number is an optional sign and either one of the words `inf`, `infinity` and `nan`
in any case, or digits with at most one point, at least one digit in all, and an optional exponent
that has a digit; its value is rounded to the nearest number of the format.
-/

namespace SsaCompiler.Numeral

/-- The number that digits stand for, the most significant first. -/
def digitsValue (digits : List Char) : Nat :=
  digits.foldl (fun n d => 10 * n + (d.toNat - '0'.toNat)) 0

/-- An optional sign: whether it is a minus, and what follows. -/
def readSign : List Char → Bool × List Char
  | '-' :: rest => (true, rest)
  | '+' :: rest => (false, rest)
  | rest => (false, rest)

/-- A signed number. -/
def applySign (negative : Bool) (n : Nat) : Int :=
  if negative then -n else n

/-- At least one digit and nothing else. -/
def readNat? (digits : List Char) : Option Nat :=
  if digits ≠ [] ∧ digits.all Char.isDigit then some (digitsValue digits) else none

/-- An integer of any size. -/
def readInt? (text : String) : Option Int :=
  let (negative, digits) := readSign text.toList
  (readNat? digits).map (applySign negative)

/-- An integer that fits a signed width. -/
def readSigned? (bits : Nat) (text : String) : Option Int :=
  (readInt? text).filter (fitsSigned bits)

/-- The power of ten after the digits of a floating-point number; none where nothing follows. -/
def readExponent? : List Char → Option Int
  | [] => some 0
  | mark :: rest =>
    if mark = 'e' ∨ mark = 'E' then
      let (negative, digits) := readSign rest
      (readNat? digits).map (applySign negative)
    else none

/-- The digits of a floating-point number as a natural number and a power of ten. -/
def readDecimal? (text : List Char) : Option (Nat × Int) :=
  let whole := text.takeWhile Char.isDigit
  let rest := text.dropWhile Char.isDigit
  let (fraction, rest) :=
    match rest with
    | '.' :: rest => (rest.takeWhile Char.isDigit, rest.dropWhile Char.isDigit)
    | _ => ([], rest)
  let digits := whole ++ fraction
  if digits = [] then none
  else (readExponent? rest).map fun power => (digitsValue digits, power - fraction.length)

/-- The words for values without digits. -/
def BinaryFormat.readWord? (f : BinaryFormat) (text : List Char) : Option Nat :=
  match String.ofList (text.map Char.toLower) with
  | "inf" => some f.infinity
  | "infinity" => some f.infinity
  | "nan" => some f.notANumber
  | _ => none

/-- The bits of the number nearest to a decimal text. -/
def BinaryFormat.read? (f : BinaryFormat) (text : String) : Option Nat :=
  let (negative, unsigned) := readSign text.toList
  let magnitude :=
    match readDecimal? unsigned with
    | some (n, power) => some (f.ofDecimal n power)
    | none => f.readWord? unsigned
  magnitude.map (f.signed negative)

end SsaCompiler.Numeral
