import SsaCompiler.Ir.Ty

/-!
# Constants

A constant is a bit pattern of the width of its type.  Integers are read as signed numbers, and making
one from a number that does not fit keeps its lowest bits:

    ofInt? (int w) n = the pattern of n modulo 2 ^ w
    ofInt? (float w) n = the number nearest to n
-/

namespace SsaCompiler.Ir

open Numeral (IntWidth FloatWidth fitsSigned)

inductive Constant where
  | int (width : IntWidth) (bits : BitVec width.bits)
  | float (width : FloatWidth) (bits : BitVec width.bits)
  deriving DecidableEq

namespace Constant

/-- The constant of a type for a number; addresses and `void` have none. -/
def ofInt? : Ty → Int → Option Constant
  | .int width, n => some (.int width (BitVec.ofInt width.bits n))
  | .float width, n => some (.float width (BitVec.ofNat width.bits (width.format.ofInt n)))
  | .ptr, _ => none
  | .void, _ => none

def ty : Constant → Ty
  | .int width _ => .int width
  | .float width _ => .float width

/-- The number of an integer constant, where 64 bits can hold it. -/
def toInt64? : Constant → Option Int
  | .int _ bits => if fitsSigned 64 bits.toInt then some bits.toInt else none
  | .float .. => none

/-- The text of a constant: a decimal number. -/
def text : Constant → String
  | .int _ bits => toString bits.toInt
  | .float width bits => width.text bits.toNat

end Constant

end SsaCompiler.Ir
