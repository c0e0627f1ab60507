import SsaCompiler.Numeral.FloatText

/-!
# Widths of machine numbers

The widths that integers and floating-point numbers come in, shared by the types of the language and
those of the intermediate representation.
-/

namespace SsaCompiler.Numeral

inductive IntWidth where
  | w8 | w16 | w32 | w64 | w128
  deriving DecidableEq

def IntWidth.bits : IntWidth → Nat
  | .w8 => 8
  | .w16 => 16
  | .w32 => 32
  | .w64 => 64
  | .w128 => 128

inductive FloatWidth where
  | w32 | w64
  deriving DecidableEq

namespace FloatWidth

def bits : FloatWidth → Nat
  | .w32 => 32
  | .w64 => 64

/-- The format of the numbers of a width. -/
def format : FloatWidth → BinaryFormat
  | .w32 => .single
  | .w64 => .double

/-- The text of the number with some bits; bits beyond the width do not count. -/
def text (w : FloatWidth) (bits : Nat) : String :=
  constantLayout.text w.format bits

end FloatWidth

end SsaCompiler.Numeral
