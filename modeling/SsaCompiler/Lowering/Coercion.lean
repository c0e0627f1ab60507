import SsaCompiler.Lang.Program
import SsaCompiler.Ir.Opcode
import SsaCompiler.Numeral.Power

/-!
# Conversions and arithmetic by type

Which operation turns a value of one type of the language into one of another, and which operation
does arithmetic on two values of a type.  Between integers the width of the target decides whether a
value is extended or cut, and the sign of the source how it is extended; types of one width share
their patterns, as all pointers do, and need no operation.

    conversion? source target      the conversion between two different types, if there is one
    arithmetic? op ty              the operation for an operator on operands of a type
-/

namespace SsaCompiler.Lowering

open Lang (Prim Sign BinaryOp)
open Ir (Opcode)
open Numeral (twoTo fitsSigned)

/-- How a value is converted. -/
inductive Conversion where
  /-- The pattern stays as it is. -/
  | keep
  | apply (op : Opcode)
  deriving DecidableEq

/-- How an integer of a sign becomes wider. -/
def extension : Sign → Opcode
  | .signed => .extendS
  | .unsigned => .extendU

/-- The conversion between two different types, if there is one. -/
def conversion? (source target : Prim) : Option Conversion :=
  match source, target with
  | .int sign width, .int _ width' =>
    if width.bits < width'.bits then some (.apply (extension sign))
    else if width'.bits < width.bits then some (.apply .wrap)
    else some .keep
  | .float width, .float width' =>
    if width.bits < width'.bits then some (.apply .floatPromote) else some (.apply .floatDemote)
  | .int .., .float _ => some (.apply .intToFloatS)
  | .float _, .int .. => some (.apply .floatToIntS)
  | _, _ =>
    if source.isPointer && target.isPointer then some .keep
    else if source.isInt && target.isPointer then some (.apply .intToPtr)
    else if source.isPointer && target.isInt then some (.apply .ptrToInt)
    else none

/-- The operation for an operator on operands of a type, if there is one. -/
def arithmetic? (op : BinaryOp) (ty : Prim) : Option Opcode :=
  match ty, op with
  | .float _, .add => some .fadd
  | .float _, .sub => some .fsub
  | .float _, .mul => some .fmul
  | .float _, .div => some .fdiv
  | .int .., .add => some .iadd
  | .int .., .sub => some .isub
  | .int .., .mul => some .imul
  | .int .., .div => some .idivS
  | .int .., .rem => some .iremS
  | _, _ => none

/-- Whether an integer literal is a number of some bits, read with or without a sign.  Constants are
held in 64 bits with a sign, which bounds the wider literals. -/
def literalFits (bits : Nat) (n : Int) : Bool :=
  if 64 ≤ bits then fitsSigned 64 n else -twoTo (bits - 1) ≤ n && n < twoTo bits

end SsaCompiler.Lowering
