import SsaCompiler.Ir.Ty

/-!
# Types of the language

The types of declarations, parameters and literals.  Pointers point to numbers of at most 64 bits,
`str` is the type of string literals, and `invalid` stands where there is no type.

    pointerTo ty       the type of pointers to `ty`, or `invalid`
    repr? ty           the type of the intermediate representation that holds a value
    priority ty        the rank that decides which operand of an operator is converted
-/

namespace SsaCompiler.Lang

open Numeral (IntWidth FloatWidth)
open Ir (Ty)

/-- Whether the pattern of an integer is read with a sign. -/
inductive Sign where
  | signed | unsigned
  deriving DecidableEq

/-- What a pointer may point to. -/
inductive Pointee where
  | int (sign : Sign) (width : IntWidth) (small : width ≠ .w128)
  | float (width : FloatWidth)
  deriving DecidableEq

inductive Prim where
  | void
  | int (sign : Sign) (width : IntWidth)
  | float (width : FloatWidth)
  | pointer (target : Pointee)
  | str
  | invalid
  deriving DecidableEq

namespace Prim

/-- The pointer type to a type, or `invalid` where there is none. -/
def pointerTo : Prim → Prim
  | .int sign width => if h : width ≠ .w128 then .pointer (.int sign width h) else .invalid
  | .float width => .pointer (.float width)
  | _ => .invalid

/-- The types that a keyword names. -/
def named : List Prim :=
  [.void,
   .int .signed .w8, .int .signed .w16, .int .signed .w32, .int .signed .w64, .int .signed .w128,
   .int .unsigned .w8, .int .unsigned .w16, .int .unsigned .w32, .int .unsigned .w64, .int .unsigned .w128,
   .float .w32, .float .w64]

/-- All types: the named ones, the pointers to them, `str` and `invalid`. -/
def all : List Prim :=
  named ++ (named.map pointerTo).filter (· ≠ .invalid) ++ [.str, .invalid]

/-- The type that a pointer points to. -/
def ofPointee : Pointee → Prim
  | .int sign width _ => .int sign width
  | .float width => .float width

/-- The text of a type that is not a pointer. -/
def scalarText : Prim → String
  | .void => "void"
  | .int .signed .w8 => "i8"
  | .int .signed .w16 => "i16"
  | .int .signed .w32 => "i32"
  | .int .signed .w64 => "i64"
  | .int .signed .w128 => "i128"
  | .int .unsigned .w8 => "u8"
  | .int .unsigned .w16 => "u16"
  | .int .unsigned .w32 => "u32"
  | .int .unsigned .w64 => "u64"
  | .int .unsigned .w128 => "u128"
  | .float .w32 => "f32"
  | .float .w64 => "f64"
  | .str => "str"
  | _ => "<invalid>"

/-- The text of a type, a pointer's being that of its target and a star. -/
def text : Prim → String
  | .pointer target => scalarText (ofPointee target) ++ "*"
  | ty => scalarText ty

/-- The type that a keyword names. -/
def ofKeyword? (word : String) : Option Prim :=
  named.find? (·.text = word)

/-- The type with a text. -/
def ofText? (text : String) : Option Prim :=
  all.find? (·.text = text)

def isSigned : Prim → Bool
  | .int .signed _ => true
  | _ => false

def isUnsigned : Prim → Bool
  | .int .unsigned _ => true
  | _ => false

def isInt : Prim → Bool
  | .int .. => true
  | _ => false

def isFloat : Prim → Bool
  | .float _ => true
  | _ => false

/-- Pointers and `str`, whose values are addresses. -/
def isPointer : Prim → Bool
  | .pointer _ => true
  | .str => true
  | _ => false

/-- The width of a number in bits. -/
def bitWidth? : Prim → Option Nat
  | .int _ width => some width.bits
  | .float width => some width.bits
  | _ => none

/-- The type of the intermediate representation that holds the values of a type. -/
def repr? : Prim → Option Ty
  | .void => some .void
  | .int _ width => some (.int width)
  | .float width => some (.float width)
  | .pointer _ => some .ptr
  | .str => some .ptr
  | .invalid => none

/-- The rank of a type among the operands of an operator.  Integers rank by width, floating-point
types above every integer, and addresses just above `void`. -/
def priority : Prim → Int
  | .float .w32 => 132
  | .float .w64 => 164
  | .void => 0
  | .pointer _ => 2
  | .str => 2
  | .int _ width => width.bits
  | .invalid => -1

theorem pointerTo_ne_invalid_iff {ty : Prim} :
    ty.pointerTo ≠ .invalid ↔ ∃ target, ty.pointerTo = .pointer target := by
  cases ty <;> simp [pointerTo]
  split <;> simp_all

end Prim

end SsaCompiler.Lang
