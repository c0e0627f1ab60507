import SsaCompiler.Numeral.Width

/-!
# Types of the intermediate representation

Integers carry no sign here; the operations do.  Every pointer has one type, and `void` is the type
of an instruction without a result.
-/

namespace SsaCompiler.Ir

open Numeral (IntWidth FloatWidth)

inductive Ty where
  | int (width : IntWidth)
  | float (width : FloatWidth)
  | ptr
  | void
  deriving DecidableEq

namespace Ty

/-- All types, by width within their class. -/
def all : List Ty :=
  [.int .w8, .int .w16, .int .w32, .int .w64, .int .w128, .float .w32, .float .w64, .ptr, .void]

def text : Ty → String
  | .int .w8 => "i8"
  | .int .w16 => "i16"
  | .int .w32 => "i32"
  | .int .w64 => "i64"
  | .int .w128 => "i128"
  | .float .w32 => "f32"
  | .float .w64 => "f64"
  | .ptr => "ptr"
  | .void => "void"

/-- The type with a text. -/
def ofText? (text : String) : Option Ty :=
  all.find? (·.text = text)

def isInt : Ty → Bool
  | .int _ => true
  | _ => false

def isFloat : Ty → Bool
  | .float _ => true
  | _ => false

def isPointer : Ty → Bool
  | .ptr => true
  | _ => false

/-- The width in bits; nothing of type `void` is stored. -/
def bits : Ty → Nat
  | .int w => w.bits
  | .float w => w.bits
  | .ptr => 64
  | .void => 0

/-- The size in bytes. -/
def size (ty : Ty) : Nat :=
  ty.bits / 8

end Ty

end SsaCompiler.Ir
