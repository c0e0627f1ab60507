import SsaCompiler.Ir.Opcode
import SsaCompiler.Ir.Ty

/-!
# Values and what surrounds a function

Meaning is given relative to an interpretation of the operations, which may be any functions on typed
values, and to an oracle that stands for everything outside of one function: it keeps the globals and
answers calls, which may change them.  A `World` is the state of the oracle with the calls so far.

    w.ask O callee args = the answer, and the world in which the call has been made
-/

namespace SsaCompiler.Semantics

open Numeral (IntWidth FloatWidth)
open Ir (Ty Opcode)

/-- A value with the type that holds it. -/
structure Datum (V : Type) where
  ty : Ty
  val : V

/-- What constants and operations mean. -/
structure Interpretation (V : Type) where
  integer : (width : IntWidth) → BitVec width.bits → V
  floating : (width : FloatWidth) → BitVec width.bits → V
  /-- The address of a data object with some bytes. -/
  address : List UInt8 → V
  /-- A conversion to a type. -/
  unary : Opcode → Datum V → Ty → V
  binary : Opcode → Datum V → Datum V → V

/-- What keeps the globals and answers calls. -/
structure Oracle (V σ : Type) where
  global : σ → String → V
  answer : σ → String → List (Datum V) → V × σ

structure World (V σ : Type) where
  state : σ
  /-- The calls with their arguments, the latest last. -/
  calls : List (String × List (Datum V))

/-- Makes a call. -/
def World.ask {V σ : Type} (w : World V σ) (O : Oracle V σ) (callee : String) (args : List (Datum V)) :
    V × World V σ :=
  let (v, state) := O.answer w.state callee args
  (v, { state, calls := w.calls ++ [(callee, args)] })

end SsaCompiler.Semantics
