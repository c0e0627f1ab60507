import SsaCompiler.Lowering.Coercion
import SsaCompiler.Lowering.Declarations
import SsaCompiler.Lang.Error
import SsaCompiler.Ir.Body
import SsaCompiler.Ir.Violation
import SsaCompiler.Numeral.Reading

/-!
# Lowering expressions

An expression becomes instructions at the end of the body and the value of the last of them, with the
type it has in the language.  Operands and arguments are lowered from left to right.

The operands of an operator are brought to one type: the one of lower priority is converted to the type
of the other, and on a tie the left one.  Arguments are not converted, except that `printf` takes
single-precision numbers as double-precision ones; a fixed argument has to share the representation of
its parameter.

Errors are placed at the line of the statement or call that was last begun; a call in an expression
stays the one last begun until the statement or the enclosing call goes on.
-/

namespace SsaCompiler.Lowering

open Lang (Prim Expr BinaryOp LoweringCause LoweringError)
open Ir (Body Build Failure ValueId)

/-- The state of a body that is lowered. -/
structure BodyState where
  body : Body
  scope : Scope
  /-- The line errors are placed at. -/
  line : Nat

/-- Lowers a part of a body; an error or a fault leaves the state that was reached. -/
abbrev Lower := ExceptT (Failure LoweringError) (StateM BodyState)

/-- A value and its type in the language. -/
structure Typed where
  value : ValueId
  ty : Prim

namespace Lower

/-- An error at the current line. -/
def fail {α : Type} (cause : LoweringCause) : Lower α := do
  throw (.error ⟨cause, (← get).line⟩)

/-- Writes to the body. -/
def build {α : Type} (b : Build α) : Lower α := fun ⟨body, scope, line⟩ =>
  match ExceptT.run b body with
  | (.ok a, body) => (.ok a, ⟨body, scope, line⟩)
  | (.error f, body) => (.error (.fault f), ⟨body, scope, line⟩)

/-- Places errors at a line from here on. -/
def atLine (line : Nat) : Lower Unit :=
  modify ({ · with line })

/-- The type that holds the values of a type. -/
def representation (ty : Prim) : Lower Ir.Ty := do
  match ty.repr? with
  | some ty => pure ty
  | none => fail (.unmappedType ty)

/-- The variable that a name is bound to. -/
def bound? (name : String) : Lower (Option Variable) := do
  return (← get).scope.lookup name

/-- Binds a name to a slot. -/
def bind (name : String) (v : Variable) : Lower Unit :=
  modify fun s => { s with scope := (name, v) :: s.scope }

/-! ## Conversions -/

/-- A value converted to a type, without an instruction where the pattern stays as it is. -/
def coerce (v : Typed) (target : Prim) : Lower Typed := do
  if v.ty = target then pure v
  else
    let ty ← representation target
    match conversion? v.ty target with
    | none => fail (.unsupportedCast v.ty target)
    | some .keep => pure { v with ty := target }
    | some (.apply op) => return { value := ← build (.convert op v.value ty), ty := target }

/-- Two operands brought to one type. -/
def unify (lhs rhs : Typed) : Lower (Typed × Typed) := do
  if rhs.ty.priority < lhs.ty.priority then return (lhs, ← coerce rhs lhs.ty)
  else return (← coerce lhs rhs.ty, rhs)

/-! ## Leaves -/

/-- A literal of a type. -/
def literal (ty : Prim) (text : String) : Lower Typed := do
  match ty with
  | .float width =>
    match width.format.read? text with
    | some bits => return { value := ← build (.fconst (.float width) (BitVec.ofNat 64 bits)), ty }
    | none => fail (.invalidLiteral ty text)
  | .str =>
    let data ← build (.internData text.toUTF8.toList)
    return { value := ← build (.dataAddr data), ty }
  | .int _ width =>
    match (Numeral.readSigned? 128 text).filter (literalFits width.bits) with
    | some n => return { value := ← build (.iconst (.int width) (BitVec.ofInt 64 n)), ty }
    | none => fail (.invalidLiteral ty text)
  | _ => fail (.invalidLiteral ty text)

/-- The value of a name: of a variable, or else of a global. -/
def name (d : Declarations) (name : String) : Lower Typed := do
  match ← bound? name with
  | some v => return { value := ← build (.stackLoad v.slot), ty := v.ty }
  | none =>
    match d.global? name with
    | some g => return { value := ← build (.globalLoad g.id), ty := g.ty }
    | none => fail (.unresolvedIdentifier name)

/-! ## Operators -/

/-- An operator on two lowered operands. -/
def operator (op : BinaryOp) (lhs rhs : Typed) : Lower Typed := do
  let (lhs, rhs) ← unify lhs rhs
  match arithmetic? op lhs.ty with
  | some opcode => return { value := ← build (.binary opcode lhs.value rhs.value), ty := lhs.ty }
  | none => fail (.unsupportedOperator op lhs.ty)

/-! ## Calls -/

/-- The one callee that takes single-precision numbers as double-precision ones. -/
def promotingCallee : String := "printf"

/-- Begins a call: finds the callee, which has to accept the number of arguments. -/
def beginCall (d : Declarations) (callee : String) (count line : Nat) : Lower FunctionInfo := do
  atLine line
  match d.function? callee with
  | none => fail (.unresolvedCallee callee)
  | some info =>
    let expected := info.params.length
    if count < expected || (!info.variadic && expected < count) then
      fail (.argumentCount callee expected count info.variadic)
    else pure info

/-- A lowered argument as it is passed; `param` is the type of the fixed parameter it is for. -/
def argument (callee : String) (index : Nat) (param : Option Prim) (arg : Typed) : Lower ValueId := do
  let arg ←
    if callee = promotingCallee && arg.ty = .float .w32 then coerce arg (.float .w64) else pure arg
  match param with
  | some expected =>
    if (← representation expected) = (← representation arg.ty) then pure arg.value
    else fail (.argumentType callee index expected arg.ty)
  | none => pure arg.value

/-- Ends a call; one of a function that returns `void` has no value. -/
def endCall (info : FunctionInfo) (args : List ValueId) : Lower (Option Typed) := do
  let (_, result) ← build (.call info.id args)
  return result.map fun value => { value, ty := info.ret }

mutual

/-- An expression. -/
def expr (d : Declarations) : Expr → Lower Typed
  | .literal ty text => literal ty text
  | .name n => name d n
  | .binary op lhs rhs => do
    let lhs ← expr d lhs
    let rhs ← expr d rhs
    operator op lhs rhs
  | .call callee args line => do
    let info ← beginCall d callee args.length line
    match ← endCall info (← arguments d callee line 0 info.params args) with
    | some v => pure v
    | none => fail (.voidValue ("result of '" ++ callee ++ "'"))

/-- The arguments of a call from an index on, with the types of the fixed parameters left. -/
def arguments (d : Declarations) (callee : String) (line : Nat) :
    Nat → List Prim → List Expr → Lower (List ValueId)
  | _, _, [] => pure []
  | index, params, e :: rest => do
    let arg ← expr d e
    atLine line
    let value ← argument callee index params.head? arg
    return value :: (← arguments d callee line (index + 1) params.tail rest)

end

end Lower

end SsaCompiler.Lowering
