import SsaCompiler.Ir.Module
import SsaCompiler.Ir.Violation

/-!
# The typing rules

A module is well typed if every function with a body is.  Each block that has been entered must list
instructions, a terminator last and no other before it, and each instruction must fit the types of its
operands and of its result, an instruction without a result counting as one of type `void`:

    conversions     from and to the classes of the operation, strictly wider or narrower
    arithmetic      operands and result of one type, of the class of the operation, and no addresses
    constants       a result of the class of the constant
    loads, stores   the type of the slot
    calls           the arity of the callee, and its types for the fixed parameters
    returns         the result type of the function

`Module.check` finds the first violation: function by function, block by block in the order they were
entered, instruction by instruction, and of one instruction the rule that is named first above.
-/

namespace SsaCompiler.Ir

/-- Finds the first violation, or ends with a fault. -/
abbrev Check := Except (Failure Violation)

namespace Check

/-- Reads from the tables. -/
def read {α : Type} (x : Except Fault α) : Check α :=
  Failure.ofFault x

/-- A rule; where it does not hold, it is the violation. -/
def require (holds : Bool) (v : Violation) : Check Unit :=
  if holds then pure () else throw (.error v)

end Check

open Check (read require)

/-- Whether a conversion may go from one type to another. -/
def Opcode.converts (op : Opcode) (source target : Ty) : Bool :=
  match op with
  | .extendS | .extendU => source.isInt && target.isInt && source.bits < target.bits
  | .wrap => source.isInt && target.isInt && target.bits < source.bits
  | .floatPromote => source = .float .w32 && target = .float .w64
  | .floatDemote => source = .float .w64 && target = .float .w32
  | .floatToIntS => source.isFloat && target.isInt
  | .intToFloatS => source.isInt && target.isFloat
  | .intToPtr => source.isInt && target.isPointer
  | .ptrToInt => source.isPointer && target.isInt
  | _ => false

namespace Function

/-- The arguments of a call against the fixed parameters, from an index on. -/
def checkArgs (f : Function) (i : InstId) : Nat → List ValueId → List Ty → Check Unit
  | index, arg :: args, expected :: params => do
    let found ← read (f.valueType arg)
    require (found = expected) (.argumentType i index expected found)
    checkArgs f i (index + 1) args params
  | _, _, _ => pure ()

/-- One instruction of a function. -/
def checkInst (f : Function) (m : Module) (i : InstId) : Check Unit := do
  let data ← read (f.insts.get i)
  let result ← read (f.resultType i)
  match data.inst with
  | .unary op arg =>
    let source ← read (f.valueType arg)
    require (op.converts source result) (.invalidConversion i op source result)
  | .binary op lhs rhs =>
    let left ← read (f.valueType lhs)
    let right ← read (f.valueType rhs)
    require (!left.isPointer && !right.isPointer) (.pointerArithmetic i op)
    require (left = right && left = result) (.operandMismatch i left right)
    if op.isFloatArithmetic then require left.isFloat (.typeMismatch op (.float .w64) left)
    else require left.isInt (.typeMismatch op (.int .w64) left)
  | .iconst _ => require result.isInt (.typeMismatch .iconst (.int .w64) result)
  | .fconst _ => require result.isFloat (.typeMismatch .fconst (.float .w64) result)
  | .stackLoad slot =>
    let expected := (← read (f.slots.get slot)).ty
    require (expected = result) (.slotMismatch i slot expected result)
  | .stackStore value slot =>
    let expected := (← read (f.slots.get slot)).ty
    let found ← read (f.valueType value)
    require (expected = found) (.slotMismatch i slot expected found)
  | .globalLoad _ => pure ()
  | .dataAddr _ => pure ()
  | .call callee args =>
    let signature ← read (m.signatureOf callee)
    require (signature.accepts args.length)
      (.argumentCount i signature.params.length args.length signature.variadic)
    checkArgs f i 0 args signature.params
  | .ret value =>
    let expected := (← read (m.signatures.get f.signature)).ret
    let found ←
      match value with
      | some v => read (f.valueType v)
      | none => pure .void
    require (expected = found) (.returnMismatch expected found)

/-- The instructions of a block.  A terminator other than the last instruction is a violation.  The
last is told by its id, so an earlier listing of the same instruction is not noticed. -/
def checkInsts (f : Function) (m : Module) (b : BlockId) (last : InstId) : List InstId → Check Unit
  | [] => pure ()
  | i :: rest => do
    if (← read (f.insts.get i)).inst.isTerminator && i ≠ last then
      match rest with
      | next :: _ => throw (.error (.instAfterTerminator b next))
      | [] => pure ()
    checkInst f m i
    checkInsts f m b last rest

/-- One block. -/
def checkBlock (f : Function) (m : Module) (b : BlockId) : Check Unit := do
  let insts := (← read (f.blocks.get b)).insts
  match insts.back? with
  | none => throw (.error (.emptyBlock b))
  | some last =>
    checkInsts f m b last insts.toList
    require (← read (f.insts.get last)).inst.isTerminator (.noTerminator b)

/-- A function with a body; a declaration is always well typed. -/
def check (f : Function) (m : Module) : Check Unit :=
  if f.isDefined then f.order.toList.forM (f.checkBlock m) else pure ()

end Function

/-- All functions of a module. -/
def Module.check (m : Module) : Except (Failure Error) Unit :=
  m.functions.toList.forM fun f =>
    (f.check m).mapError fun
      | .error v => .error (.inFunction f.name v)
      | .fault fault => .fault fault

end SsaCompiler.Ir
