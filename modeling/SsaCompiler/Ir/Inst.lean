import SsaCompiler.Ir.Id
import SsaCompiler.Ir.Opcode

/-!
# Instructions

An instruction is an operation with its operands.  Its result, where it has one, is a value of the
function it belongs to, so the type of the result is not part of the instruction.
-/

namespace SsaCompiler.Ir

inductive Inst where
  | unary (op : Opcode) (arg : ValueId)
  | binary (op : Opcode) (lhs rhs : ValueId)
  /-- An integer constant, extended to 64 bits with its sign. -/
  | iconst (bits : BitVec 64)
  /-- The pattern of a floating-point constant in the lowest bits. -/
  | fconst (bits : BitVec 64)
  | stackLoad (slot : SlotId)
  | stackStore (value : ValueId) (slot : SlotId)
  | globalLoad (global : GlobalId)
  | dataAddr (data : DataId)
  | call (callee : FuncId) (args : List ValueId)
  | ret (value : Option ValueId)
  deriving DecidableEq

namespace Inst

def opcode : Inst → Opcode
  | .unary op _ => op
  | .binary op _ _ => op
  | .iconst _ => .iconst
  | .fconst _ => .fconst
  | .stackLoad _ => .stackLoad
  | .stackStore .. => .stackStore
  | .globalLoad _ => .globalLoad
  | .dataAddr _ => .dataAddr
  | .call .. => .call
  | .ret _ => .ret

/-- The values an instruction uses, in order. -/
def operands : Inst → List ValueId
  | .unary _ arg => [arg]
  | .binary _ lhs rhs => [lhs, rhs]
  | .stackStore value _ => [value]
  | .call _ args => args
  | .ret value => value.toList
  | .iconst _ | .fconst _ | .stackLoad _ | .globalLoad _ | .dataAddr _ => []

/-- Whether an instruction ends its block. -/
def isTerminator (i : Inst) : Bool :=
  i.opcode.isTerminator

end Inst

end SsaCompiler.Ir
