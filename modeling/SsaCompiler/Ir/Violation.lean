import SsaCompiler.Ir.Id
import SsaCompiler.Ir.Opcode

/-!
# Violations of the typing rules

What can be wrong with a function, in the words of an error message, and the errors that building and
checking a module can end with.
-/

namespace SsaCompiler.Ir

inductive Violation where
  | emptyBlock (block : BlockId)
  | noTerminator (block : BlockId)
  | instAfterTerminator (block : BlockId) (inst : InstId)
  | typeMismatch (op : Opcode) (expected found : Ty)
  | returnMismatch (expected found : Ty)
  | operandMismatch (inst : InstId) (lhs rhs : Ty)
  | invalidConversion (inst : InstId) (op : Opcode) (source target : Ty)
  | pointerArithmetic (inst : InstId) (op : Opcode)
  | argumentCount (inst : InstId) (expected found : Nat) (variadic : Bool)
  | argumentType (inst : InstId) (index : Nat) (expected found : Ty)
  | slotMismatch (inst : InstId) (slot : SlotId) (expected found : Ty)
  | other (text : String)
  deriving DecidableEq

def Violation.message : Violation → String
  | .emptyBlock block => "Block " ++ block.text ++ " is empty"
  | .noTerminator block => "Block " ++ block.text ++ " does not end with a terminator"
  | .instAfterTerminator block inst =>
    "Instruction " ++ inst.text ++ " follows the terminator of " ++ block.text
  | .typeMismatch op expected found =>
    "Instruction " ++ op.text ++ " type mismatch: expected " ++ expected.text ++ ", got " ++ found.text
  | .returnMismatch expected found =>
    "Return type mismatch: expected " ++ expected.text ++ ", got " ++ found.text
  | .operandMismatch inst lhs rhs =>
    "Operand type mismatch for " ++ inst.text ++ ": lhs " ++ lhs.text ++ ", rhs " ++ rhs.text
  | .invalidConversion inst op source target =>
    "Invalid conversion in " ++ inst.text ++ " for " ++ op.text ++ ": from " ++ source.text ++ " to " ++
      target.text
  | .pointerArithmetic inst op =>
    "Pointer arithmetic not allowed for instruction " ++ inst.text ++ " (" ++ op.text ++ ")"
  | .argumentCount inst expected found variadic =>
    "Call " ++ inst.text ++ " expects " ++ (if variadic then "at least " else "") ++ toString expected ++
      " arguments, got " ++ toString found
  | .argumentType inst index expected found =>
    "Call " ++ inst.text ++ " argument " ++ toString index ++ " type mismatch: expected " ++
      expected.text ++ ", got " ++ found.text
  | .slotMismatch inst slot expected found =>
    "Instruction " ++ inst.text ++ " accesses " ++ slot.text ++ " as " ++ found.text ++ ", slot holds " ++
      expected.text
  | .other text => text

/-- What building or checking a module can end with. -/
inductive Error where
  /-- A rule is broken. -/
  | violation (v : Violation)
  /-- A rule is broken in a function. -/
  | inFunction (name : String) (v : Violation)
  /-- Something cannot be added to the module. -/
  | message (text : String)
  deriving DecidableEq

def Error.text : Error → String
  | .violation v => "Validation error: " ++ v.message
  | .inFunction name v => "Validation error in function " ++ name ++ ": " ++ v.message
  | .message text => text

/-- The end of a computation that may also use an id that names nothing. -/
inductive Failure (ε : Type) where
  | error (e : ε)
  | fault (f : Fault)

/-- A computation that can only end with a fault among those that can also end with an error. -/
def Failure.ofFault {ε α : Type} (x : Except Fault α) : Except (Failure ε) α :=
  x.mapError .fault

end SsaCompiler.Ir
