import SsaCompiler.Ir.Constant
import SsaCompiler.Ir.Inst

/-!
# Functions

A function holds its instructions, values, blocks and stack slots in tables.  Blocks list instructions
by id, `order` lists the blocks that have been entered, and the entry block is the first of these; a
function without one is only declared.  A value is the result of an instruction or a parameter of a
block, and may have a name.
-/

namespace SsaCompiler.Ir

/-- Where the definition of a function is, and who may use it. -/
inductive Linkage where
  /-- Defined in another module. -/
  | imported
  /-- Defined here and visible to other modules. -/
  | exported
  /-- Defined here for this module alone. -/
  | internal
  deriving DecidableEq

namespace Linkage

def all : List Linkage :=
  [.imported, .exported, .internal]

def text : Linkage → String
  | .imported => "import"
  | .exported => "export"
  | .internal => "local"

/-- Whether other modules take part. -/
def isExternal : Linkage → Bool
  | .imported | .exported => true
  | .internal => false

end Linkage

/-- Where a value comes from. -/
inductive ValueDef where
  | result (inst : InstId)
  | param (block : BlockId)
  deriving DecidableEq

structure ValueData where
  ty : Ty
  definition : ValueDef
  deriving DecidableEq

/-- An instruction with the value that is its result. -/
structure InstData where
  inst : Inst
  result : Option ValueId
  deriving DecidableEq

structure BlockData where
  params : Array ValueId
  insts : Array InstId
  deriving DecidableEq

/-- A place in the frame of a function for one value. -/
structure SlotData where
  ty : Ty
  name : String
  deriving DecidableEq

structure Function where
  name : String
  signature : SigId
  linkage : Linkage
  insts : Table .inst InstData
  values : Table .value ValueData
  /-- The names given to values, the latest first; the empty name is none. -/
  names : List (ValueId × String)
  blocks : Table .block BlockData
  order : Array BlockId
  slots : Table .slot SlotData
  entry : Option BlockId

namespace Function

/-- A function without a body. -/
def declared (name : String) (signature : SigId) (linkage : Linkage) : Function :=
  { name, signature, linkage
    insts := .empty, values := .empty, names := [], blocks := .empty, order := #[], slots := .empty
    entry := none }

def isDefined (f : Function) : Bool :=
  f.entry.isSome

/-! ## Values -/

def valueType (f : Function) (v : ValueId) : Except Fault Ty :=
  return (← f.values.get v).ty

/-- The instruction whose result a value is; none for a parameter. -/
def definingInst (f : Function) (v : ValueId) : Except Fault (Option InstId) := do
  match (← f.values.get v).definition with
  | .result i => pure (some i)
  | .param _ => pure none

def valueName? (f : Function) (v : ValueId) : Option String :=
  (f.names.lookup v).filter (· ≠ "")

/-- The constant that a value is, if a constant instruction of the right class defines it. -/
def constant? (f : Function) (v : ValueId) : Except Fault (Option Constant) := do
  match ← f.definingInst v with
  | none => pure none
  | some i =>
    let ty ← f.valueType v
    match (← f.insts.get i).inst, ty with
    | .iconst bits, .int width => pure (some (.int width (BitVec.ofInt width.bits bits.toInt)))
    | .fconst bits, .float width => pure (some (.float width (bits.setWidth width.bits)))
    | _, _ => pure none

/-- The result of an instruction; none also where the id names nothing. -/
def result? (f : Function) (i : InstId) : Option ValueId :=
  (f.insts.get? i).bind (·.result)

/-- The type of the result of an instruction, `void` where it has none. -/
def resultType (f : Function) (i : InstId) : Except Fault Ty :=
  match f.result? i with
  | some v => f.valueType v
  | none => pure .void

/-! ## Blocks -/

/-- The last instruction that a block lists. -/
def lastInst? (f : Function) (b : BlockId) : Except Fault (Option InstId) :=
  return (← f.blocks.get b).insts.back?

/-- The values that the entry block takes; none without one. -/
def params (f : Function) : Except Fault (List ValueId) :=
  match f.entry with
  | some b => return (← f.blocks.get b).params.toList
  | none => pure []

end Function

end SsaCompiler.Ir
