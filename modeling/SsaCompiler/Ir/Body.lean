import SsaCompiler.Ir.Module

/-!
# Bodies under construction

A `Body` is a function taken out of its module to be written, with the block that instructions go to.
The module around it is there to be read, and grows only by interned data; `Body.close` puts the
function back.

    Module.open m f        the body of the function `f` of `m`
    Body.close b f         the module with what was written
    Build α                writes to a body and gives a result, or ends with a fault

An instruction goes to the current block; where there is none, the entry block is made first, with one
parameter for each fixed parameter of the signature.  The type of a result follows from the operands,
but for constants and conversions, which name it.
-/

namespace SsaCompiler.Ir

structure Body where
  module : Module
  func : Function
  /-- The block that instructions go to. -/
  current : Option BlockId

/-- The body of a function, at its entry block if it has one. -/
def Module.open (m : Module) (f : FuncId) : Except Fault Body := do
  let func ← m.functions.get f
  pure { module := m, func, current := func.entry }

/-- The module with the function of a body put back. -/
def Body.close (b : Body) (f : FuncId) : Module :=
  { b.module with functions := b.module.functions.set f b.func }

/-- Writes to a body; a fault ends the writing and leaves what was written. -/
abbrev Build := ExceptT Fault (StateM Body)

namespace Build

/-- Changes the function of the body. -/
def modifyFunc (f : Function → Function) : Build Unit :=
  modify fun ⟨module, func, current⟩ => ⟨module, f func, current⟩

/-- Reads from the function of the body. -/
def fromFunc {α : Type} (f : Function → Except Fault α) : Build α := do
  liftM (f (← get).func)

/-! ## Blocks -/

/-- A new block, which is not entered yet. -/
def createBlock : Build BlockId := do
  let b := (← get).func.blocks.next
  modifyFunc fun f => { f with blocks := f.blocks.push { params := #[], insts := #[] } }
  pure b

/-- Makes a block the current one.  The first block that is entered becomes the entry block. -/
def switchTo (b : BlockId) : Build Unit := do
  modifyFunc fun f =>
    { f with
      order := if f.order.contains b then f.order else f.order.push b
      entry := f.entry.or (some b) }
  modify fun body => { body with current := some b }

/-- Changes a block. -/
def modifyBlock (b : BlockId) (f : BlockData → BlockData) : Build Unit := do
  let blocks ← fromFunc (·.blocks.modify b f)
  modifyFunc ({ · with blocks })

/-- A new value. -/
def addValue (data : ValueData) : Build ValueId := do
  let v := (← get).func.values.next
  modifyFunc fun f => { f with values := f.values.push data }
  pure v

/-- A new parameter of a block, after the others. -/
def addBlockParam (b : BlockId) (ty : Ty) : Build ValueId := do
  let v ← addValue { ty, definition := .param b }
  modifyBlock b fun data => { data with params := data.params.push v }
  pure v

/-- Makes a block with the parameters of the signature and enters it. -/
def initEntry : Build BlockId := do
  let b ← createBlock
  switchTo b
  let body ← get
  let signature ← liftM (body.module.signatures.get body.func.signature)
  signature.params.forM fun ty => discard (addBlockParam b ty)
  pure b

/-- The current block, or the entry block made for the want of one. -/
def insertionBlock : Build BlockId := do
  match (← get).current with
  | some b => pure b
  | none => initEntry

/-! ## Instructions -/

/-- Adds an instruction at the end of a block. -/
def append (b : BlockId) (inst : Inst) : Build InstId := do
  let i := (← get).func.insts.next
  modifyFunc fun f => { f with insts := f.insts.push { inst, result := none } }
  modifyBlock b fun data => { data with insts := data.insts.push i }
  pure i

/-- Gives an instruction a new value as its result. -/
def addResult (i : InstId) (ty : Ty) : Build ValueId := do
  let v ← addValue { ty, definition := .result i }
  let insts ← fromFunc (·.insts.modify i ({ · with result := some v }))
  modifyFunc ({ · with insts })
  pure v

/-- The type of the result of an instruction, where the operands decide it. -/
def impliedType (inst : Inst) : Build (Option Ty) := do
  let b ← get
  match inst with
  | .unary _ arg => return some (← b.func.valueType arg)
  | .binary _ lhs _ => return some (← b.func.valueType lhs)
  | .stackLoad slot => return some (← b.func.slots.get slot).ty
  | .globalLoad global => return some (← b.module.globals.get global).ty
  | .dataAddr _ => return some .ptr
  | .call callee _ =>
    let ret := (← b.module.signatureOf callee).ret
    return if ret = .void then none else some ret
  | .iconst _ | .fconst _ | .stackStore .. | .ret _ => return none

/-- An instruction whose operands decide the type of its result. -/
def emit (inst : Inst) : Build (InstId × Option ValueId) := do
  let b ← insertionBlock
  let ty ← impliedType inst
  let i ← append b inst
  match ty with
  | none => pure (i, none)
  | some ty => return (i, some (← addResult i ty))

/-- The result of an instruction whose operands decide its type. -/
def emitValue (inst : Inst) : Build ValueId := do
  match ← emit inst with
  | (_, some v) => pure v
  | (i, none) => throw (.noResult i)

/-- The result of an instruction that names its type. -/
def emitTyped (inst : Inst) (ty : Ty) : Build ValueId := do
  let b ← insertionBlock
  let i ← append b inst
  addResult i ty

/-- The lowest bits of a pattern, extended with their sign. -/
def truncated (width : Numeral.IntWidth) (bits : BitVec 64) : BitVec 64 :=
  (bits.setWidth width.bits).signExtend 64

/-- An integer constant, cut to the width of its type. -/
def iconst (ty : Ty) (bits : BitVec 64) : Build ValueId :=
  match ty with
  | .int width => emitTyped (.iconst (truncated width bits)) ty
  | _ => throw (.notAnInteger ty)

/-- A floating-point constant by its pattern. -/
def fconst (ty : Ty) (bits : BitVec 64) : Build ValueId :=
  match ty with
  | .float _ => emitTyped (.fconst bits) ty
  | _ => throw (.notAFloat ty)

/-- An operation on two values, of the type of the first. -/
def binary (op : Opcode) (lhs rhs : ValueId) : Build ValueId :=
  emitValue (.binary op lhs rhs)

/-- A value converted to a type. -/
def convert (op : Opcode) (arg : ValueId) (ty : Ty) : Build ValueId :=
  emitTyped (.unary op arg) ty

def stackLoad (slot : SlotId) : Build ValueId :=
  emitValue (.stackLoad slot)

def stackStore (value : ValueId) (slot : SlotId) : Build Unit :=
  discard (emit (.stackStore value slot))

def globalLoad (global : GlobalId) : Build ValueId :=
  emitValue (.globalLoad global)

def dataAddr (data : DataId) : Build ValueId :=
  emitValue (.dataAddr data)

/-- A call; it has a result unless the callee returns `void`. -/
def call (callee : FuncId) (args : List ValueId) : Build (InstId × Option ValueId) :=
  emit (.call callee args)

def ret (value : Option ValueId) : Build Unit :=
  discard (emit (.ret value))

/-! ## Slots, names and data -/

/-- A new stack slot. -/
def createSlot (ty : Ty) (name : String) : Build SlotId := do
  let slot := (← get).func.slots.next
  modifyFunc fun f => { f with slots := f.slots.push { ty, name } }
  pure slot

/-- Names a value, which need not exist yet. -/
def setName (v : ValueId) (name : String) : Build Unit :=
  modifyFunc fun f => { f with names := (v, name) :: f.names }

def setLinkage (linkage : Linkage) : Build Unit :=
  modifyFunc fun f => { f with linkage }

/-- The data object of the module with some contents. -/
def internData (contents : List UInt8) : Build DataId :=
  modifyGet fun ⟨module, func, current⟩ =>
    let (i, module) := module.internData contents
    (i, ⟨module, func, current⟩)

/-! ## Reading -/

/-- The parameter of the function at an index. -/
def funcParam (index : Nat) : Build ValueId := do
  match (← fromFunc (·.params))[index]? with
  | some v => pure v
  | none => throw (.noParameter index)

/-- Whether the current block ends with a terminator. -/
def isTerminated : Build Bool := do
  match (← get).current with
  | none => pure false
  | some b =>
    match ← fromFunc (·.lastInst? b) with
    | none => pure false
    | some i => return (← fromFunc (·.insts.get i)).inst.isTerminator

end Build

end SsaCompiler.Ir
