import SsaCompiler.Ir.Body
import SsaCompiler.Ir.Listing
import SsaCompiler.Ir.Typing

/-!
# Building scripts

A script builds a module action by action.  An action on a module adds to it, asks something about it,
or opens a body and runs the actions of that body; an action on a body is one call on a `Build`.  Each
action has an answer, and a fault ends the script.

    ModuleAction.runAll actions m      the answers, and the module or the fault at the end
    BodyAction.isDirect a              whether an action writes to the tables without the builder
-/

namespace SsaCompiler.Ir

/-! ## Actions on a body -/

inductive BodyAction where
  | initEntry
  | createBlock
  | switchTo (block : BlockId)
  | position
  | insertionBlock
  | blockParam (block : BlockId) (ty : Ty)
  | blockParams (block : BlockId)
  | funcParams
  | funcParam (index : Nat)
  | signatureOf (func : FuncId)
  | slot (ty : Ty) (name : String)
  | slotType (slot : SlotId)
  | setName (value : ValueId) (name : String)
  | setLinkage (linkage : Linkage)
  | describeValue (value : ValueId)
  | describeInst (inst : InstId)
  | iconst (ty : Ty) (bits : BitVec 64)
  | fconst (ty : Ty) (bits : BitVec 64)
  | binary (op : Opcode) (lhs rhs : ValueId)
  | convert (op : Opcode) (arg : ValueId) (ty : Ty)
  | stackLoad (slot : SlotId)
  | stackStore (value : ValueId) (slot : SlotId)
  | globalLoad (global : GlobalId)
  | dataAddr (data : DataId)
  | internData (contents : List UInt8)
  | call (callee : FuncId) (args : List ValueId)
  | ret (value : Option ValueId)
  | isTerminated
  | listing
  /-- Adds an instruction as it stands to a block, with a result if a type is given. -/
  | addInst (inst : Inst) (block : BlockId) (ty : Option Ty)
  /-- Lists an instruction once more at the end of a block. -/
  | listInst (block : BlockId) (inst : InstId)

/-- What is known of a value. -/
structure ValueInfo where
  ty : Ty
  name : Option String
  inst : Option InstId
  constant : Option Constant

inductive BodyAnswer where
  | done
  | block (b : BlockId)
  | current (b : Option BlockId)
  | position (current entry : Option BlockId)
  | value (v : ValueId)
  | values (vs : List ValueId)
  | signature (i : SigId) (s : Signature)
  | slot (s : SlotId)
  | type (ty : Ty)
  | valueInfo (info : ValueInfo)
  | instInfo (data : InstData)
  | data (d : DataId)
  | call (i : InstId) (result : Option ValueId)
  | added (i : InstId) (result : Option ValueId)
  | terminated (holds : Bool)
  | text (text : String)
  | fault (f : Fault)

namespace BodyAction

/-- Whether an action writes to the tables without the rules of the builder. -/
def isDirect : BodyAction → Bool
  | .addInst .. | .listInst .. => true
  | _ => false

open Build (fromFunc)

/-- One action with its answer. -/
def run : BodyAction → Build BodyAnswer
  | .initEntry => return .block (← Build.initEntry)
  | .createBlock => return .block (← Build.createBlock)
  | .switchTo b => do
    Build.switchTo b
    return .current (← get).current
  | .position => return .position (← get).current (← get).func.entry
  | .insertionBlock => return .block (← Build.insertionBlock)
  | .blockParam b ty => return .value (← Build.addBlockParam b ty)
  | .blockParams b => return .values (← fromFunc (·.blocks.get b)).params.toList
  | .funcParams => return .values (← fromFunc (·.params))
  | .funcParam index => return .value (← Build.funcParam index)
  | .signatureOf f => do
    let m := (← get).module
    let i := (← liftM (m.functions.get f)).signature
    return .signature i (← liftM (m.signatures.get i))
  | .slot ty name => return .slot (← Build.createSlot ty name)
  | .slotType s => return .type (← fromFunc (·.slots.get s)).ty
  | .setName v name => do
    Build.setName v name
    return .done
  | .setLinkage linkage => do
    Build.setLinkage linkage
    return .done
  | .describeValue v => do
    let f := (← get).func
    let ty ← liftM (f.valueType v)
    let inst ← liftM (f.definingInst v)
    let constant ← liftM (f.constant? v)
    return .valueInfo { ty, name := f.valueName? v, inst, constant }
  | .describeInst i => return .instInfo (← fromFunc (·.insts.get i))
  | .iconst ty bits => return .value (← Build.iconst ty bits)
  | .fconst ty bits => return .value (← Build.fconst ty bits)
  | .binary op lhs rhs => return .value (← Build.binary op lhs rhs)
  | .convert op arg ty => return .value (← Build.convert op arg ty)
  | .stackLoad s => return .value (← Build.stackLoad s)
  | .stackStore v s => do
    Build.stackStore v s
    return .done
  | .globalLoad g => return .value (← Build.globalLoad g)
  | .dataAddr d => return .value (← Build.dataAddr d)
  | .internData contents => return .data (← Build.internData contents)
  | .call callee args => do
    let (i, result) ← Build.call callee args
    return .call i result
  | .ret v => do
    Build.ret v
    return .done
  | .isTerminated => return .terminated (← Build.isTerminated)
  | .listing => return .text (← fromFunc (·.listing))
  | .addInst inst b ty => do
    let i ← Build.append b inst
    match ty with
    | none => return .added i none
    | some ty => return .added i (some (← Build.addResult i ty))
  | .listInst b i => do
    Build.modifyBlock b fun data => { data with insts := data.insts.push i }
    return .done

/-- The answers to actions up to the first fault, and what comes of the body. -/
def runAll : List BodyAction → Body → List BodyAnswer × Except Fault Body
  | [], b => ([], .ok b)
  | a :: actions, b =>
    match ExceptT.run a.run b with
    | (.error f, _) => ([.fault f], .error f)
    | (.ok answer, b) =>
      let (answers, result) := runAll actions b
      (answer :: answers, result)

end BodyAction

/-! ## Actions on a module -/

/-- An initial value as it is asked for. -/
inductive InitRequest where
  | absent
  /-- A number of a type, which may have no constants. -/
  | number (ty : Ty) (n : Int)
  | given (c : Constant)

/-- The initial value that is asked for, if there is one. -/
def InitRequest.constant? : InitRequest → Option Constant
  | .absent => none
  | .number ty n => Constant.ofInt? ty n
  | .given c => some c

inductive ModuleAction where
  | signature (s : Signature)
  | declare (name : String) (s : SigId) (linkage : Linkage)
  | global (name : String) (ty : Ty) (linkage : Linkage) (init : InitRequest)
  | data (contents : List UInt8)
  | findFunction (name : String)
  | findGlobal (name : String)
  | signatureOf (f : FuncId)
  | function (f : FuncId)
  | listing (f : FuncId)
  | check
  | body (f : FuncId) (actions : List BodyAction)

inductive ModuleAnswer where
  | signature (i : SigId)
  | declared (f : FuncId) (linkage : Linkage)
  | global (g : GlobalId)
  | error (e : Error)
  | data (d : DataId)
  | foundFunction (f : Option FuncId)
  | foundGlobal (g : Option GlobalId)
  | signatureOf (s : Signature)
  | function (f : Function)
  | text (text : String)
  | valid
  | body (answers : List BodyAnswer)
  | fault (f : Fault)

namespace ModuleAction

/-- The answer to a question, which leaves the module as it is. -/
def answer (m : Module) (x : Except Fault ModuleAnswer) : ModuleAnswer × Except Fault Module :=
  match x with
  | .ok a => (a, .ok m)
  | .error f => (.fault f, .error f)

/-- One action with its answer, and what comes of the module. -/
def run (a : ModuleAction) (m : Module) : ModuleAnswer × Except Fault Module :=
  match a with
  | .signature s =>
    let (i, m) := m.internSignature s
    (.signature i, .ok m)
  | .declare name s linkage =>
    let (i, m) := m.declareFunction name s linkage
    (.declared i linkage, .ok m)
  | .global name ty linkage init =>
    match m.addGlobal name ty linkage init.constant? with
    | .ok (i, m) => (.global i, .ok m)
    | .error e => (.error (.message e.message), .ok m)
  | .data contents =>
    let (i, m) := m.internData contents
    (.data i, .ok m)
  | .findFunction name => (.foundFunction (m.findFunction? name), .ok m)
  | .findGlobal name => (.foundGlobal (m.findGlobal? name), .ok m)
  | .signatureOf f => answer m do return .signatureOf (← m.signatureOf f)
  | .function f => answer m do return .function (← m.functions.get f)
  | .listing f => answer m do return .text (← (← m.functions.get f).listing)
  | .check =>
    match m.check with
    | .ok () => (.valid, .ok m)
    | .error (.error e) => (.error e, .ok m)
    | .error (.fault f) => (.fault f, .error f)
  | .body f actions =>
    match m.open f with
    | .error fault => (.body [.fault fault], .error fault)
    | .ok b =>
      let (answers, result) := BodyAction.runAll actions b
      (.body answers, result.map (·.close f))

/-- The answers to actions up to the first fault, and what comes of the module. -/
def runAll : List ModuleAction → Module → List ModuleAnswer × Except Fault Module
  | [], m => ([], .ok m)
  | a :: actions, m =>
    match a.run m with
    | (answer, .error f) => ([answer], .error f)
    | (answer, .ok m) =>
      let (answers, result) := runAll actions m
      (answer :: answers, result)

end ModuleAction

end SsaCompiler.Ir
