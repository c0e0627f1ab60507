import SsaCompiler.Ir.Module
import SsaCompiler.Text.Escape

/-!
# Listings

The text of a module: a header with its name, a line for each global and each data object, and the
functions with a blank line before each that is not the first thing listed.  A function is its linkage,
name and signature, and for one with a body its named slots, its blocks in the order they were entered
with their parameters, and a line for each instruction.

Inside a module, functions, globals, data objects and signatures are listed by what they are; a function
on its own lists their ids.  Listing something through an id that names nothing is a fault.
-/

namespace SsaCompiler.Ir

/-- Texts separated by commas. -/
def commaSeparated (texts : List String) : String :=
  ", ".intercalate texts

namespace Function

/-- A value by its number, with its name in front if it has one. -/
def valueText (f : Function) (v : ValueId) : String :=
  match f.valueName? v with
  | some name => name ++ "(" ++ v.text ++ ")"
  | none => v.text

/-- How a function speaks of what lies outside it. -/
structure Names where
  signature : SigId → Except Fault String
  func : FuncId → Except Fault String
  global : GlobalId → Except Fault String
  data : DataId → Except Fault String

/-- By id. -/
def Names.ids : Names where
  signature i := .ok ("(" ++ i.text ++ ")")
  func i := .ok i.text
  global i := .ok i.text
  data i := .ok i.text

/-- By what the ids name in a module. -/
def Names.inModule (m : Module) : Names where
  signature i := return (← m.signatures.get i).text
  func i := return (← m.functions.get i).name
  global i := return (← m.globals.get i).name
  data i := return (← m.data.get i).name

/-- An instruction without its result, of which `ty` is the type. -/
def instText (f : Function) (names : Names) (ty : Ty) : Inst → Except Fault String
  | .unary op arg => return op.text ++ "." ++ ty.text ++ " " ++ f.valueText arg
  | .binary op lhs rhs => return op.text ++ " " ++ commaSeparated [f.valueText lhs, f.valueText rhs]
  | .iconst bits => return "iconst." ++ ty.text ++ " " ++ toString bits.toInt
  | .fconst bits =>
    let width : Numeral.FloatWidth := if ty = .float .w32 then .w32 else .w64
    return "fconst." ++ (Ty.float width).text ++ " " ++ width.text bits.toNat
  | .stackLoad slot => return "stack_load." ++ (← f.slots.get slot).ty.text ++ " " ++ slot.text
  | .stackStore value slot => return "stack_store " ++ commaSeparated [f.valueText value, slot.text]
  | .globalLoad global => return "global_load " ++ (← names.global global)
  | .dataAddr data => return "data_addr " ++ (← names.data data)
  | .call callee args =>
    return "call " ++ (← names.func callee) ++ "(" ++ commaSeparated (args.map f.valueText) ++ ")"
  | .ret (some value) => return "ret " ++ f.valueText value
  | .ret none => return "ret"

/-- The line of an instruction. -/
def instLine (f : Function) (names : Names) (i : InstId) : Except Fault String := do
  let data ← f.insts.get i
  let ty ← f.resultType i
  let result := (data.result.map fun v => f.valueText v ++ " = ").getD ""
  return "  " ++ result ++ (← f.instText names ty data.inst) ++ "\n"

/-- A parameter of a block with its type. -/
def paramText (f : Function) (v : ValueId) : Except Fault String :=
  return f.valueText v ++ ": " ++ (← f.valueType v).text

/-- The lines of a block. -/
def blockLines (f : Function) (names : Names) (b : BlockId) : Except Fault String := do
  let data ← f.blocks.get b
  let params ← data.params.toList.mapM f.paramText
  let insts ← data.insts.toList.mapM (f.instLine names)
  return b.text ++ "(" ++ commaSeparated params ++ "):\n" ++ String.join insts

/-- The line of a stack slot. -/
def slotLine (slot : SlotId × SlotData) : String :=
  let name := if slot.2.name = "" then "" else " ; " ++ slot.2.name
  "  " ++ slot.1.text ++ ": " ++ slot.2.ty.text ++ name ++ "\n"

/-- The lines of a function. -/
def lines (f : Function) (names : Names) : Except Fault String := do
  let head := f.linkage.text ++ " function " ++ f.name ++ (← names.signature f.signature)
  if f.isDefined then
    let slots := String.join (f.slots.named.map slotLine)
    let blocks ← f.order.toList.mapM (f.blockLines names)
    return head ++ " \x7b\n" ++ slots ++ String.join blocks ++ "\x7d\n"
  else return head ++ "\n"

/-- A function on its own. -/
def listing (f : Function) : Except Fault String :=
  f.lines .ids

end Function

/-- The line of a global. -/
def Global.line (g : Global) : String :=
  let init := (g.init.map fun c => " = " ++ c.text).getD ""
  "global " ++ g.name ++ ": " ++ g.ty.text ++ init ++ " (" ++ g.linkage.text ++ ")\n"

/-- The line of a data object. -/
def DataObject.line (d : DataObject) : String :=
  "data " ++ d.name ++ " = " ++ Text.quoteBytes d.bytes ++ "\n"

/-- The text of a module. -/
def Module.listing (m : Module) : Except Fault String := do
  let header := if m.name = "" then "" else "; module " ++ m.name ++ "\n\n"
  let globals := m.globals.toList.map Global.line
  let data := m.data.toList.map DataObject.line
  let functions ← m.functions.toList.mapM (·.lines (.inModule m))
  let gap := if m.globals.isEmpty && m.data.isEmpty then "" else "\n"
  let body := if functions = [] then "" else gap ++ "\n".intercalate functions
  return header ++ String.join globals ++ String.join data ++ body

end SsaCompiler.Ir
