import SsaCompiler.Lang.Program
import SsaCompiler.Ir.Id

/-!
# Declared names

What a body may refer to: the functions and globals declared so far, and the parameters and locals of
the body itself.  Each name of a kind is declared once, so the lists hold it at most once.
-/

namespace SsaCompiler.Lowering

open Lang (Prim FunctionDecl)
open Ir (FuncId GlobalId SlotId)

/-- What is known of a function from its declarations. -/
structure FunctionInfo where
  id : FuncId
  /-- The types of the fixed parameters. -/
  params : List Prim
  variadic : Bool
  ret : Prim
  /-- Whether the first declaration makes it visible outside the module. -/
  visible : Bool
  /-- Whether a declaration had a body. -/
  defined : Bool
  /-- The line of the first declaration. -/
  line : Nat

structure GlobalInfo where
  id : GlobalId
  ty : Prim

/-- The functions and globals by name, each in the order of declaration. -/
structure Declarations where
  functions : List (String × FunctionInfo)
  globals : List (String × GlobalInfo)

namespace Declarations

def empty : Declarations :=
  { functions := [], globals := [] }

def function? (d : Declarations) (name : String) : Option FunctionInfo :=
  d.functions.lookup name

def global? (d : Declarations) (name : String) : Option GlobalInfo :=
  d.globals.lookup name

def addFunction (d : Declarations) (name : String) (info : FunctionInfo) : Declarations :=
  { d with functions := d.functions ++ [(name, info)] }

def addGlobal (d : Declarations) (name : String) (info : GlobalInfo) : Declarations :=
  { d with globals := d.globals ++ [(name, info)] }

/-- Notes that a function has a body. -/
def markDefined (d : Declarations) (name : String) : Declarations :=
  { d with functions := d.functions.map fun (n, info) =>
      (n, if n = name then { info with defined := true } else info) }

end Declarations

/-- A parameter or local: the slot that holds its value. -/
structure Variable where
  slot : SlotId
  ty : Prim

/-- The parameters and locals by name, the latest first. -/
abbrev Scope := List (String × Variable)

end SsaCompiler.Lowering
