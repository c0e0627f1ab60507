import SsaCompiler.Ir.Function
import SsaCompiler.Ir.Signature

/-!
# Modules

A module holds functions, signatures, globals and data objects.  Signatures and data are interned:
asking for an entry that is there gives its id, and only a new one is added.  A data object holds the
bytes it was asked for and a NUL after them, and is named for its place in the table.
-/

namespace SsaCompiler.Ir

structure Global where
  name : String
  ty : Ty
  linkage : Linkage
  init : Option Constant
  deriving DecidableEq

/-- Bytes that the program may read but not change. -/
structure DataObject where
  name : String
  bytes : List UInt8
  deriving DecidableEq

structure Module where
  name : String
  functions : Table .func Function
  signatures : Table .signature Signature
  globals : Table .global Global
  data : Table .data DataObject

namespace Module

/-- A module with nothing in it. -/
def empty (name : String) : Module :=
  { name, functions := .empty, signatures := .empty, globals := .empty, data := .empty }

/-! ## Looking up -/

/-- The first function with a name. -/
def findFunction? (m : Module) (name : String) : Option FuncId :=
  m.functions.findId? (·.name = name)

/-- The first global with a name. -/
def findGlobal? (m : Module) (name : String) : Option GlobalId :=
  m.globals.findId? (·.name = name)

/-- The signature of a function. -/
def signatureOf (m : Module) (f : FuncId) : Except Fault Signature := do
  m.signatures.get (← m.functions.get f).signature

/-! ## Adding -/

/-- The id of a signature, which is added if it is new. -/
def internSignature (m : Module) (s : Signature) : SigId × Module :=
  match m.signatures.findId? (· = s) with
  | some i => (i, m)
  | none => (m.signatures.next, { m with signatures := m.signatures.push s })

/-- The name of the data object that an id names. -/
def dataName (i : DataId) : String :=
  ".str." ++ toString i.index

/-- The id of the data object with some contents, which is added if it is new. -/
def internData (m : Module) (contents : List UInt8) : DataId × Module :=
  let bytes := contents ++ [0]
  match m.data.findId? (·.bytes = bytes) with
  | some i => (i, m)
  | none =>
    let i := m.data.next
    (i, { m with data := m.data.push { name := dataName i, bytes } })

/-- Adds a function without a body. -/
def declareFunction (m : Module) (name : String) (signature : SigId) (linkage : Linkage) :
    FuncId × Module :=
  (m.functions.next, { m with functions := m.functions.push (.declared name signature linkage) })

/-- Why a global cannot be added. -/
inductive GlobalError where
  | defined (name : String)
  | initType (name : String) (found expected : Ty)
  deriving DecidableEq

def GlobalError.message : GlobalError → String
  | .defined name => "global " ++ name ++ " is already defined"
  | .initType name found expected =>
    "initializer of global " ++ name ++ " has type " ++ found.text ++ ", expected " ++ expected.text

/-- Adds a global.  Its name has to be new, and an initial value of its type. -/
def addGlobal (m : Module) (name : String) (ty : Ty) (linkage : Linkage) (init : Option Constant) :
    Except GlobalError (GlobalId × Module) :=
  if (m.findGlobal? name).isSome then .error (.defined name)
  else
    match init.filter (·.ty ≠ ty) with
    | some c => .error (.initType name c.ty ty)
    | none => .ok (m.globals.next, { m with globals := m.globals.push { name, ty, linkage, init } })

end Module

end SsaCompiler.Ir
