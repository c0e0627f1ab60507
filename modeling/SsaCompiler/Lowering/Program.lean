import SsaCompiler.Lowering.Statement
import SsaCompiler.Ir.Typing
import SsaCompiler.Journal

/-!
# Lowering programs

Globals are lowered first and then functions, each in the order of the program, so a body sees every
global and the functions declared by then.  The first declaration of a function adds it to the module;
later ones have to agree with it, and at most one has a body.

    linkage        visible with a body: exported; visible without: imported; otherwise internal,
                   and an imported function that gets a body is exported from then on

A function that is neither visible nor ever defined is warned about.  At the end the module may be
checked against the typing rules.  `lower` gives the module, and the journal holds what was reported
also where lowering fails; the error itself is not among it.
-/

namespace SsaCompiler.Lowering

open Lang (Prim Binding Stmt FunctionDecl Program LoweringCause LoweringError)
open Ir (Module Failure FuncId Linkage Constant)

structure ProgramState where
  module : Module
  decls : Declarations
  journal : Journal

/-- Lowers a part of a program; an error or a fault leaves the state that was reached. -/
abbrev LowerProgram := ExceptT (Failure LoweringError) (StateM ProgramState)

namespace LowerProgram

def fail {α : Type} (cause : LoweringCause) (line : Nat) : LowerProgram α :=
  throw (.error ⟨cause, line⟩)

/-- A computation on the tables, where a fault ends the lowering. -/
def ofFault {α : Type} (x : Except Ir.Fault α) : LowerProgram α :=
  match x with
  | .ok a => pure a
  | .error f => throw (.fault f)

def report (e : Event) : LowerProgram Unit :=
  modify fun s => { s with journal := s.journal.push e }

def log (level : Level) (text : String) : LowerProgram Unit :=
  report (.record { level, text })

/-- The type that holds the values of a type, of a declaration at a line. -/
def representation (ty : Prim) (line : Nat) : LowerProgram Ir.Ty :=
  match ty.repr? with
  | some ty => pure ty
  | none => fail (.unmappedType ty) line

/-! ## Globals -/

/-- The number that a global starts with, which has to be an integer literal. -/
def initialNumber (b : Binding) : LowerProgram Int :=
  match b.init with
  | .literal (.int sign width) text =>
    match Numeral.readSigned? 128 text with
    | some n => pure n
    | none => fail (.invalidLiteral (.int sign width) text) b.line
  | _ => fail (.unsupportedGlobalInitializer b.name) b.line

/-- A global. -/
def global (b : Binding) : LowerProgram Unit := do
  if ((← get).decls.global? b.name).isSome then fail (.redeclaration b.name) b.line
  if b.ty = .void then fail (.voidValue ("global '" ++ b.name ++ "'")) b.line
  let ty ← representation b.ty b.line
  let n ← initialNumber b
  match Constant.ofInt? ty n with
  | none => fail (.unsupportedGlobalInitializer b.name) b.line
  | some init =>
    match (← get).module.addGlobal b.name ty .exported (some init) with
    | .error e => fail (.invalidIr e.message) b.line
    | .ok (id, module) =>
      modify fun s => { s with module, decls := s.decls.addGlobal b.name { id, ty := b.ty } }
      log .trace ("global " ++ b.name ++ ": " ++ b.ty.text ++ " = " ++ init.text)

/-! ## Functions -/

/-- The types that hold the fixed parameters of a declaration, none of them `void`. -/
def paramTypes (decl : FunctionDecl) : LowerProgram (List Ir.Ty) :=
  decl.fixedParams.mapM fun p => do
    if p.ty = .void then fail (.voidValue ("parameter '" ++ p.name ++ "'")) decl.line
    representation p.ty decl.line

/-- The linkage that the first declaration of a function gives it. -/
def firstLinkage (decl : FunctionDecl) : Linkage :=
  if decl.isVisible then
    if decl.body.isSome then .exported else .imported
  else .internal

/-- The linkage of a function after a further declaration. -/
def laterLinkage (linkage : Linkage) (hasBody : Bool) : Linkage :=
  if hasBody && linkage = .imported then .exported else linkage

/-- Whether a declaration agrees with what is known of a function. -/
def agrees (info : FunctionInfo) (decl : FunctionDecl) : Bool :=
  info.params = decl.fixedParams.map (·.ty) && info.ret = decl.ret && info.variadic = decl.isVariadic

/-- A further declaration of a function. -/
def redeclare (info : FunctionInfo) (decl : FunctionDecl) : LowerProgram FuncId := do
  if !agrees info decl then fail (.conflictingDeclaration decl.name) decl.line
  if info.defined && decl.body.isSome then fail (.redefinition decl.name) decl.line
  let functions ← ofFault <| (← get).module.functions.modify info.id fun f =>
    { f with linkage := laterLinkage f.linkage decl.body.isSome }
  modify fun s => { s with module := { s.module with functions } }
  pure info.id

/-- The first declaration of a function. -/
def declareNew (decl : FunctionDecl) (params : List Ir.Ty) (ret : Ir.Ty) : LowerProgram FuncId :=
  modifyGet fun s =>
    let variadic := decl.isVariadic
    let (signature, module) := s.module.internSignature { params, ret, variadic, callConv := .systemV }
    let (id, module) := module.declareFunction decl.name signature (firstLinkage decl)
    let info : FunctionInfo :=
      { id, params := decl.fixedParams.map (·.ty), variadic, ret := decl.ret, visible := decl.isVisible
        defined := false, line := decl.line }
    (id, { s with module, decls := s.decls.addFunction decl.name info })

/-- A declaration of a function. -/
def declare (decl : FunctionDecl) : LowerProgram FuncId := do
  let params ← paramTypes decl
  let ret ← representation decl.ret decl.line
  match (← get).decls.function? decl.name with
  | some info => redeclare info decl
  | none => declareNew decl params ret

/-- The body of a declared function. -/
def body (id : FuncId) (decl : FunctionDecl) (ss : List Stmt) : LowerProgram Unit := do
  modify fun s => { s with decls := s.decls.markDefined decl.name }
  log .debug ("lowering function " ++ decl.name)
  let s ← get
  let start : BodyState := { body := ← ofFault (s.module.open id), scope := [], line := decl.line }
  match ExceptT.run (Lower.body s.decls decl ss) start with
  | (.ok (), done) => modify fun s => { s with module := done.body.close id }
  | (.error e, _) => throw e

/-- A function declaration with its body, if it has one. -/
def function (decl : FunctionDecl) : LowerProgram Unit := do
  let id ← declare decl
  decl.body.forM fun ss => body id decl ss

/-! ## Whole programs -/

/-- The functions to warn about in the order of their first declarations. -/
def undefinedFunctions (d : Declarations) : List (String × FunctionInfo) :=
  d.functions.filter fun (_, info) => !info.defined && !info.visible

def warnUndefined : LowerProgram Unit := do
  (undefinedFunctions (← get).decls).forM fun (name, info) =>
    report (.diagnostic
      { severity := .warning
        message := "function '" ++ name ++ "' is declared but never defined"
        line := info.line })

/-- A broken typing rule as an error, at the first declaration of the function it is broken in. -/
def violationError (d : Declarations) (e : Ir.Error) : LoweringError :=
  let line :=
    match e with
    | .inFunction name _ => ((d.function? name).map (·.line)).getD 0
    | _ => 0
  { cause := .invalidIr e.text, line }

/-- Checks the module against the typing rules. -/
def check : LowerProgram Unit := do
  let s ← get
  match s.module.check with
  | .ok () => pure ()
  | .error (.error e) => throw (.error (violationError s.decls e))
  | .error (.fault f) => throw (.fault f)

/-- A program. -/
def program (p : Program) (validate : Bool) : LowerProgram Module := do
  p.globals.forM global
  p.functions.forM function
  warnUndefined
  if validate then check
  let s ← get
  log .debug ("lowered " ++ toString s.decls.globals.length ++ " globals and " ++
    toString s.decls.functions.length ++ " functions")
  pure s.module

end LowerProgram

/-- The module of a program, with the journal that goes on from a given one. -/
def lower (p : Program) (moduleName : String) (validate : Bool) (journal : Journal) :
    Except (Failure LoweringError) Module × Journal :=
  let start : ProgramState := { module := .empty moduleName, decls := .empty, journal }
  let (result, s) := ExceptT.run (LowerProgram.program p validate) start
  (result, s.journal)

end SsaCompiler.Lowering
