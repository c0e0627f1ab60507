import SsaCompiler.Lowering.Expression

/-!
# Lowering bodies

A body is lowered into the entry block of its function.  Every parameter is stored into a slot of its
own at the beginning, and every binding into a new one after its initial value has been computed, so a
binding does not see itself.  A return ends the block, and nothing may follow it; where it is missing,
only a function that returns `void` gets one.
-/

namespace SsaCompiler.Lowering

open Lang (Prim Param Binding Stmt FunctionDecl LoweringCause)

namespace Lower

/-- Names are bound once. -/
def requireNew (name : String) : Lower Unit := do
  if (← bound? name).isSome then fail (.redeclaration name)

/-- Stores the parameter at an index of the entry block into a slot. -/
def param (index : Nat) (p : Param) : Lower Unit := do
  requireNew p.name
  let ty ← representation p.ty
  let value ← build (.funcParam index)
  build (.setName value p.name)
  let slot ← build (.createSlot ty p.name)
  build (.stackStore value slot)
  bind p.name { slot, ty := p.ty }

/-- A binding. -/
def binding (d : Declarations) (b : Binding) : Lower Unit := do
  requireNew b.name
  if b.ty = .void then fail (.voidValue ("local '" ++ b.name ++ "'"))
  let ty ← representation b.ty
  let init ← expr d b.init
  atLine b.line
  let slot ← build (.createSlot ty b.name)
  let value ← coerce init b.ty
  build (.stackStore value.value slot)
  bind b.name { slot, ty := b.ty }

/-- A statement of a function that returns a type. -/
def stmt (d : Declarations) (ret : Prim) (s : Stmt) : Lower Unit := do
  s.line?.forM atLine
  match s with
  | .bind b => binding d b
  | .ret value line =>
    let value ← expr d value
    atLine line
    let value ← coerce value ret
    build (.ret (some value.value))
  | .call c =>
    let info ← beginCall d c.callee c.args.length c.line
    discard (endCall info (← arguments d c.callee c.line 0 info.params c.args))
  | .block _ => fail .nestedBlock

/-- Statements; none may follow a return. -/
def stmts (d : Declarations) (ret : Prim) (ss : List Stmt) : Lower Unit :=
  ss.forM fun s => do
    if ← build .isTerminated then
      s.line?.forM atLine
      fail .unreachableCode
    stmt d ret s

/-- The body of a function declaration. -/
def body (d : Declarations) (decl : FunctionDecl) (ss : List Stmt) : Lower Unit := do
  discard (build .initEntry)
  decl.fixedParams.zipIdx.forM fun (p, index) => param index p
  stmts d decl.ret ss
  if !(← build .isTerminated) then
    if decl.ret = .void then build (.ret none)
    else
      atLine decl.line
      fail (.missingReturn decl.name)

end Lower

end SsaCompiler.Lowering
