import SsaCompiler.Proofs.Lang.WellFormed
import SsaCompiler.Proofs.Semantics.World

/-!
# Direct evaluation of bodies

Bodies are evaluated on the tree, from left to right.  A name is looked up among the variables first and
then among the globals, which are read at that moment.  Of the operands of an operator the one of lower
priority is converted to the type of the other; initial values and returned values are converted to
the declared type; arguments are passed as they are, but for `printf`.

    convert x ty           the value in another type, by the one operation between their representations
    unify x y              two operands brought to one type
    eval p env e w         the value of an expression, and the world after it
    run p ret env ss w     what the statements return, and the world after them

Evaluation ends with nothing where a program is not well formed.
-/

namespace SsaCompiler.Semantics

open Lang (Prim Sign BinaryOp Expr Stmt Param FunctionDecl Program passedAs)
open Ir (Ty Opcode)

variable {V σ : Type}

/-- A value of the language, with the type it has there. -/
structure Value (V : Type) where
  ty : Prim
  datum : Datum V

/-- The variables by name, the latest first. -/
abbrev Env (V : Type) := List (String × Value V)

/-! ## Operations -/

/-- The operation between two different representations; an integer is extended by its sign. -/
def conversion (signed : Bool) : Ty → Ty → Option Opcode
  | .int a, .int b => some (if b.bits < a.bits then .wrap else if signed then .extendS else .extendU)
  | .float _, .float .w64 => some .floatPromote
  | .float _, .float .w32 => some .floatDemote
  | .int _, .float _ => some .intToFloatS
  | .float _, .int _ => some .floatToIntS
  | .int _, .ptr => some .intToPtr
  | .ptr, .int _ => some .ptrToInt
  | _, _ => none

/-- The operation of an operator on a representation. -/
def arithmetic : BinaryOp → Ty → Option Opcode
  | .add, .int _ => some .iadd
  | .sub, .int _ => some .isub
  | .mul, .int _ => some .imul
  | .div, .int _ => some .idivS
  | .rem, .int _ => some .iremS
  | .add, .float _ => some .fadd
  | .sub, .float _ => some .fsub
  | .mul, .float _ => some .fmul
  | .div, .float _ => some .fdiv
  | _, _ => none

/-- A value converted to a type; nothing is done to it where the representation is the same. -/
def convert (I : Interpretation V) (x : Value V) (target : Prim) : Option (Value V) :=
  target.repr?.bind fun ty =>
    if x.datum.ty = ty then some ⟨target, x.datum⟩
    else (conversion x.ty.isSigned x.datum.ty ty).map fun op => ⟨target, ⟨ty, I.unary op x.datum ty⟩⟩

/-- Two operands brought to one type: the one of lower priority is converted, on a tie the left one. -/
def unify (I : Interpretation V) (x y : Value V) : Option (Value V × Value V) :=
  if y.ty.priority < x.ty.priority then (convert I y x.ty).map fun y => (x, y)
  else (convert I x y.ty).map fun x => (x, y)

/-- The value of a literal. -/
def literal (I : Interpretation V) (ty : Prim) (text : String) : Option (Value V) :=
  match ty with
  | .int sign width =>
    (Numeral.readSigned? 128 text).map fun n =>
      ⟨.int sign width, ⟨.int width, I.integer width (BitVec.ofInt width.bits n)⟩⟩
  | .float width =>
    (width.format.read? text).map fun bits =>
      ⟨.float width, ⟨.float width, I.floating width (BitVec.ofNat width.bits bits)⟩⟩
  | .str => some ⟨.str, ⟨.ptr, I.address (text.toUTF8.toList ++ [0])⟩⟩
  | _ => none

/-- A value of a type that is known by its declaration. -/
def declared (ty : Prim) (v : V) : Option (Value V) :=
  ty.repr?.map fun t => ⟨ty, ⟨t, v⟩⟩

/-! ## Expressions -/

section

variable (I : Interpretation V) (O : Oracle V σ) (p : Program)

mutual

/-- The value of an expression, and the world after it. -/
def eval (env : Env V) : Expr → World V σ → Option (Value V × World V σ)
  | .literal ty text, w => (literal I ty text).map fun x => (x, w)
  | .name n, w =>
    match env.lookup n with
    | some x => some (x, w)
    | none =>
      (p.globals.find? (·.name = n)).bind fun g =>
        (declared g.ty (O.global w.state n)).map fun x => (x, w)
  | .binary op lhs rhs, w =>
    (eval env lhs w).bind fun (x, w) =>
      (eval env rhs w).bind fun (y, w) =>
        (unify I x y).bind fun (x, y) =>
          (arithmetic op x.datum.ty).map fun opcode =>
            (⟨x.ty, ⟨x.datum.ty, I.binary opcode x.datum y.datum⟩⟩, w)
  | .call callee args _, w =>
    (p.functions.find? (·.name = callee)).bind fun f =>
      (evalArgs env callee args w).bind fun (xs, w) =>
        let (v, w) := w.ask O callee xs
        (declared f.ret v).map fun x => (x, w)

/-- The arguments of a call from left to right, and the world after them. -/
def evalArgs (env : Env V) (callee : String) : List Expr → World V σ → Option (List (Datum V) × World V σ)
  | [], w => some ([], w)
  | e :: es, w =>
    (eval env e w).bind fun (x, w) =>
      (convert I x (passedAs callee x.ty)).bind fun x =>
        (evalArgs env callee es w).map fun (xs, w) => (x.datum :: xs, w)

end

/-! ## Bodies -/

/-- What the statements of a function return, nothing for `void`, and the world after them. -/
def run (ret : Prim) : Env V → List Stmt → World V σ → Option (Option (Datum V) × World V σ)
  | _, [], w => some (none, w)
  | env, .bind b :: ss, w =>
    (eval I O p env b.init w).bind fun (x, w) =>
      (convert I x b.ty).bind fun x => run ret ((b.name, x) :: env) ss w
  | env, .ret e _ :: _, w =>
    (eval I O p env e w).bind fun (x, w) =>
      (convert I x ret).map fun x => (some x.datum, w)
  | env, .call c :: ss, w =>
    (evalArgs I O p env c.callee c.args w).bind fun (xs, w) =>
      run ret env ss (w.ask O c.callee xs).2
  | _, .block _ :: _, _ => none

/-- The parameters as variables. -/
def bindParams : Env V → List Param → List V → Option (Env V)
  | env, [], [] => some env
  | env, q :: qs, v :: vs => (declared q.ty v).bind fun x => bindParams ((q.name, x) :: env) qs vs
  | _, _, _ => none

/-- What the body of a declaration returns for some arguments, and the world after it. -/
def runBody (decl : FunctionDecl) (ss : List Stmt) (args : List V) (w : World V σ) :
    Option (Option (Datum V) × World V σ) :=
  (bindParams [] decl.fixedParams args).bind fun env => run I O p decl.ret env ss w

end

end SsaCompiler.Semantics
