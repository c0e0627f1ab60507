import SsaCompiler.Lang.Program
import SsaCompiler.Numeral.Power
import SsaCompiler.Numeral.Reading

/-!
# Statically well-formed programs

Which programs can be compiled, said of the tree alone.  An expression has at most one type among
the names it may use (`Names.typeOf?`): the globals, the functions declared so far and the variables of
the body.  Types decide everything else:

    ty.isStorable            variables, globals and parameters may have the type
    a.convertsTo b           a value of type `a` can be converted to `b`
    a.sharesPattern b        a value of type `a` is passed for a parameter of type `b` as it is

`Program.WellFormed` asks each global to be a number initialized by an integer literal, each function
declaration to agree with the earlier ones of its name, and each body to end with its one return.
-/

namespace SsaCompiler.Lang

open Numeral (IntWidth twoTo readSigned?)

/-! ## Types -/

namespace Prim

/-- Whether variables and parameters may have the type: all but `void` and `invalid`. -/
def isStorable : Prim → Bool
  | .void => false
  | .invalid => false
  | _ => true

/-- Integers and floating-point numbers. -/
def isNumber (ty : Prim) : Bool :=
  ty.isInt || ty.isFloat

/-- Numbers convert to numbers, addresses to addresses, and integers and addresses to each other. -/
def convertsTo (source target : Prim) : Bool :=
  source = target || (source.isNumber && target.isNumber) || (source.isPointer && target.isPointer) ||
    (source.isInt && target.isPointer) || (source.isPointer && target.isInt)

/-- Integers of one width, numbers of one format, and all addresses share their patterns. -/
def sharesPattern : Prim → Prim → Bool
  | .int _ width, .int _ width' => width = width'
  | .float width, .float width' => width = width'
  | a, b => a.isPointer && b.isPointer

/-- The type that the operands of an operator are brought to: the one of higher priority, and on a tie
the right one. -/
def common (lhs rhs : Prim) : Prim :=
  if rhs.priority < lhs.priority then lhs else rhs

/-- Whether a number is written by an integer literal of a width: with or without a sign below 64 bits,
and as a signed 64-bit number from there on. -/
def holdsLiteral (width : IntWidth) (n : Int) : Bool :=
  if width.bits < 64 then -twoTo (width.bits - 1) ≤ n && n < twoTo width.bits
  else -twoTo 63 ≤ n && n < twoTo 63

/-- Whether a text is a literal of a type. -/
def isLiteral (ty : Prim) (text : String) : Bool :=
  match ty with
  | .int _ width => (readSigned? 128 text).any (holdsLiteral width)
  | .float width => (width.format.read? text).isSome
  | .str => true
  | _ => false

end Prim

/-- Whether an operator works on operands of a type: on integers, and but for the remainder on
floating-point numbers. -/
def BinaryOp.worksOn (op : BinaryOp) (ty : Prim) : Bool :=
  ty.isInt || (ty.isFloat && op ≠ .rem)

/-- The type of an operator on operands of two types. -/
def BinaryOp.typeOn? (op : BinaryOp) (lhs rhs : Prim) : Option Prim :=
  let ty := lhs.common rhs
  if lhs.convertsTo ty && rhs.convertsTo ty && op.worksOn ty then some ty else none

/-! ## Calls -/

/-- The type that an argument is passed at: `printf` takes single precision as double precision. -/
def passedAs (callee : String) (ty : Prim) : Prim :=
  if callee = "printf" && ty = .float .w32 then .float .w64 else ty

/-- Whether arguments fit fixed parameters, as far as both go. -/
def fitTypes (callee : String) (params args : List Prim) : Bool :=
  (params.zip args).all fun (param, arg) => param.sharesPattern (passedAs callee arg)

/-- Whether a number of arguments can be passed to fixed parameters. -/
def fitCount (variadic : Bool) (params args : Nat) : Bool :=
  if variadic then params ≤ args else args = params

namespace FunctionDecl

/-- The types of the fixed parameters. -/
def fixedTypes (f : FunctionDecl) : List Prim :=
  f.fixedParams.map (·.ty)

/-- Whether a call can pass arguments of some types. -/
def takes (f : FunctionDecl) (args : List Prim) : Bool :=
  fitCount f.isVariadic f.fixedTypes.length args.length && fitTypes f.name f.fixedTypes args

end FunctionDecl

/-! ## Expressions -/

/-- What an expression may refer to. -/
structure Names where
  globals : List Binding
  /-- The function declarations so far, the first of a name counting. -/
  functions : List FunctionDecl
  /-- The parameters and locals, the latest first. -/
  locals : List (String × Prim)

namespace Names

def global? (Γ : Names) (name : String) : Option Binding :=
  Γ.globals.find? (·.name = name)

def function? (Γ : Names) (name : String) : Option FunctionDecl :=
  Γ.functions.find? (·.name = name)

/-- The type of a name: of a parameter or local, or else of a global. -/
def typeOfName? (Γ : Names) (name : String) : Option Prim :=
  (Γ.locals.lookup name).or ((Γ.global? name).map (·.ty))

/-- The names with another local. -/
def bind (Γ : Names) (name : String) (ty : Prim) : Names :=
  { Γ with locals := (name, ty) :: Γ.locals }

mutual

/-- The type of an expression, if it is well formed. -/
def typeOf? (Γ : Names) : Expr → Option Prim
  | .literal ty text => if ty.isLiteral text then some ty else none
  | .name name => Γ.typeOfName? name
  | .binary op lhs rhs =>
    (typeOf? Γ lhs).bind fun a => (typeOf? Γ rhs).bind fun b => op.typeOn? a b
  | .call callee args _ =>
    (Γ.function? callee).bind fun f => (typesOf? Γ args).bind fun tys =>
      if f.takes tys && f.ret ≠ .void then some f.ret else none

/-- The types of some expressions, if they are all well formed. -/
def typesOf? (Γ : Names) : List Expr → Option (List Prim)
  | [] => some []
  | e :: es => (typeOf? Γ e).bind fun ty => (typesOf? Γ es).map (ty :: ·)

end

/-- Whether a call is well formed; as a statement it need not have a value. -/
def Allows (Γ : Names) (c : Call) : Prop :=
  ∃ f tys, Γ.function? c.callee = some f ∧ Γ.typesOf? c.args = some tys ∧ f.takes tys = true

/-- Whether the value of an expression can be converted to a type. -/
def Yields (Γ : Names) (e : Expr) (target : Prim) : Prop :=
  ∃ ty, Γ.typeOf? e = some ty ∧ ty.convertsTo target = true

end Names

/-! ## Bodies -/

/-- The statements of a function that returns a type.  Only the last is a return, and it may be missing
only where nothing is returned; no block stands among them. -/
inductive WellFormedBody (ret : Prim) : Names → List Stmt → Prop
  | nil {Γ : Names} (h : ret = .void) : WellFormedBody ret Γ []
  | ret {Γ : Names} {value : Expr} (line : Nat) (h : Γ.Yields value ret) :
      WellFormedBody ret Γ [.ret value line]
  | bind {Γ : Names} {b : Binding} {ss : List Stmt} (hnew : Γ.locals.lookup b.name = none)
      (hty : b.ty.isStorable = true) (hinit : Γ.Yields b.init b.ty)
      (hrest : WellFormedBody ret (Γ.bind b.name b.ty) ss) : WellFormedBody ret Γ (.bind b :: ss)
  | call {Γ : Names} {c : Call} {ss : List Stmt} (hc : Γ.Allows c) (hrest : WellFormedBody ret Γ ss) :
      WellFormedBody ret Γ (.call c :: ss)

/-! ## Declarations -/

namespace FunctionDecl

/-- The parameters of a function as variables, the latest first. -/
def firstLocals (f : FunctionDecl) : List (String × Prim) :=
  (f.fixedParams.map fun p => (p.name, p.ty)).reverse

/-- Whether two declarations take and return the same types. -/
def Agrees (f g : FunctionDecl) : Prop :=
  f.fixedTypes = g.fixedTypes ∧ f.ret = g.ret ∧ f.isVariadic = g.isVariadic

/-- A declaration that comes after others. -/
structure WellFormed (globals : List Binding) (earlier : List FunctionDecl) (f : FunctionDecl) : Prop where
  params : ∀ p ∈ f.fixedParams, p.ty.isStorable = true
  ret : f.ret ≠ .invalid
  agrees : ∀ g ∈ earlier, g.name = f.name → g.Agrees f
  /-- Only one declaration of a name has a body. -/
  single : f.body.isSome = true → ∀ g ∈ earlier, g.name = f.name → g.body = none
  names : f.body.isSome = true → (f.fixedParams.map (·.name)).Nodup
  body : ∀ ss, f.body = some ss →
    WellFormedBody f.ret { globals, functions := earlier ++ [f], locals := f.firstLocals } ss

end FunctionDecl

/-- A global: a number whose initial value is an integer literal. -/
structure Binding.WellFormedGlobal (b : Binding) : Prop where
  number : b.ty.isNumber = true
  literal : ∃ sign width text n, b.init = .literal (.int sign width) text ∧ readSigned? 128 text = some n

structure Program.WellFormed (p : Program) : Prop where
  names : (p.globals.map (·.name)).Nodup
  globals : ∀ b ∈ p.globals, b.WellFormedGlobal
  functions : ∀ earlier f later, p.functions = earlier ++ f :: later → f.WellFormed p.globals earlier

end SsaCompiler.Lang
