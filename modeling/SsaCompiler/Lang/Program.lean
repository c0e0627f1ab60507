import SsaCompiler.Lang.Prim

/-!
# Programs

The tree of a compilation unit.  A binding gives a name and a type to the value of an expression, at
the top level as a global and in a body as a local.  Literals keep the text they were written with,
and lines are kept where errors are placed: on bindings, functions, returns and calls.
-/

namespace SsaCompiler.Lang

inductive BinaryOp where
  | add | sub | mul | div | rem
  deriving DecidableEq

namespace BinaryOp

def all : List BinaryOp :=
  [.add, .sub, .mul, .div, .rem]

def text : BinaryOp → String
  | .add => "+"
  | .sub => "-"
  | .mul => "*"
  | .div => "/"
  | .rem => "%"

/-- How strongly an operator binds its operands. -/
def precedence : BinaryOp → Nat
  | .add | .sub => 12
  | .mul | .div | .rem => 13

/-- Whether equal operators in a row group from the left; all do. -/
def isLeftAssociative (_op : BinaryOp) : Bool :=
  true

end BinaryOp

inductive Expr where
  | literal (ty : Prim) (text : String)
  | name (name : String)
  | binary (op : BinaryOp) (lhs rhs : Expr)
  | call (callee : String) (args : List Expr) (line : Nat)

/-- A name and a type for the value of an expression. -/
structure Binding where
  name : String
  ty : Prim
  init : Expr
  line : Nat

/-- A call, as a statement or completed inside an expression. -/
structure Call where
  callee : String
  args : List Expr
  line : Nat

/-- The expression that is a call. -/
def Call.toExpr (c : Call) : Expr :=
  .call c.callee c.args c.line

inductive Stmt where
  | bind (binding : Binding)
  | ret (value : Expr) (line : Nat)
  | call (call : Call)
  | block (body : List Stmt)

/-- The line a statement is placed at; a block has none of its own. -/
def Stmt.line? : Stmt → Option Nat
  | .bind b => some b.line
  | .ret _ line => some line
  | .call c => some c.line
  | .block _ => none

/-- A parameter; a variadic one stands for any number of further arguments. -/
structure Param where
  name : String
  ty : Prim
  variadic : Bool

namespace Param

def named (name : String) (ty : Prim) : Param :=
  { name, ty, variadic := false }

/-- The parameter written as three dots. -/
def dots : Param :=
  { name := "", ty := .invalid, variadic := true }

end Param

/-- A function declaration; without a body it is a prototype. -/
structure FunctionDecl where
  name : String
  external : Bool
  params : List Param
  ret : Prim
  body : Option (List Stmt)
  line : Nat

namespace FunctionDecl

/-- Whether the function is visible outside its module: if it says so, and `main` always. -/
def isVisible (f : FunctionDecl) : Bool :=
  f.external || f.name = "main"

/-- Whether calls may have more arguments than there are fixed parameters: if the last parameter is
variadic. -/
def isVariadic (f : FunctionDecl) : Bool :=
  f.params.getLast?.any (·.variadic)

/-- The parameters with a name and a type, in order. -/
def fixedParams (f : FunctionDecl) : List Param :=
  f.params.filter (!·.variadic)

end FunctionDecl

structure Program where
  globals : List Binding
  functions : List FunctionDecl

end SsaCompiler.Lang
