import SsaCompiler.Lang.Program
import SsaCompiler.Text.Escape
import SsaCompiler.Text.Lines

/-!
# Outlines

The tree of a program set out with one field or item to a line.  A record is its name and its fields
in braces, a choice its name and what it holds in parentheses, and a row its items in brackets.
-/

namespace SsaCompiler.Lang

open Text (Lines listings)

namespace Outline

def leaf (text : String) : Lines :=
  [text]

/-- A text in quotes. -/
def quoted (text : String) : Lines :=
  [String.ofList (listings.quote text.toList)]

def number (n : Nat) : Lines :=
  [toString n]

def truth (b : Bool) : Lines :=
  [if b then "true" else "false"]

def record (name : String) (fields : List (String × Lines)) : Lines :=
  Lines.group (name ++ " \x7b") "\x7d" (fields.map fun (field, ls) => ls.label (field ++ ": "))

def choice (name : String) (content : Lines) : Lines :=
  Lines.group (name ++ "(") ")" [content]

def row (items : List Lines) : Lines :=
  Lines.group "[" "]" items

/-- The name of a type that is not a pointer. -/
def scalarName : Prim → String
  | .void => "Void"
  | .int .signed width => "I" ++ toString width.bits
  | .int .unsigned width => "U" ++ toString width.bits
  | .float width => "F" ++ toString width.bits
  | .str => "Str"
  | _ => "Invalid"

/-- The name of a type. -/
def typeName : Prim → String
  | .pointer target => scalarName (.ofPointee target) ++ "Ptr"
  | ty => scalarName ty

def operatorName : BinaryOp → String
  | .add => "Add"
  | .sub => "Sub"
  | .mul => "Mul"
  | .div => "Div"
  | .rem => "Mod"

/-- A call with its arguments set out. -/
def call (callee : String) (args : List Lines) (line : Nat) : Lines :=
  record "Call" [("callee", quoted callee), ("args", row args), ("line", number line)]

mutual

def expr : Expr → Lines
  | .literal ty text =>
    choice "Literal" (record "Literal" [("ty", leaf (typeName ty)), ("text", quoted text)])
  | .name name => choice "Identifier" (record "Identifier" [("name", quoted name)])
  | .binary op lhs rhs =>
    choice "BinaryOp"
      (record "BinaryOp" [("op", leaf (operatorName op)), ("lhs", expr lhs), ("rhs", expr rhs)])
  | .call callee args line => choice "Call" (call callee (exprs args) line)

def exprs : List Expr → List Lines
  | [] => []
  | e :: es => expr e :: exprs es

end

def binding (name : String) (b : Binding) : Lines :=
  record name
    [("name", quoted b.name), ("ty", leaf (typeName b.ty)), ("initializer", expr b.init),
     ("line", number b.line)]

mutual

def stmt : Stmt → Lines
  | .bind b => choice "LocalDecl" (binding "LocalDecl" b)
  | .ret value line =>
    choice "Return" (record "ReturnStmt" [("value", expr value), ("line", number line)])
  | .call c => choice "Call" (call c.callee (exprs c.args) c.line)
  | .block body => choice "Compound" (record "CompoundStmt" [("stmts", row (stmts body))])

def stmts : List Stmt → List Lines
  | [] => []
  | s :: ss => stmt s :: stmts ss

end

def param (p : Param) : Lines :=
  record "ParamDecl"
    [("name", quoted p.name), ("ty", leaf (typeName p.ty)), ("is_variadic", truth p.variadic)]

def body : Option (List Stmt) → Lines
  | none => leaf "None"
  | some ss => choice "Some" (record "CompoundStmt" [("stmts", row (stmts ss))])

def function (f : FunctionDecl) : Lines :=
  record "FunctionDecl"
    [("name", quoted f.name), ("is_external", truth f.external), ("params", row (f.params.map param)),
     ("return_type", leaf (typeName f.ret)), ("body", body f.body), ("line", number f.line)]

end Outline

/-- The outline of a program. -/
def Program.outline (p : Program) : String :=
  Lines.text <| Outline.record "Program"
    [("globals", Outline.row (p.globals.map (Outline.binding "GlobalDecl"))),
     ("functions", Outline.row (p.functions.map Outline.function))]

end SsaCompiler.Lang
