import SsaCompiler.Proofs.Lang.Later
import SsaCompiler.Proofs.Text.Pieces

/-!
# Trees as they are spelled

What the trees of a program that was read have from its spelling: names are words, and the text of a
floating-point literal begins with a digit.
-/

namespace SsaCompiler.Lang

/-- The text of a literal of a type. -/
def IsLiteral (ty : Prim) (text : String) : Prop :=
  ∀ width, ty = .float width → ∃ c cs, text.toList = c :: cs ∧ c.isDigit = true

inductive Expr.Spelled : Expr → Prop
  | literal {ty : Prim} {text : String} (h : IsLiteral ty text) : Spelled (.literal ty text)
  | name (name : String) : Spelled (.name name)
  | binary (op : BinaryOp) {lhs rhs : Expr} (hl : lhs.Spelled) (hr : rhs.Spelled) : Spelled (.binary op lhs rhs)
  | call (callee : String) {args : List Expr} (line : Nat) (h : ∀ e ∈ args, e.Spelled) : Spelled (.call callee args line)

structure Binding.Spelled (b : Binding) : Prop where
  name : Text.IsWord b.name
  init : b.init.Spelled

def Call.Spelled (c : Call) : Prop :=
  ∀ e ∈ c.args, e.Spelled

inductive Stmt.Spelled : Stmt → Prop
  | bind {b : Binding} (h : b.Spelled) : Spelled (.bind b)
  | ret {value : Expr} (line : Nat) (h : value.Spelled) : Spelled (.ret value line)
  | call {c : Call} (h : c.Spelled) : Spelled (.call c)
  | block {body : List Stmt} (h : ∀ s ∈ body, s.Spelled) : Spelled (.block body)

structure FunctionDecl.Spelled (f : FunctionDecl) : Prop where
  name : Text.IsWord f.name
  params : ∀ p ∈ f.fixedParams, Text.IsWord p.name
  body : ∀ ss, f.body = some ss → ∀ s ∈ ss, s.Spelled

structure Program.Spelled (p : Program) : Prop where
  globals : ∀ b ∈ p.globals, b.Spelled
  functions : ∀ f ∈ p.functions, f.Spelled

end SsaCompiler.Lang
