import SsaCompiler.Lang.Program.Reading

/-!
# Texts further down

A program that stands `n` lines further down in its file: `n` is added to every line it holds, and nothing
else changes.  What its tokens carry and what is read from them move alike, so each of the trees has the
same operation, `later n`, and moving by no lines changes nothing.
-/

namespace SsaCompiler.Lang

def Token.later (n : Nat) (t : Token) : Token :=
  { t with line := t.line + n }

@[simp] theorem Token.later_kind (n : Nat) (t : Token) : (t.later n).kind = t.kind := rfl
@[simp] theorem Token.later_lexeme (n : Nat) (t : Token) : (t.later n).lexeme = t.lexeme := rfl
@[simp] theorem Token.later_literalType (n : Nat) (t : Token) : (t.later n).literalType = t.literalType := rfl
@[simp] theorem Token.later_line (n : Nat) (t : Token) : (t.later n).line = t.line + n := rfl

theorem Token.later_zero (t : Token) : t.later 0 = t := rfl

/-! ## Expressions -/

mutual

def Expr.later (n : Nat) : Expr → Expr
  | .literal ty text => .literal ty text
  | .name text => .name text
  | .binary op lhs rhs => .binary op (lhs.later n) (rhs.later n)
  | .call callee args line => .call callee (Expr.laterAll n args) (line + n)

def Expr.laterAll (n : Nat) : List Expr → List Expr
  | [] => []
  | e :: es => e.later n :: Expr.laterAll n es

end

theorem Expr.laterAll_eq_map (n : Nat) (es : List Expr) : Expr.laterAll n es = es.map (·.later n) := by
  induction es with
  | nil => rfl
  | cons e es ih => rw [Expr.laterAll, ih, List.map_cons]

mutual

theorem Expr.later_zero : ∀ e : Expr, e.later 0 = e
  | .literal _ _ => rfl
  | .name _ => rfl
  | .binary op lhs rhs => by rw [Expr.later, lhs.later_zero, rhs.later_zero]
  | .call callee args line => by rw [Expr.later, Expr.laterAll_zero args, Nat.add_zero]

theorem Expr.laterAll_zero : ∀ es : List Expr, Expr.laterAll 0 es = es
  | [] => rfl
  | e :: es => by rw [Expr.laterAll, e.later_zero, Expr.laterAll_zero es]

end

def Call.later (n : Nat) (c : Call) : Call :=
  { c with args := c.args.map (·.later n), line := c.line + n }

theorem Call.later_toExpr (n : Nat) (c : Call) : (c.later n).toExpr = c.toExpr.later n := by
  rw [Call.toExpr, Call.toExpr, Expr.later, Expr.laterAll_eq_map]
  rfl

theorem Call.later_addArg (n : Nat) (c : Call) (e : Expr) : (c.addArg e).later n = (c.later n).addArg (e.later n) := by
  simp [Call.later, Call.addArg]

theorem Call.later_zero (c : Call) : c.later 0 = c := by
  simp [Call.later, funext Expr.later_zero]

/-! ## Statements and declarations -/

def Binding.later (n : Nat) (b : Binding) : Binding :=
  { b with init := b.init.later n, line := b.line + n }

theorem Binding.later_zero (b : Binding) : b.later 0 = b := by
  simp [Binding.later, Expr.later_zero]

mutual

def Stmt.later (n : Nat) : Stmt → Stmt
  | .bind b => .bind (b.later n)
  | .ret value line => .ret (value.later n) (line + n)
  | .call c => .call (c.later n)
  | .block body => .block (Stmt.laterAll n body)

def Stmt.laterAll (n : Nat) : List Stmt → List Stmt
  | [] => []
  | s :: ss => s.later n :: Stmt.laterAll n ss

end

theorem Stmt.laterAll_eq_map (n : Nat) (ss : List Stmt) : Stmt.laterAll n ss = ss.map (·.later n) := by
  induction ss with
  | nil => rfl
  | cons s ss ih => rw [Stmt.laterAll, ih, List.map_cons]

mutual

theorem Stmt.later_zero : ∀ s : Stmt, s.later 0 = s
  | .bind b => by rw [Stmt.later, b.later_zero]
  | .ret value line => by rw [Stmt.later, value.later_zero, Nat.add_zero]
  | .call c => by rw [Stmt.later, c.later_zero]
  | .block body => by rw [Stmt.later, Stmt.laterAll_zero body]

theorem Stmt.laterAll_zero : ∀ ss : List Stmt, Stmt.laterAll 0 ss = ss
  | [] => rfl
  | s :: ss => by rw [Stmt.laterAll, s.later_zero, Stmt.laterAll_zero ss]

end

def FunctionDecl.later (n : Nat) (f : FunctionDecl) : FunctionDecl :=
  { f with body := f.body.map (·.map (·.later n)), line := f.line + n }

theorem FunctionDecl.later_zero (f : FunctionDecl) : f.later 0 = f := by
  simp [FunctionDecl.later, funext Stmt.later_zero]

def Declaration.later (n : Nat) : Declaration → Declaration
  | .global b => .global (b.later n)
  | .function f => .function (f.later n)

theorem Declaration.later_zero (d : Declaration) : d.later 0 = d := by
  cases d with
  | global b => rw [Declaration.later, b.later_zero]
  | function f => rw [Declaration.later, f.later_zero]

/-- The program `n` lines further down. -/
def Program.later (n : Nat) (p : Program) : Program where
  globals := p.globals.map (·.later n)
  functions := p.functions.map (·.later n)

/-- The declarations of one program and then those of another. -/
def Program.append (p q : Program) : Program where
  globals := p.globals ++ q.globals
  functions := p.functions ++ q.functions

theorem Program.ofDeclarations_append (ds es : List Declaration) :
    Program.ofDeclarations (ds ++ es) = (Program.ofDeclarations ds).append (.ofDeclarations es) := by
  simp [Program.ofDeclarations, Program.append]

theorem Program.ofDeclarations_later (n : Nat) (ds : List Declaration) :
    Program.ofDeclarations (ds.map (·.later n)) = (Program.ofDeclarations ds).later n := by
  simp only [Program.ofDeclarations, Program.later, List.filterMap_map, List.map_filterMap, Program.mk.injEq]
  constructor
  · refine congrArg (ds.filterMap ·) (funext fun d => ?_)
    cases d <;> rfl
  · refine congrArg (ds.filterMap ·) (funext fun d => ?_)
    cases d <;> rfl

end SsaCompiler.Lang
