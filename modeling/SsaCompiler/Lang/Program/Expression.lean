import SsaCompiler.Lang.Program.Cursor

/-!
# Reading expressions

Expressions are read with two stacks, one of finished operands and one of operators and opening
parentheses that still wait for an operand to their right.  An operator that arrives first applies
those that bind at least as strongly; a closing parenthesis applies all down to its opening one.

A `Frame` holds the stacks of one expression and a `Context` what it stands in: a statement, which
ends it with a semicolon, or the arguments of a call, which end it with a comma or a closing
parenthesis.  An argument of a call inside an expression keeps the frame it interrupted, so reading
is one pass over the tokens:

    expression        the expression of a statement and its semicolon
    call name line    the arguments of a call after its opening parenthesis, and the closing one
-/

namespace SsaCompiler.Lang

/-- What waits for an operand to its right, with the line it is on. -/
inductive Pending where
  | paren (line : Nat)
  | op (op : BinaryOp) (line : Nat)

/-- The operator that a kind of token stands for. -/
def BinaryOp.ofToken? : TokenKind → Option BinaryOp
  | .plus => some .add
  | .minus => some .sub
  | .star => some .mul
  | .slash => some .div
  | .percent => some .rem
  | _ => none

/-- The type of a literal: the token's own, or that of its kind; none for what is no literal. -/
def Token.literal? (t : Token) : Option Expr :=
  let typed (ty : Prim) := some (.literal (t.literalType.getD ty) t.lexeme)
  match t.kind with
  | .intLiteral => typed (.int .signed .w32)
  | .floatLiteral => typed (.float .w64)
  | .stringLiteral => typed .str
  | _ => none

/-! ## One expression -/

/-- The state of an expression being read; both stacks have their top first. -/
structure Frame where
  operands : List Expr
  pending : List Pending
  /-- The number of parentheses that are open. -/
  openParens : Nat
  /-- The line of the first token. -/
  start : Nat

namespace Frame

def empty (start : Nat) : Frame :=
  { operands := [], pending := [], openParens := 0, start }

/-- A finished operand. -/
def operand (f : Frame) (e : Expr) : Frame :=
  { f with operands := e :: f.operands }

/-- An opening parenthesis. -/
def openParen (f : Frame) (line : Nat) : Frame :=
  { f with pending := .paren line :: f.pending, openParens := f.openParens + 1 }

/-- Applies an operator to the two topmost operands, the upper one being its right one. -/
def reduce (op : BinaryOp) (line : Nat) : List Expr → Except SyntaxError (List Expr)
  | rhs :: lhs :: rest => .ok (.binary op lhs rhs :: rest)
  | _ => .error ⟨.missingOperand op, line⟩

/-- Whether an operator on the stack is applied before one that arrives. -/
def appliesBefore (waiting arriving : BinaryOp) : Bool :=
  arriving.precedence < waiting.precedence ||
    (arriving.precedence = waiting.precedence && arriving.isLeftAssociative)

/-- Applies the operators that go before one that arrives, down to a parenthesis. -/
def reduceBefore (arriving : BinaryOp) :
    List Pending → List Expr → Except SyntaxError (List Pending × List Expr)
  | .op op line :: pending, operands =>
    if appliesBefore op arriving then do
      reduceBefore arriving pending (← reduce op line operands)
    else .ok (.op op line :: pending, operands)
  | pending, operands => .ok (pending, operands)

/-- Applies all operators down to the innermost open parenthesis and removes it. -/
def reduceToParen (line : Nat) :
    List Pending → List Expr → Except SyntaxError (List Pending × List Expr)
  | .paren _ :: pending, operands => .ok (pending, operands)
  | .op op opLine :: pending, operands => do
    reduceToParen line pending (← reduce op opLine operands)
  | [], _ => .error ⟨.unmatchedClose, line⟩

/-- Applies all operators; no parenthesis may be open. -/
def reduceAll : List Pending → List Expr → Except SyntaxError (List Expr)
  | .op op line :: pending, operands => do
    reduceAll pending (← reduce op line operands)
  | .paren line :: _, _ => .error ⟨.unmatchedOpen, line⟩
  | [], operands => .ok operands

/-- An operator. -/
def operator (f : Frame) (op : BinaryOp) (line : Nat) : Except SyntaxError Frame := do
  let (pending, operands) ← reduceBefore op f.pending f.operands
  pure { f with pending := .op op line :: pending, operands }

/-- A closing parenthesis. -/
def closeParen (f : Frame) (line : Nat) : Except SyntaxError Frame := do
  let (pending, operands) ← reduceToParen line f.pending f.operands
  pure { f with pending, operands, openParens := f.openParens - 1 }

/-- The end of the expression, which has to be one operand by then. -/
def finish (f : Frame) : Except SyntaxError Expr := do
  match ← reduceAll f.pending f.operands with
  | [e] => .ok e
  | [] => .error ⟨.noExpression, f.start⟩
  | _ => .error ⟨.mismatched, f.start⟩

end Frame

/-! ## Nested expressions -/

/-- What a run of the reader delivers. -/
inductive Goal where
  | expression | call

abbrev Goal.Result : Goal → Type
  | .expression => Expr
  | .call => Call

/-- What an expression stands in, with the arguments read so far. -/
inductive Context : Goal → Type where
  /-- A statement, which ends with a semicolon. -/
  | statement : Context .expression
  /-- The arguments of the call that the run is to deliver. -/
  | callGoal (site : Call) : Context .call
  /-- The arguments of a call that is an operand of an expression. -/
  | operand {g : Goal} (site : Call) (frame : Frame) (outer : Context g) : Context g

/-- A call with one more argument. -/
def Call.addArg (c : Call) (e : Expr) : Call :=
  { c with args := c.args ++ [e] }

/-- Where reading goes on after the closing parenthesis of a call. -/
inductive Closed (g : Goal) where
  /-- The call was the goal. -/
  | goal (result : g.Result)
  /-- The call is an operand of the expression it interrupted. -/
  | resume (frame : Frame) (context : Context g)

namespace Context

/-- What a semicolon makes of the finished expression; none where it ends no expression. -/
def semicolon? : {g : Goal} → Context g → Option (Expr → g.Result)
  | _, .statement => some id
  | _, _ => none

/-- The arguments that a comma goes on with after the finished expression. -/
def comma? {g : Goal} : Context g → Option (Expr → Context g)
  | .statement => none
  | .callGoal site => some fun e => .callGoal (site.addArg e)
  | .operand site frame outer => some fun e => .operand (site.addArg e) frame outer

/-- What a closing parenthesis makes of the finished expression. -/
def close? : {g : Goal} → Context g → Option (Expr → Closed g)
  | _, .statement => none
  | _, .callGoal site => some fun e => .goal (site.addArg e)
  | _, .operand site frame outer => some fun e => .resume (frame.operand (site.addArg e).toExpr) outer

/-- The place of the token that is missing where the input ends. -/
def closer {g : Goal} : Context g → Place
  | .statement => .exprEnd
  | _ => .argsClose

/-- Reads tokens into a frame in its context, up to the end of the goal.  `last` is the line of the
token read last. -/
def run {g : Goal} (endLine : Nat) (context : Context g) (frame : Frame) (last : Nat) :
    List Token → Except SyntaxError (g.Result × Cursor)
  | [] => do
    let _ ← frame.finish
    .error ⟨.missing context.closer "end of input", last⟩
  | t :: rest =>
    let line := t.line
    match t.literal?, BinaryOp.ofToken? t.kind, t.kind with
    | some e, _, _ => run endLine context (frame.operand e) line rest
    | _, some op, _ => do run endLine context (← frame.operator op line) line rest
    | _, _, .leftParen => run endLine context (frame.openParen line) line rest
    | _, _, .ident =>
      match rest with
      | [] => run endLine context (frame.operand (.name t.lexeme)) line []
      | p :: rest =>
        if p.kind = .leftParen then
          let site : Call := { callee := t.lexeme, args := [], line }
          match rest with
          | [] => run endLine (.operand site frame context) (.empty endLine) p.line []
          | q :: rest =>
            if q.kind = .rightParen then
              run endLine context (frame.operand site.toExpr) q.line rest
            else run endLine (.operand site frame context) (.empty q.line) p.line (q :: rest)
        else run endLine context (frame.operand (.name t.lexeme)) line (p :: rest)
    | _, _, .rightParen =>
      match if frame.openParens = 0 then context.close? else none with
      | some close => do
        match close (← frame.finish) with
        | .goal result => .ok (result, ⟨rest, line, endLine⟩)
        | .resume frame context => run endLine context frame line rest
      | none => do run endLine context (← frame.closeParen line) line rest
    | _, _, .comma =>
      match context.comma? with
      | some goOn => do
        let start := (rest.head?.map (·.line)).getD endLine
        run endLine (goOn (← frame.finish)) (.empty start) line rest
      | none => .error ⟨.strayToken t.describe, line⟩
    | _, _, .semicolon =>
      match context.semicolon? with
      | some result => do .ok (result (← frame.finish), ⟨rest, line, endLine⟩)
      | none => .error ⟨.strayToken t.describe, line⟩
    | _, _, _ => .error ⟨.strayToken t.describe, line⟩

end Context

namespace Reader

/-- The expression of a statement with its semicolon. -/
def expression : Reader Expr := fun c =>
  Context.run c.endLine .statement (.empty c.line) c.last c.rest

/-- The arguments of a call after its opening parenthesis, with the closing one. -/
def call (callee : String) (line : Nat) : Reader Call := fun c =>
  let site : Call := { callee, args := [], line }
  match c.skip? .rightParen with
  | some c => .ok (site, c)
  | none => Context.run c.endLine (.callGoal site) (.empty c.line) c.last c.rest

/-! ## Progress -/

theorem bind_eq_ok {ε α β : Type} {x : Except ε α} {f : α → Except ε β} {b : β} :
    (x >>= f) = .ok b ↔ ∃ a, x = .ok a ∧ f a = .ok b := by
  cases x <;> simp [Bind.bind, Except.bind]

/-- A run that succeeds has read at least one token. -/
theorem run_length_lt {g : Goal} {endLine last : Nat} {context : Context g} {frame : Frame}
    {tokens : List Token} {r : g.Result} {c : Cursor}
    (h : Context.run endLine context frame last tokens = .ok (r, c)) :
    c.rest.length < tokens.length := by
  fun_induction Context.run endLine context frame last tokens
  case case1 => simp [bind_eq_ok] at h
  case case10 ih =>
    obtain ⟨e, -, h⟩ := bind_eq_ok.mp h
    split at h
    · cases h
      simp
    · exact Nat.lt_succ_of_lt (ih _ _ h)
  all_goals
    try simp only [bind_eq_ok] at h
    grind

theorem reads_expression : Reads 1 expression :=
  fun _ _ _ h => run_length_lt h

theorem reads_call (callee : String) (line : Nat) : Reads 1 (call callee line) := by
  intro c site c' h
  unfold call Cursor.skip? at h
  split at h
  · rename_i hs
    split at hs
    · cases hs
    · rename_i hc
      split at hs <;> cases hs
      cases h
      simp [Cursor.after, hc]
  · exact run_length_lt h

end Reader

end SsaCompiler.Lang
