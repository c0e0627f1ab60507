import SsaCompiler.Lang.Program.Reading
import SsaCompiler.Proofs.Running

/-!
# Reading by position

Tokens can also be read by their places in the row.  A head stands before a token, looks at this one and the next
and goes on by one token, but not over an end mark.  Errors are placed by the token before the head.  Nothing in
this keeps the head in the row, and loops and recursions need not end:

    token row i        the token at an index; reading stops where there is none
    loop step n a      goes round until there is a result; reading stops after `n` rounds

The head notes every place it comes to, every index that is looked at, and where each round of a loop has begun and
ended.  The readers follow the grammar as those on cursors do, loop by loop: declarations, parameters, statements,
arguments and the tokens of an expression.  They read the first word of a declaration, a statement or a call without
a check where they have come to it by its kind.
-/

namespace SsaCompiler.Lang

/-- Why reading by position stops. -/
inductive Stop where
  | grammar (e : SyntaxError)
  /-- There is no token at an index. -/
  | outOfRange (index : Nat)
  /-- A loop has gone round, or a recursion has gone down, as often as it may. -/
  | exhausted

/-- The place of a head in a row of tokens, and what it has done. -/
structure Head where
  pos : Nat
  /-- The places it has come to. -/
  places : List Nat
  /-- The indices that were looked at. -/
  seen : List Nat
  /-- Where the rounds of loops began and ended, those after which a loop went on. -/
  rounds : List (Nat × Nat)

/-- Where reading begins. -/
def Head.start : Head :=
  { pos := 0, places := [], seen := [], rounds := [] }

/-- Reads by position. -/
abbrev Walk := ExceptT Stop (StateM Head)

namespace Walk

variable (row : List Token)

/-- The token at an index. -/
def token (index : Nat) : Walk Token := do
  modify fun h => { h with seen := index :: h.seen }
  match row[index]? with
  | some t => pure t
  | none => throw (.outOfRange index)

/-- The token some places after the head, or the last of the row. -/
def peek (n : Nat) : Walk Token := do
  token row (min ((← get).pos + n) (row.length - 1))

/-- The token that was read last. -/
def previous : Walk Token := do
  token row ((← get).pos - 1)

/-- Reads a token; the head stays where it is an end mark. -/
def advance : Walk Token := do
  let t ← peek row 0
  unless t.kind = .endMark do
    modify fun h => { h with pos := h.pos + 1, places := (h.pos + 1) :: h.places }
  return t

def check (kind : TokenKind) : Walk Bool := do
  return (← peek row 0).kind = kind

def skips (kind : TokenKind) : Walk Bool := do
  if ← check row kind then
    let _ ← advance row
    return true
  else return false

def fail {α : Type} (cause : SyntaxCause) (line : Nat) : Walk α :=
  throw (.grammar ⟨cause, line⟩)

def ofExcept {α : Type} : Except SyntaxError α → Walk α
  | .ok a => pure a
  | .error e => throw (.grammar e)

/-- The token that fills a place. -/
def expect (place : Place) : Walk Token := do
  if ← check row place.kind then advance row
  else
    let found ← peek row 0
    let line ← if found.kind = .endMark then do pure (← previous row).line else pure found.line
    fail (.missing place found.describe) line

/-- Goes round until there is a result, as often as it may. -/
def loop {α β : Type} (step : α → Walk (α ⊕ β)) : Nat → α → Walk β
  | 0, _ => throw .exhausted
  | n + 1, a => do
    let start := (← get).pos
    match ← step a with
    | .inr b => pure b
    | .inl a =>
      modify fun h => { h with rounds := (start, h.pos) :: h.rounds }
      loop step n a

/-! ## Types and parameters -/

def type : Walk Prim := do
  let t ← expect row .typeName
  match t.literalType with
  | none => fail (.notAType t.lexeme) t.line
  | some base =>
    if ← skips row .star then
      match base.pointerTo with
      | .invalid => fail (.noPointerTo base) t.line
      | pointer => pure pointer
    else pure base

/-- One more parameter. -/
def paramRound (ps : List Param) : Walk (List Param ⊕ List Param) := do
  if ← skips row .ellipsis then
    let _ ← expect row .paramsEnd
    return .inr (ps ++ [.dots])
  else
    let name ← expect row .paramName
    let _ ← expect row .paramColon
    let ty ← type row
    if ← skips row .comma then return .inl (ps ++ [.named name.lexeme ty])
    else
      let _ ← expect row .paramsClose
      return .inr (ps ++ [.named name.lexeme ty])

def params (n : Nat) : Walk (List Param) := do
  if ← skips row .rightParen then return [] else loop (paramRound row) n []

/-! ## Expressions -/

/-- Where an expression ends, the end of the input apart. -/
inductive Ending where
  | statement | argument
  deriving DecidableEq

/-- Whether an expression ends before a token. -/
def Ending.isAt (ending : Ending) (f : Frame) (kind : TokenKind) : Bool :=
  match ending with
  | .statement => kind = .semicolon
  | .argument => kind = .comma || (kind = .rightParen && f.openParens = 0)

/-- One more token of an expression, or one more call. -/
def exprRound (call : Walk Call) (ending : Ending) (f : Frame) : Walk (Frame ⊕ Frame) := do
  let t ← peek row 0
  if t.kind = .endMark || ending.isAt f t.kind then return .inr f
  match t.literal?, BinaryOp.ofToken? t.kind, t.kind with
  | some e, _, _ =>
    let _ ← advance row
    return .inl (f.operand e)
  | _, some op, _ =>
    let _ ← advance row
    return .inl (← ofExcept (f.operator op t.line))
  | _, _, .leftParen =>
    let _ ← advance row
    return .inl (f.openParen t.line)
  | _, _, .rightParen =>
    let _ ← advance row
    return .inl (← ofExcept (f.closeParen t.line))
  | _, _, .ident =>
    if (← peek row 1).kind = .leftParen then return .inl (f.operand (← call).toExpr)
    else
      let _ ← advance row
      return .inl (f.operand (.name t.lexeme))
  | _, _, _ => fail (.strayToken t.describe) t.line

/-- One more argument. -/
def argRound (argument : Walk Expr) (site : Call) : Walk (Call ⊕ Call) := do
  let site := site.addArg (← argument)
  if ← skips row .comma then return .inl site
  else
    let _ ← expect row .argsClose
    return .inr site

/-- A name and its arguments in parentheses. -/
def call (n : Nat) (argument : Walk Expr) : Walk Call := do
  let name ← advance row
  let _ ← advance row
  let site : Call := { callee := name.lexeme, args := [], line := name.line }
  if ← skips row .rightParen then return site else loop (argRound row argument) n site

/-- An expression, with the semicolon of a statement. -/
def expression : Nat → Ending → Walk Expr
  | 0, _ => throw .exhausted
  | n + 1, ending => do
    let t ← peek row 0
    let f ← loop (exprRound row (call row n (expression n .argument)) ending) (n + 1) (.empty t.line)
    let e ← ofExcept f.finish
    if ending = .statement then
      let _ ← expect row .exprEnd
      return e
    else return e

/-! ## Statements -/

def binding (n : Nat) : Walk Binding := do
  let word ← advance row
  let name ← expect row .boundName
  let _ ← expect row .boundColon
  let ty ← type row
  let _ ← expect row .boundEquals
  let init ← expression row n .statement
  return { name := name.lexeme, ty, init, line := word.line }

def statement (n : Nat) (compound : Walk (List Stmt)) : Walk Stmt := do
  let t ← peek row 0
  match t.kind with
  | .returnWord =>
    let _ ← advance row
    return .ret (← expression row n .statement) t.line
  | .letWord => return .bind (← binding row n)
  | .ident =>
    match (← peek row 1).kind with
    | .leftParen =>
      let site ← call row n (expression row n .argument)
      let _ ← expect row .callEnd
      return .call site
    | .equals => fail (.assignment t.lexeme) t.line
    | _ => fail (.strayStatement t.describe) t.line
  | .leftBrace => return .block (← compound)
  | _ => fail (.strayStatement t.describe) t.line

/-- One more statement of a block. -/
def statementRound (statement : Walk Stmt) (ss : List Stmt) : Walk (List Stmt ⊕ List Stmt) := do
  if ← check row .rightBrace then
    let _ ← advance row
    return .inr ss
  else if ← check row .endMark then fail .openBlock (← previous row).line
  else return .inl (ss ++ [← statement])

/-- A block with its braces. -/
def compound : Nat → Walk (List Stmt)
  | 0 => throw .exhausted
  | n + 1 => do
    let _ ← advance row
    loop (statementRound row (statement row n (compound n))) n []

/-! ## Declarations -/

def body (n : Nat) (name : String) : Walk (Option (List Stmt)) := do
  if ← skips row .semicolon then return none
  else if ← check row .leftBrace then return some (← compound row n)
  else
    let found ← peek row 0
    fail (.noBody name found.describe) found.line

def function (n : Nat) : Walk FunctionDecl := do
  let word ← advance row
  let external ← skips row .externWord
  let name ← expect row .functionName
  let _ ← expect row .paramsOpen
  let params ← params row n
  let _ ← expect row .returnArrow
  let ret ← type row
  let body ← body row n name.lexeme
  return { name := name.lexeme, external, params, ret, body, line := word.line }

/-- One more declaration. -/
def declarationRound (n : Nat) (ds : List Declaration) : Walk (List Declaration ⊕ List Declaration) := do
  let t ← peek row 0
  match t.kind with
  | .fnWord => return .inl (ds ++ [.function (← function row n)])
  | .letWord => return .inl (ds ++ [.global (← binding row n)])
  | .endMark => return .inr ds
  | _ => fail (.notADeclaration t.describe) t.line

/-- The program of the row. -/
def program (n : Nat) : Walk Program := do
  match row.getLast? with
  | some t =>
    if t.kind = .endMark then return .ofDeclarations (← loop (declarationRound row n) n [])
    else fail .noEndMark t.line
  | none => fail .noEndMark 0

end Walk

end SsaCompiler.Lang
