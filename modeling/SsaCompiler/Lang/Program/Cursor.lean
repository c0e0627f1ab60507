import SsaCompiler.Lang.Token
import SsaCompiler.Lang.Program

/-!
# A place in a row of tokens

A `Cursor` stands before the tokens that are left, the end mark not among them, and remembers the line
of the token read last.  A `Reader` reads from a cursor and gives a result with the place it has
reached, or the first syntax error.  Errors about a missing token are placed at the token found
instead, or at the end of the input on the line of the token read last.

    Reads n r      a reader that succeeds has read at least `n` tokens
-/

namespace SsaCompiler.Lang

/-- A place in a program that one kind of token has to fill. -/
inductive Place where
  | functionName | paramsOpen | paramsEnd | paramName | paramColon | paramsClose
  | returnArrow | typeName
  | boundName | boundColon | boundEquals
  | exprEnd | argsClose | callEnd
  deriving DecidableEq

namespace Place

/-- The kind of token that fills a place. -/
def kind : Place → TokenKind
  | .functionName => .ident
  | .paramsOpen => .leftParen
  | .paramsEnd => .rightParen
  | .paramName => .ident
  | .paramColon => .colon
  | .paramsClose => .rightParen
  | .returnArrow => .arrow
  | .typeName => .typeName
  | .boundName => .ident
  | .boundColon => .colon
  | .boundEquals => .equals
  | .exprEnd => .semicolon
  | .argsClose => .rightParen
  | .callEnd => .semicolon

/-- How messages speak of a place. -/
def text : Place → String
  | .functionName => "as the function name"
  | .paramsOpen => "after the function name"
  | .paramsEnd => "after '...', which must be the last parameter"
  | .paramName => "as a parameter name"
  | .paramColon => "after the parameter name"
  | .paramsClose => "to close the parameter list"
  | .returnArrow => "before the return type"
  | .typeName => "as a type"
  | .boundName => "as the declared name"
  | .boundColon => "after the declared name"
  | .boundEquals => "before the initializer"
  | .exprEnd => "after the expression"
  | .argsClose => "after the call arguments"
  | .callEnd => "after the call"

end Place

/-- Why a row of tokens is no program; what was found is described in words. -/
inductive SyntaxCause where
  | noEndMark
  | notADeclaration (found : String)
  | missing (place : Place) (found : String)
  | noBody (name : String) (found : String)
  | notAType (lexeme : String)
  | noPointerTo (ty : Prim)
  | openBlock
  | assignment (name : String)
  | strayStatement (found : String)
  | strayToken (found : String)
  | unmatchedClose
  | unmatchedOpen
  | missingOperand (op : BinaryOp)
  | noExpression
  | mismatched
  deriving DecidableEq

def SyntaxCause.message : SyntaxCause → String
  | .noEndMark => "token stream does not end with an end marker"
  | .notADeclaration found => "expected a declaration, found " ++ found
  | .missing place found => "expected " ++ place.kind.text ++ " " ++ place.text ++ ", found " ++ found
  | .noBody name found => "expected ';' or a body after the signature of '" ++ name ++ "', found " ++ found
  | .notAType lexeme => "'" ++ lexeme ++ "' does not name a type"
  | .noPointerTo ty => "pointer to invalid type " ++ ty.text
  | .openBlock => "unterminated block, expected '\x7d'"
  | .assignment name => "assignment to '" ++ name ++ "' is not implemented"
  | .strayStatement found => "unexpected statement starting with " ++ found
  | .strayToken found => "unexpected " ++ found ++ " in expression"
  | .unmatchedClose => "unmatched parenthesis ')'"
  | .unmatchedOpen => "unmatched parenthesis '('"
  | .missingOperand op => "insufficient operands for '" ++ op.text ++ "'"
  | .noExpression => "expected an expression"
  | .mismatched => "mismatched operands and operators"

structure SyntaxError where
  cause : SyntaxCause
  line : Nat
  deriving DecidableEq

/-- The tokens left before the end mark, the line of the token read last and that of the end mark. -/
structure Cursor where
  rest : List Token
  last : Nat
  endLine : Nat

namespace Cursor

/-- The beginning of a row of tokens.  The last has to be an end mark; nothing after the first end
mark is looked at. -/
def ofTokens (tokens : List Token) : Except SyntaxError Cursor :=
  match tokens.getLast? with
  | none => .error ⟨.noEndMark, 0⟩
  | some t =>
    if t.kind = .endMark then
      let isEnd (t : Token) : Bool := t.kind = .endMark
      .ok { rest := tokens.takeWhile (!isEnd ·)
            last := (tokens.head?.map (·.line)).getD 0
            endLine := ((tokens.find? isEnd).map (·.line)).getD 0 }
    else .error ⟨.noEndMark, t.line⟩

/-- The line of the next token or of the end mark. -/
def line (c : Cursor) : Nat :=
  match c.rest with
  | [] => c.endLine
  | t :: _ => t.line

/-- The next token in the words of a message. -/
def describe (c : Cursor) : String :=
  match c.rest with
  | [] => "end of input"
  | t :: _ => t.describe

/-- The place after a token. -/
def after (c : Cursor) (t : Token) (rest : List Token) : Cursor :=
  { c with rest, last := t.line }

/-- The place after the next token, if it is of a kind. -/
def skip? (kind : TokenKind) (c : Cursor) : Option Cursor :=
  match c.rest with
  | [] => none
  | t :: rest => if t.kind = kind then some (c.after t rest) else none

end Cursor

/-- Reads from a place; a failure is the first syntax error. -/
abbrev Reader := StateT Cursor (Except SyntaxError)

namespace Reader

def fail {α : Type} (cause : SyntaxCause) (line : Nat) : Reader α :=
  fun _ => .error ⟨cause, line⟩

/-- The token that fills a place. -/
def expect (place : Place) : Reader Token := fun c =>
  match c.rest with
  | [] => .error ⟨.missing place "end of input", c.last⟩
  | t :: rest =>
    if t.kind = place.kind then .ok (t, c.after t rest)
    else .error ⟨.missing place t.describe, t.line⟩

/-- Skips the next token if it is of a kind, and says whether it did. -/
def skips (kind : TokenKind) : Reader Bool := fun c =>
  match c.skip? kind with
  | some c => .ok (true, c)
  | none => .ok (false, c)

/-! ## Progress -/

/-- A reader that succeeds has read at least `n` tokens. -/
def Reads {α : Type} (n : Nat) (r : Reader α) : Prop :=
  ∀ c a c', r c = .ok (a, c') → c'.rest.length + n ≤ c.rest.length

theorem Reads.mono {α : Type} {m n : Nat} {r : Reader α} (h : Reads n r) (hmn : m ≤ n) : Reads m r :=
  fun c a c' hr => Nat.le_trans (Nat.add_le_add_left hmn _) (h c a c' hr)

theorem reads_pure {α : Type} (a : α) : Reads 0 (pure a : Reader α) := by
  intro c b c' h
  cases h
  exact Nat.le_refl _

theorem reads_fail {α : Type} (cause : SyntaxCause) (line n : Nat) :
    Reads n (fail cause line : Reader α) := by
  intro c a c' h
  cases h

theorem Reads.bind {α β : Type} {m n : Nat} {r : Reader α} {f : α → Reader β} (hr : Reads m r)
    (hf : ∀ a, Reads n (f a)) : Reads (m + n) (r >>= f) := by
  intro c b c' h
  simp only [Bind.bind, StateT.bind, Except.bind] at h
  split at h
  · cases h
  · rename_i p hp
    have h1 := hr c p.1 p.2 hp
    have h2 := hf p.1 p.2 b c' h
    omega

theorem reads_expect (place : Place) : Reads 1 (expect place) := by
  intro c t c' h
  unfold expect at h
  split at h
  · cases h
  · rename_i hc
    split at h <;> cases h
    simp [Cursor.after, hc]

theorem reads_skips (kind : TokenKind) : Reads 0 (skips kind) := by
  intro c b c' h
  unfold skips Cursor.skip? at h
  cases hc : c.rest with
  | nil =>
    rw [hc] at h
    cases h
    simp [hc]
  | cons t rest =>
    rw [hc] at h
    by_cases hk : t.kind = kind <;> simp only [hk, if_true, if_false] at h <;> cases h
    · simp [Cursor.after]
    · simp [hc]

end Reader

end SsaCompiler.Lang
