import SsaCompiler.Lang.Prim

/-!
# Tokens

A token is a kind with the text it was read from, the line it starts on and, for type keywords and
literals that fix their type, that type.  The text of a string literal is its contents.
-/

namespace SsaCompiler.Lang

inductive TokenKind where
  | returnWord | letWord | fnWord | externWord
  /-- A keyword that names a type; the token carries the type. -/
  | typeName
  | intLiteral | floatLiteral | stringLiteral
  | ident
  | leftParen | rightParen | leftBrace | rightBrace
  | semicolon | colon | arrow | equals | equalEqual
  | plus | minus | star | slash | percent
  | ellipsis | comma
  /-- The mark at the end of the input. -/
  | endMark
  deriving DecidableEq

/-- How messages and listings name a kind. -/
def TokenKind.text : TokenKind → String
  | .returnWord => "'return'"
  | .letWord => "'let'"
  | .fnWord => "'fn'"
  | .externWord => "'extern'"
  | .typeName => "a type"
  | .intLiteral => "an integer literal"
  | .floatLiteral => "a float literal"
  | .stringLiteral => "a string literal"
  | .ident => "an identifier"
  | .leftParen => "'('"
  | .rightParen => "')'"
  | .leftBrace => "'\x7b'"
  | .rightBrace => "'\x7d'"
  | .semicolon => "';'"
  | .colon => "':'"
  | .arrow => "'->'"
  | .equals => "'='"
  | .equalEqual => "'=='"
  | .plus => "'+'"
  | .minus => "'-'"
  | .star => "'*'"
  | .slash => "'/'"
  | .percent => "'%'"
  | .ellipsis => "'...'"
  | .comma => "','"
  | .endMark => "end of input"

structure Token where
  kind : TokenKind
  lexeme : String
  line : Nat
  literalType : Option Prim
  deriving DecidableEq

namespace Token

/-- A token whose kind says all about its type. -/
def plain (kind : TokenKind) (lexeme : String) (line : Nat) : Token :=
  { kind, lexeme, line, literalType := none }

/-- How a message names a token that it did not expect. -/
def describe (t : Token) : String :=
  match t.kind with
  | .endMark => "end of input"
  | .stringLiteral => "a string literal"
  | _ => "'" ++ t.lexeme ++ "'"

end Token

end SsaCompiler.Lang
