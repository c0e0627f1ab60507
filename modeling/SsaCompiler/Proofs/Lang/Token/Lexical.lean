import SsaCompiler.Lang.Token.Scan

/-!
# The lexical grammar

Which texts are rows of tokens, said without reading them.  A text is divided into spellings with
trivia before, between and after them:

    Trivia gap rest                      blanks and comments, before the rest of the text
    Spelling word kind lexeme ty         one token's own characters
    kind.endsBefore c                    a character that does not continue a spelling
    Lexes before text tokens             the tokens of a text that has another before it, the end mark last

A spelling ends only before a character that does not continue it, and the line of a token is one more
than the number of newlines before its first character.
-/

namespace SsaCompiler.Lang

open Text (blanks)

/-! ## Trivia -/

/-- Blanks and comments before the rest of a text.  A line comment ends before a newline or at the end
of the text, a block comment with the first star and slash after its opening. -/
inductive Trivia : List Char → List Char → Prop
  | nil (rest : List Char) : Trivia [] rest
  | blank {c : Char} {gap rest : List Char} (hc : c ∈ blanks) (h : Trivia gap rest) : Trivia (c :: gap) rest
  | lineComment {body gap rest : List Char} (hbody : '\n' ∉ body) (hend : ∀ c ∈ (gap ++ rest).head?, c = '\n')
      (h : Trivia gap rest) : Trivia ('/' :: '/' :: (body ++ gap)) rest
  | blockComment {body gap rest : List Char} (hbody : ¬ ['*', '/'] <:+: body ++ ['*']) (h : Trivia gap rest) :
      Trivia ('/' :: '*' :: (body ++ '*' :: '/' :: gap)) rest

/-! ## Spellings -/

def symbols : List (String × TokenKind) :=
  [("(", .leftParen), (")", .rightParen), ("\x7b", .leftBrace), ("\x7d", .rightBrace), (";", .semicolon),
   (":", .colon), (",", .comma), ("+", .plus), ("-", .minus), ("*", .star), ("/", .slash), ("%", .percent),
   ("->", .arrow), ("=", .equals), ("==", .equalEqual), ("...", .ellipsis)]

def keywords : List (String × TokenKind) :=
  [("return", .returnWord), ("let", .letWord), ("fn", .fnWord), ("extern", .externWord)]

/-- The keywords that name a type. -/
def typeKeywords : List (String × Prim) :=
  [("void", .void), ("i8", .int .signed .w8), ("i16", .int .signed .w16), ("i32", .int .signed .w32),
   ("i64", .int .signed .w64), ("i128", .int .signed .w128), ("u8", .int .unsigned .w8),
   ("u16", .int .unsigned .w16), ("u32", .int .unsigned .w32), ("u64", .int .unsigned .w64),
   ("u128", .int .unsigned .w128), ("f32", .float .w32), ("f64", .float .w64)]

/-- The letters after a backslash in a string literal, with the characters they stand for. -/
def escapes : List (Char × Char) :=
  [('n', '\n'), ('t', '\t'), ('r', '\r'), ('0', '\x00'), ('\\', '\\'), ('"', '"')]

/-- Whether a character continues a word. -/
def InWord (c : Char) : Prop :=
  c.isAlphanum = true ∨ c = '_'

/-- A letter or underscore, and letters, digits and underscores. -/
def IsWord (word : List Char) : Prop :=
  ∃ c cs, word = c :: cs ∧ (c.isAlpha = true ∨ c = '_') ∧ ∀ d ∈ cs, InWord d

def IsDigits (digits : List Char) : Prop :=
  digits ≠ [] ∧ ∀ c ∈ digits, c.isDigit = true

/-- What stands between the quotes of a string literal, and the characters it stands for. -/
inductive Decodes : List Char → List Char → Prop
  | nil : Decodes [] []
  | plain {c : Char} {body contents : List Char} (hq : c ≠ '"') (hb : c ≠ '\\') (hn : c ≠ '\n')
      (h : Decodes body contents) : Decodes (c :: body) (c :: contents)
  | escape {letter c : Char} {body contents : List Char} (hc : (letter, c) ∈ escapes)
      (h : Decodes body contents) : Decodes ('\\' :: letter :: body) (c :: contents)

/-- The characters of a token, with its kind, its text and the type it carries. -/
inductive Spelling : List Char → TokenKind → String → Option Prim → Prop
  | symbol {text : String} {kind : TokenKind} (h : (text, kind) ∈ symbols) : Spelling text.toList kind text none
  | keyword {text : String} {kind : TokenKind} (h : (text, kind) ∈ keywords) : Spelling text.toList kind text none
  | typeName {text : String} {ty : Prim} (h : (text, ty) ∈ typeKeywords) :
      Spelling text.toList .typeName text (some ty)
  | ident {word : List Char} (hword : IsWord word) (hkeyword : ∀ kind, (String.ofList word, kind) ∉ keywords)
      (htype : ∀ ty, (String.ofList word, ty) ∉ typeKeywords) : Spelling word .ident (String.ofList word) none
  | int {digits : List Char} (h : IsDigits digits) : Spelling digits .intLiteral (String.ofList digits) none
  | float {whole fraction : List Char} (hw : IsDigits whole) (hf : IsDigits fraction) :
      Spelling (whole ++ '.' :: fraction) .floatLiteral (String.ofList (whole ++ '.' :: fraction)) none
  | string {body contents : List Char} (h : Decodes body contents) :
      Spelling ('"' :: (body ++ ['"'])) .stringLiteral (String.ofList contents) (some .str)

/-- Whether a spelling may stand before a character: a word before none that continues it, a number
before no digit, and a symbol before none that makes it another symbol or the opening of a comment. -/
def TokenKind.endsBefore (kind : TokenKind) (c : Char) : Prop :=
  match kind with
  | .returnWord | .letWord | .fnWord | .externWord | .typeName | .ident => ¬ InWord c
  | .intLiteral | .floatLiteral => c.isDigit = false
  | .minus => c ≠ '>'
  | .equals => c ≠ '='
  | .slash => c ≠ '/' ∧ c ≠ '*'
  | _ => True

/-! ## Texts -/

/-- The line of the character after a text. -/
def lineAt (before : List Char) : Nat :=
  1 + before.count '\n'

/-- The tokens of a text that has another before it. -/
inductive Lexes : List Char → List Char → List Token → Prop
  | done {before gap : List Char} (hgap : Trivia gap []) :
      Lexes before gap [{ kind := .endMark, lexeme := "", line := lineAt (before ++ gap), literalType := none }]
  | token {before gap word rest : List Char} {kind : TokenKind} {lexeme : String} {ty : Option Prim}
      {ts : List Token} (hgap : Trivia gap (word ++ rest)) (hword : Spelling word kind lexeme ty)
      (hend : ∀ c ∈ rest.head?, kind.endsBefore c) (h : Lexes (before ++ gap ++ word) rest ts) :
      Lexes before (gap ++ word ++ rest)
        ({ kind, lexeme, line := lineAt (before ++ gap), literalType := ty } :: ts)

end SsaCompiler.Lang
