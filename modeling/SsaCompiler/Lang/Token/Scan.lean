import SsaCompiler.Lang.Token
import SsaCompiler.Text.Blank
import SsaCompiler.Text.Escape

/-!
# Reading tokens from source text

A `Source` is what is left of a text with the line of its next character.  `Source.next` skips blanks
and comments, reads one token or finds one error, and returns what is left; it can be called again
after an error and at the end, where it keeps answering with the end mark.

    s.next = (result, s')    with s' shorter than s unless the result is the end mark     (next_length_lt)
    s.tokens                 the tokens up to the end mark, or the first error
    s.results n              the answers of n calls
-/

namespace SsaCompiler.Lang

open Text (isBlank unescape messages)

/-- Why the text at a place is no token. -/
inductive LexicalCause where
  /-- One or two dots, where only three make a symbol. -/
  | loneDot
  | strayChar (c : Char)
  /-- A point after a number without a digit after it. -/
  | missingFraction (text : String)
  | unknownEscape (c : Char)
  | openString
  | openComment
  deriving DecidableEq

def LexicalCause.message : LexicalCause → String
  | .loneDot => "invalid symbol '.'"
  | .strayChar c => "unexpected character '" ++ String.ofList (messages.char c) ++ "'"
  | .missingFraction text => "float literal '" ++ text ++ "' needs a digit after '.'"
  | .unknownEscape c => "unknown escape sequence '\\" ++ String.ofList (messages.char c) ++ "'"
  | .openString => "unterminated string literal"
  | .openComment => "unterminated block comment"

structure LexicalError where
  cause : LexicalCause
  line : Nat
  deriving DecidableEq

/-- What is left of a text, and the line of its first character. -/
structure Source where
  rest : List Char
  line : Nat

namespace Source

/-- A text from its beginning. -/
def ofText (text : String) : Source :=
  { rest := text.toList, line := 1 }

/-- The line after a character. -/
def lineAfter (c : Char) (line : Nat) : Nat :=
  if c = '\n' then line + 1 else line

/-! ## Blanks and comments -/

/-- Where the text between two tokens stands. -/
inductive Gap where
  | between
  | lineComment
  /-- Inside a block comment that was opened on a line. -/
  | blockComment (opened : Nat)

/-- Skips blanks and comments; a block comment that is not closed is an error. -/
def skip : Gap → List Char → Nat → Option LexicalError × Source
  | .between, c :: rest, line =>
    if isBlank c then skip .between rest (lineAfter c line)
    else
      match c, rest with
      | '/', '/' :: rest => skip .lineComment rest line
      | '/', '*' :: rest => skip (.blockComment line) rest line
      | c, rest => (none, ⟨c :: rest, line⟩)
  | .lineComment, c :: rest, line =>
    if c = '\n' then skip .between rest (line + 1) else skip .lineComment rest line
  | .blockComment opened, c :: rest, line =>
    match c, rest with
    | '*', '/' :: rest => skip .between rest line
    | c, rest => skip (.blockComment opened) rest (lineAfter c line)
  | .blockComment opened, [], line => (some ⟨.openComment, opened⟩, ⟨[], line⟩)
  | _, [], line => (none, ⟨[], line⟩)

/-! ## Spellings -/

/-- The symbol at the beginning of a text, the longest that fits, and what follows it. -/
def symbol? : List Char → Option (TokenKind × String × List Char)
  | '(' :: rest => some (.leftParen, "(", rest)
  | ')' :: rest => some (.rightParen, ")", rest)
  | '\x7b' :: rest => some (.leftBrace, "\x7b", rest)
  | '\x7d' :: rest => some (.rightBrace, "\x7d", rest)
  | ';' :: rest => some (.semicolon, ";", rest)
  | ':' :: rest => some (.colon, ":", rest)
  | ',' :: rest => some (.comma, ",", rest)
  | '+' :: rest => some (.plus, "+", rest)
  | '*' :: rest => some (.star, "*", rest)
  | '/' :: rest => some (.slash, "/", rest)
  | '%' :: rest => some (.percent, "%", rest)
  | '-' :: '>' :: rest => some (.arrow, "->", rest)
  | '-' :: rest => some (.minus, "-", rest)
  | '=' :: '=' :: rest => some (.equalEqual, "==", rest)
  | '=' :: rest => some (.equals, "=", rest)
  | '.' :: '.' :: '.' :: rest => some (.ellipsis, "...", rest)
  | _ => none

/-- What is left after one or two dots. -/
def afterDots : List Char → List Char
  | '.' :: '.' :: rest => rest
  | '.' :: rest => rest
  | rest => rest

/-- The contents of a string literal after its opening quote, and what is left.  A string ends on its
line: a newline in it is read and is an error. -/
def stringContents : List Char → Nat → Except LexicalCause (List Char) × Source
  | [], line => (.error .openString, ⟨[], line⟩)
  | '"' :: rest, line => (.ok [], ⟨rest, line⟩)
  | '\n' :: rest, line => (.error .openString, ⟨rest, line + 1⟩)
  | '\\' :: [], line => (.error .openString, ⟨[], line⟩)
  | '\\' :: '\n' :: rest, line => (.error .openString, ⟨rest, line + 1⟩)
  | '\\' :: letter :: rest, line =>
    match unescape letter with
    | some c =>
      let (contents, left) := stringContents rest line
      (contents.map (c :: ·), left)
    | none => (.error (.unknownEscape letter), ⟨rest, line⟩)
  | c :: rest, line =>
    let (contents, left) := stringContents rest line
    (contents.map (c :: ·), left)

/-- The kind of a word that names no type. -/
def wordKind : String → TokenKind
  | "return" => .returnWord
  | "let" => .letWord
  | "fn" => .fnWord
  | "extern" => .externWord
  | _ => .ident

/-- The token of a word. -/
def wordToken (word : String) (line : Nat) : Token :=
  match Prim.ofKeyword? word with
  | some ty => { kind := .typeName, lexeme := word, line, literalType := some ty }
  | none => .plain (wordKind word) word line

/-- The characters that start a word. -/
def isWordStart (c : Char) : Bool :=
  c.isAlpha || c = '_'

/-- The characters that continue a word. -/
def isWordChar (c : Char) : Bool :=
  c.isAlphanum || c = '_'

/-- The number at the beginning of a text.  A point belongs to it unless another point follows, and
then needs a digit after it. -/
def number (text : List Char) (line : Nat) : Except LexicalCause Token × Source :=
  let whole := text.takeWhile Char.isDigit
  match text.dropWhile Char.isDigit with
  | '.' :: '.' :: rest => (.ok (.plain .intLiteral (String.ofList whole) line), ⟨'.' :: '.' :: rest, line⟩)
  | '.' :: rest =>
    let fraction := rest.takeWhile Char.isDigit
    if fraction = [] then (.error (.missingFraction (String.ofList (whole ++ ['.']))), ⟨rest, line⟩)
    else
      (.ok (.plain .floatLiteral (String.ofList (whole ++ '.' :: fraction)) line),
        ⟨rest.dropWhile Char.isDigit, line⟩)
  | rest => (.ok (.plain .intLiteral (String.ofList whole) line), ⟨rest, line⟩)

/-- The token at the beginning of a text that starts with no blank and no comment. -/
def spelling (text : List Char) (line : Nat) : Except LexicalCause Token × Source :=
  match symbol? text with
  | some (kind, lexeme, rest) => (.ok (.plain kind lexeme line), ⟨rest, line⟩)
  | none =>
    match text with
    | [] => (.ok (.plain .endMark "" line), ⟨[], line⟩)
    | c :: rest =>
      if c = '.' then (.error .loneDot, ⟨afterDots text, line⟩)
      else if c = '"' then
        let (contents, left) := stringContents rest line
        (contents.map fun cs =>
            { kind := .stringLiteral, lexeme := String.ofList cs, line, literalType := some .str },
          left)
      else if c.isDigit then number text line
      else if isWordStart c then
        (.ok (wordToken (String.ofList (text.takeWhile isWordChar)) line),
          ⟨text.dropWhile isWordChar, line⟩)
      else (.error (.strayChar c), ⟨rest, line⟩)

/-- The next token or error, and what is left after it. -/
def next (s : Source) : Except LexicalError Token × Source :=
  match skip .between s.rest s.line with
  | (some e, left) => (.error e, left)
  | (none, left) =>
    let (result, after) := spelling left.rest left.line
    (result.mapError (⟨·, left.line⟩), after)

/-! ## Progress -/

theorem skip_length_le (gap : Gap) (text : List Char) (line : Nat) :
    (skip gap text line).2.rest.length ≤ text.length := by
  fun_induction skip gap text line <;> simp_all <;> omega

theorem skip_length_lt {text : List Char} {line : Nat} {e : LexicalError} {left : Source}
    (h : skip .between text line = (some e, left)) : left.rest.length < text.length := by
  have nil : ∀ (gap : Gap) (text : List Char) (line : Nat), (skip gap text line).1.isSome →
      (skip gap text line).2.rest = [] := by
    intro gap text line
    fun_induction skip gap text line <;> simp_all
  cases text with
  | nil => simp [skip] at h
  | cons c rest =>
    have := nil .between (c :: rest) line (by simp [h])
    rw [h] at this
    simp_all

theorem symbol?_length_lt {text : List Char} {kind : TokenKind} {lexeme : String} {rest : List Char}
    (h : symbol? text = some (kind, lexeme, rest)) : rest.length < text.length := by
  unfold symbol? at h
  split at h <;> simp_all <;> omega

theorem stringContents_length_le (text : List Char) (line : Nat) :
    (stringContents text line).2.rest.length ≤ text.length := by
  fun_induction stringContents text line <;> simp_all <;> omega

theorem dropWhile_length_le (p : Char → Bool) (text : List Char) :
    (text.dropWhile p).length ≤ text.length :=
  (List.dropWhile_sublist p).length_le

theorem number_length_lt {c : Char} {rest : List Char} {line : Nat} (hc : c.isDigit = true) :
    (number (c :: rest) line).2.rest.length < (c :: rest).length := by
  have hd : (c :: rest).dropWhile Char.isDigit = rest.dropWhile Char.isDigit := by simp [hc]
  have hle := dropWhile_length_le Char.isDigit rest
  unfold number
  rw [hd]
  simp only
  split
  · rename_i r h
    rw [h] at hle
    simpa using Nat.lt_succ_of_le hle
  · rename_i r _ h
    rw [h] at hle
    simp only [List.length_cons] at hle
    split
    · simp; omega
    · have := dropWhile_length_le Char.isDigit r
      simp; omega
  · simp; omega

theorem spelling_length_lt {text : List Char} (line : Nat) (h : text ≠ []) :
    (spelling text line).2.rest.length < text.length := by
  unfold spelling
  split
  · rename_i h
    exact symbol?_length_lt h
  · split
    · contradiction
    · rename_i c rest _
      split
      · rename_i hc
        subst hc
        unfold afterDots
        split <;> simp_all <;> omega
      · split
        · have := stringContents_length_le rest line
          simpa using Nat.lt_succ_of_le this
        · split
          · rename_i hc
            exact number_length_lt hc
          · split
            · rename_i hc
              have hw : isWordChar c = true := by
                simp only [isWordStart, isWordChar, Char.isAlphanum, Bool.or_eq_true] at hc ⊢
                rcases hc with hc | hc
                · exact .inl (.inl hc)
                · exact .inr hc
              have := dropWhile_length_le isWordChar rest
              simp [hw]; omega
            · simp

/-- A call that does not answer with the end mark reads at least one character. -/
theorem next_length_lt {s s' : Source} {result : Except LexicalError Token}
    (h : s.next = (result, s')) (hend : ∀ t, result = .ok t → t.kind ≠ .endMark) :
    s'.rest.length < s.rest.length := by
  unfold next at h
  split at h
  · rename_i e left hs
    cases h
    exact skip_length_lt hs
  · rename_i left hs
    have hle := skip_length_le .between s.rest s.line
    rw [hs] at hle
    by_cases hl : left.rest = []
    · simp only [hl, Prod.mk.injEq] at h
      exact absurd rfl (hend _ h.1.symm)
    · have := spelling_length_lt left.line hl
      simp only [Prod.mk.injEq] at h
      rw [← h.2]
      exact Nat.lt_of_lt_of_le this hle

/-! ## Whole texts -/

/-- The tokens of a text, the end mark last, or its first error. -/
def tokens (s : Source) : Except LexicalError (List Token) :=
  match h : s.next with
  | (.error e, _) => .error e
  | (.ok t, left) =>
    if hend : t.kind = .endMark then .ok [t]
    else
      have : left.rest.length < s.rest.length := next_length_lt h (by rintro _ ⟨⟩; exact hend)
      (tokens left).map (t :: ·)
termination_by s.rest.length

/-- The answers of a number of calls, going on after errors and after the end. -/
def results : Nat → Source → List (Except LexicalError Token)
  | 0, _ => []
  | n + 1, s => s.next.1 :: results n s.next.2

end Source

/-- The tokens of a source text. -/
def scan (text : String) : Except LexicalError (List Token) :=
  (Source.ofText text).tokens

end SsaCompiler.Lang
