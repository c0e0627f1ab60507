/-!
# Escaped text

How a character that may not stand for itself is written with a backslash.  A `Style` says which
characters have a letter after the backslash, which stand for themselves, and how the others are
spelled by their code.  Four places write escaped text:

    messages       a character quoted in an error message
    listings       a text in the listing of tokens or of a program tree
    data           a byte of a data object, given as the character of its code
    source         a string literal of the language, which has no spelling by code

and `unescape` reads the letters of a string literal back:

    unescape (letter after the backslash) = the character                (unescape_sourceLetter)
-/

namespace SsaCompiler.Text

/-- The digits of a number in lower-case hexadecimal, at least `width` of them. -/
def hexDigits (width n : Nat) : List Char :=
  let digits := Nat.toDigits 16 n
  List.replicate (width - digits.length) '0' ++ digits

/-- A code point in braces after a backslash and a `u`. -/
def codePoint (c : Char) : List Char :=
  ['\\', 'u', '\x7b'] ++ hexDigits 1 c.toNat ++ ['\x7d']

/-- What is written for each character. -/
structure Style where
  /-- The letter that stands for a character after a backslash. -/
  letter : Char → Option Char
  /-- Whether a character without a letter stands for itself. -/
  plain : Char → Bool
  /-- The spelling of all others. -/
  coded : Char → List Char

/-- The spelling of one character. -/
def Style.char (s : Style) (c : Char) : List Char :=
  match s.letter c with
  | some l => ['\\', l]
  | none => if s.plain c then [c] else s.coded c

/-- The spelling of a text. -/
def Style.encode (s : Style) (cs : List Char) : List Char :=
  cs.flatMap s.char

/-- The spelling of a text between double quotes. -/
def Style.quote (s : Style) (cs : List Char) : List Char :=
  '"' :: s.encode cs ++ ['"']

/-- The printable characters of ASCII. -/
def isPrintableAscii (c : Char) : Bool :=
  ' ' ≤ c && c ≤ '~'

/-- The letters of a string literal: newline, tab, return, NUL, backslash and double quote. -/
def sourceLetter : Char → Option Char
  | '\n' => some 'n'
  | '\t' => some 't'
  | '\r' => some 'r'
  | '\x00' => some '0'
  | '\\' => some '\\'
  | '"' => some '"'
  | _ => none

/-- The character that a letter stands for after a backslash. -/
def unescape : Char → Option Char
  | 'n' => some '\n'
  | 't' => some '\t'
  | 'r' => some '\r'
  | '0' => some '\x00'
  | '\\' => some '\\'
  | '"' => some '"'
  | _ => none

theorem unescape_sourceLetter {c l : Char} (h : sourceLetter c = some l) : unescape l = some c := by
  unfold sourceLetter at h
  split at h <;> simp at h <;> subst h <;> rfl

theorem sourceLetter_unescape {c l : Char} (h : unescape l = some c) : sourceLetter c = some l := by
  unfold unescape at h
  split at h <;> simp at h <;> subst h <;> rfl

/-- A string literal as the language spells it: a character without a letter stands for itself. -/
def source : Style where
  letter := sourceLetter
  plain _ := true
  coded c := [c]

/-- A character in a message: both quotes have letters, NUL and all outside ASCII have none. -/
def messages : Style where
  letter
    | '\n' => some 'n'
    | '\t' => some 't'
    | '\r' => some 'r'
    | '\\' => some '\\'
    | '"' => some '"'
    | '\x27' => some '\x27'
    | _ => none
  plain := isPrintableAscii
  coded := codePoint

/-- Whether a character is a control character of the first 256. -/
def isControl (c : Char) : Bool :=
  c < ' ' || ('\x7f' ≤ c && c < '\u00a0')

/-- A text in a listing: controls without a letter are spelled by their code, all else is plain. -/
def listings : Style where
  letter := sourceLetter
  plain c := !isControl c
  coded := codePoint

/-- A byte of a data object: bytes outside printable ASCII are spelled by two hexadecimal digits. -/
def data : Style where
  letter := sourceLetter
  plain := isPrintableAscii
  coded c := ['\\', 'x'] ++ hexDigits 2 c.toNat

/-- The quoted spelling of the bytes of a data object. -/
def quoteBytes (bytes : List UInt8) : String :=
  String.ofList (data.quote (bytes.map fun b => Char.ofNat b.toNat))

end SsaCompiler.Text
