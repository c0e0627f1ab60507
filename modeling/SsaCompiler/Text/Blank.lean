/-!
# Blank characters

The characters with the Unicode property `White_Space`: between tokens they stand for nothing.

    isBlank c = true  ↔  c is one of `blanks`                           (isBlank_iff)
    c.isWhitespace → isBlank c                                           (isBlank_of_isWhitespace)
-/

namespace SsaCompiler.Text

/-- The blank characters in order of their code points. -/
def blanks : List Char :=
  ['\t', '\n', '\x0b', '\x0c', '\r', ' ', '\u0085', '\u00a0', '\u1680',
   '\u2000', '\u2001', '\u2002', '\u2003', '\u2004', '\u2005', '\u2006', '\u2007', '\u2008',
   '\u2009', '\u200a', '\u2028', '\u2029', '\u202f', '\u205f', '\u3000']

/-- Whether a character has the property `White_Space`. -/
def isBlank (c : Char) : Bool :=
  blanks.contains c

theorem isBlank_iff {c : Char} : isBlank c = true ↔ c ∈ blanks := by
  simp [isBlank]

/-- The six blanks of ASCII are among them. -/
theorem isBlank_of_isWhitespace {c : Char} (h : c.isWhitespace = true) : isBlank c = true := by
  simp only [Char.isWhitespace, Bool.or_eq_true, decide_eq_true_eq] at h
  rcases h with ((rfl | rfl) | rfl) | rfl <;> decide

end SsaCompiler.Text
