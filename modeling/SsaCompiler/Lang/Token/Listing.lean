import SsaCompiler.Lang.Token
import SsaCompiler.Text.Escape
import SsaCompiler.Text.Lines

/-!
# Listings of tokens

A line for each token: its line in the source, its kind and its text in quotes, in columns.
-/

namespace SsaCompiler.Lang

open Text (padLeft padRight listings)

/-- The line of a token. -/
def Token.listingLine (t : Token) : String :=
  padLeft 4 (toString t.line) ++ "  " ++ padRight 14 t.kind.text ++ " " ++
    String.ofList (listings.quote t.lexeme.toList) ++ "\n"

/-- The listing of a row of tokens. -/
def Token.listing (ts : List Token) : String :=
  String.join (ts.map Token.listingLine)

end SsaCompiler.Lang
