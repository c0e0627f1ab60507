/-!
# Texts of several lines

A text is kept as its lines while it is set out.  A group stands on one line if it has no items, and
otherwise has an opening line, its items four columns further in, each with a comma after its last
line, and a closing line.
-/

namespace SsaCompiler.Text

abbrev Lines := List String

namespace Lines

/-- Lines moved in by four columns. -/
def indent (ls : Lines) : Lines :=
  ls.map ("    " ++ ·)

/-- A text before the first line. -/
def label (text : String) : Lines → Lines
  | [] => [text]
  | l :: ls => (text ++ l) :: ls

/-- A text after the last line. -/
def close (text : String) : Lines → Lines
  | [] => [text]
  | [l] => [l ++ text]
  | l :: ls => l :: close text ls

/-- Items between an opening and a closing text. -/
def group (opening closing : String) (items : List Lines) : Lines :=
  if items = [] then [opening ++ closing]
  else opening :: items.flatMap (fun item => indent (close "," item)) ++ [closing]

/-- A text of lines, each with its newline. -/
def text (ls : Lines) : String :=
  String.join (ls.map (· ++ "\n"))

end Lines

/-- A text moved to the right end of a column. -/
def padLeft (width : Nat) (s : String) : String :=
  String.ofList (List.replicate (width - s.length) ' ') ++ s

/-- A text moved to the left end of a column. -/
def padRight (width : Nat) (s : String) : String :=
  s ++ String.ofList (List.replicate (width - s.length) ' ')

end SsaCompiler.Text
