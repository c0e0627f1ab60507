/-!
# File names

What the command line derives from the name of a file: the stem, which is the last component without
its extension, and the same name with another extension.  A dot at the beginning of a component starts
no extension.
-/

namespace SsaCompiler.CommandLine

/-- The directory part of a path up to its last slash, and the component after it. -/
def splitPath (path : String) : List Char × List Char :=
  let backwards := path.toList.reverse
  ((backwards.dropWhile (· ≠ '/')).reverse, (backwards.takeWhile (· ≠ '/')).reverse)

/-- A component without its extension. -/
def componentStem (component : List Char) : List Char :=
  let backwards := component.reverse
  match backwards.dropWhile (· ≠ '.') with
  | '.' :: c :: rest => (c :: rest).reverse
  | _ => component

/-- Whether a component names no file: it is empty or consists of one or two dots. -/
def isDots (component : List Char) : Bool :=
  [[], ['.'], ['.', '.']].contains component

/-- The stem of a path; none where the last component names no file. -/
def fileStem? (path : String) : Option String :=
  let component := (splitPath path).2
  if isDots component then none else some (String.ofList (componentStem component))

/-- A component with the letters of its extension taken off; the dot before them stays. -/
def bareComponent (component : List Char) : List Char :=
  let stem := componentStem component
  if stem = component then component else stem ++ ['.']

/-- The path with another extension.  Where taking off the old one leaves dots that name a directory, as
it does with `..x`, the path becomes the path of that directory. -/
def withExtension (path extension : String) : String :=
  let (directory, component) := splitPath path
  let bare := bareComponent component
  if isDots bare then String.ofList (directory ++ bare)
  else String.ofList (directory ++ componentStem component ++ ['.']) ++ extension

end SsaCompiler.CommandLine
