/-!
# Files

The files that a run can read and write.  A `Disk` reads and writes by path in some monad; `Files` is a
tree of files in memory, where the directories are those on the way to a file, and `Files.disk` is the
disk on it.  A path is followed component by component, an absolute one from the root of the system and
any other from the top of the tree; above the top there are directories, and no files.

    files.read path            the contents of a file, or the error of the system
    files.write path bytes     the files with one of them created or replaced, or the error

A path that is too long as a whole is refused before any component is looked up.
-/

namespace SsaCompiler.CommandLine

/-- Why the system refuses to read or to write. -/
inductive SystemError where
  | notFound
  | notADirectory
  | isADirectory
  | nameTooLong
  | other (text : String)
  deriving DecidableEq

def SystemError.text : SystemError → String
  | .notFound => "No such file or directory (os error 2)"
  | .notADirectory => "Not a directory (os error 20)"
  | .isADirectory => "Is a directory (os error 21)"
  | .nameTooLong => "File name too long (os error 36)"
  | .other text => text

/-- What a run needs of the file system. -/
structure Disk (m : Type → Type) where
  read : String → m (Except SystemError (List UInt8))
  write : String → List UInt8 → m (Except SystemError Unit)

/-- Files by the components of their paths. -/
structure Files where
  entries : List (List String × List UInt8)

namespace Files

/-- The components of a path that name something. -/
def components (path : String) : List String :=
  (path.splitOn "/").filter fun c => c ≠ "" && c ≠ "."

/-- Files by their paths. -/
def ofList (files : List (String × List UInt8)) : Files :=
  { entries := files.map fun (path, bytes) => (components path, bytes) }

def file? (fs : Files) (place : List String) : Option (List UInt8) :=
  fs.entries.lookup place

/-- The place of the root of the system. -/
def root : List String := ["/"]

/-- Whether a place is the top or lies above it. -/
def isAbove (place : List String) : Bool :=
  place.all (· = "..")

/-- Whether a place is the root, the top or above it, or on the way to a file. -/
def isDirectory (fs : Files) (place : List String) : Bool :=
  place = root || isAbove place || fs.entries.any fun (p, _) => place.isPrefixOf p && place ≠ p

/-! ## Following paths -/

/-- The greatest length of a component in bytes. -/
def mostNameBytes : Nat := 255

/-- The greatest length of a path in bytes. -/
def mostPathBytes : Nat := 4095

/-- The place of a name in a directory. -/
def child (directory : List String) (name : String) : Except SystemError (List String) :=
  if mostNameBytes < name.utf8ByteSize then .error .nameTooLong else .ok (directory ++ [name])

/-- The directory above a directory; the root is above itself. -/
def parent (directory : List String) : List String :=
  if directory = root then root
  else if isAbove directory then directory ++ [".."]
  else directory.dropLast

/-- The directory that a component leads to from a directory. -/
def enter (fs : Files) (directory : List String) (component : String) :
    Except SystemError (List String) := do
  if component = "" || component = "." then .ok directory
  else if component = ".." then .ok (parent directory)
  else
    let place ← child directory component
    if fs.isDirectory place then .ok place
    else .error (if (fs.file? place).isSome then .notADirectory else .notFound)

/-- The directory that a path starts from. -/
def start (path : String) : List String :=
  if path.toList.head? = some '/' then root else []

/-- The last component of a path, slashes at its end left out, and the directory that the components
before it lead to. -/
def reach (fs : Files) (path : String) : Except SystemError (List String × String) :=
  if mostPathBytes < path.utf8ByteSize then .error .nameTooLong
  else
    match (path.splitOn "/").reverse.dropWhile (· = "") with
    | [] => .ok (start path, "")
    | last :: before => do
      let directory ← before.reverse.foldlM fs.enter (start path)
      .ok (directory, last)

/-- Whether only a directory can be meant by a path: it ends with a slash or with dots. -/
def meansDirectory (path : String) : Bool :=
  [some "", some ".", some ".."].contains (path.splitOn "/").getLast?

/-- The contents of the file at a path. -/
def read (fs : Files) (path : String) : Except SystemError (List UInt8) := do
  let (directory, last) ← fs.reach path
  if meansDirectory path then
    let _ ← fs.enter directory last
    .error .isADirectory
  else
    let place ← child directory last
    match fs.file? place with
    | some bytes => .ok bytes
    | none => .error (if fs.isDirectory place then .isADirectory else .notFound)

/-! ## Changing files -/

/-- The files with the contents of one replaced. -/
def put (fs : Files) (place : List String) (bytes : List UInt8) : Files :=
  { entries := (place, bytes) :: fs.entries.filter fun (p, _) => p ≠ place }

theorem file?_put_self (fs : Files) (place : List String) (bytes : List UInt8) :
    (fs.put place bytes).file? place = some bytes := by
  simp [file?, put]

/-- No other file is touched. -/
theorem file?_put_of_ne {fs : Files} {place other : List String} {bytes : List UInt8}
    (h : other ≠ place) : (fs.put place bytes).file? other = fs.file? other := by
  have kept : ∀ entries : List (List String × List UInt8),
      (entries.filter fun (p, _) => p ≠ place).lookup other = entries.lookup other := by
    intro entries
    induction entries with
    | nil => rfl
    | cons entry rest ih =>
      obtain ⟨p, b⟩ := entry
      by_cases hp : p = place
      · have ho : (other == p) = false := by simp [hp, h]
        rw [List.lookup_cons, ho, List.filter_cons_of_neg (by simp [hp]), ih]
      · rw [List.filter_cons_of_pos (by simp [hp]), List.lookup_cons, List.lookup_cons, ih]
  have hne : (other == place) = false := by simp [h]
  show ((place, bytes) :: _).lookup other = _
  rw [List.lookup_cons, hne]
  exact kept fs.entries

/-- The files with contents written to a path. -/
def write (fs : Files) (path : String) (bytes : List UInt8) : Except SystemError Files := do
  let (directory, last) ← fs.reach path
  if meansDirectory path then .error .isADirectory
  else
    let place ← child directory last
    if fs.isDirectory place then .error .isADirectory else .ok (fs.put place bytes)

/-- The disk on files in memory. -/
def disk : Disk (StateM Files) where
  read path := return (← get).read path
  write path bytes := do
    match (← get).write path bytes with
    | .ok fs =>
      set fs
      return .ok ()
    | .error e => return .error e

end Files

end SsaCompiler.CommandLine
