import SsaCompiler.Ir.Ty

/-!
# Names and tables

The things of a module are numbered in the order they are made.  An `Id` is such a number with the
kind of thing it names, and a `Table` holds the things of one kind.  An id may name nothing; reading
through it is a `Fault`, which is not an error of the program that is compiled but of the one that
uses the tables.

    t.push a         the table with one more entry, named `t.next`
    t.get i          the entry named `i`, or the fault
-/

namespace SsaCompiler.Ir

/-- The kinds of things that ids name. -/
inductive Entity where
  | value | block | slot | func | signature | global | data | inst
  deriving DecidableEq

/-- The mark before the number of an id. -/
def Entity.mark : Entity → String
  | .value => "v"
  | .block => "block"
  | .slot => "ss"
  | .func => "func"
  | .signature => "sig"
  | .global => "gv"
  | .data => "data"
  | .inst => "inst"

structure Id (e : Entity) where
  index : Nat
  deriving DecidableEq

abbrev ValueId := Id .value
abbrev BlockId := Id .block
abbrev SlotId := Id .slot
abbrev FuncId := Id .func
abbrev SigId := Id .signature
abbrev GlobalId := Id .global
abbrev DataId := Id .data
abbrev InstId := Id .inst

/-- The text of an id: the mark of its kind and its number. -/
def Id.text {e : Entity} (i : Id e) : String :=
  e.mark ++ toString i.index

/-- A use of the tables that their makers have ruled out. -/
inductive Fault where
  /-- An id names nothing. -/
  | unknown (e : Entity) (index : Nat)
  /-- An integer constant of another type. -/
  | notAnInteger (ty : Ty)
  /-- A floating-point constant of another type. -/
  | notAFloat (ty : Ty)
  /-- A function has fewer parameters. -/
  | noParameter (index : Nat)
  /-- An instruction without a result is used as a value. -/
  | noResult (inst : InstId)
  deriving DecidableEq

/-- The things of one kind. -/
structure Table (e : Entity) (α : Type) where
  entries : Array α

namespace Table

variable {e : Entity} {α : Type}

def empty : Table e α :=
  { entries := #[] }

def size (t : Table e α) : Nat :=
  t.entries.size

def isEmpty (t : Table e α) : Bool :=
  t.entries.isEmpty

/-- The id of the entry that comes next. -/
def next (t : Table e α) : Id e :=
  { index := t.size }

def push (t : Table e α) (a : α) : Table e α :=
  { entries := t.entries.push a }

def toList (t : Table e α) : List α :=
  t.entries.toList

/-- The entries with their ids. -/
def named (t : Table e α) : List (Id e × α) :=
  t.toList.zipIdx.map fun (a, i) => (⟨i⟩, a)

def get? (t : Table e α) (i : Id e) : Option α :=
  t.entries[i.index]?

/-- The entry that an id names. -/
def get (t : Table e α) (i : Id e) : Except Fault α :=
  match t.get? i with
  | some a => .ok a
  | none => .error (.unknown e i.index)

/-- The table with another entry under an id; nothing changes where the id names nothing. -/
def set (t : Table e α) (i : Id e) (a : α) : Table e α :=
  { entries := t.entries.setIfInBounds i.index a }

/-- The table with the entry of an id changed. -/
def modify (t : Table e α) (i : Id e) (f : α → α) : Except Fault (Table e α) := do
  let a ← t.get i
  pure (t.set i (f a))

/-- The first entry with a property. -/
def findId? (t : Table e α) (p : α → Bool) : Option (Id e) :=
  (t.entries.findIdx? p).map (⟨·⟩)

@[simp] theorem toList_empty : (empty : Table e α).toList = [] := rfl

@[simp] theorem toList_push (t : Table e α) (a : α) : (t.push a).toList = t.toList ++ [a] := by
  simp [toList, push]

@[simp] theorem size_push (t : Table e α) (a : α) : (t.push a).size = t.size + 1 := by
  simp [size, push]

@[simp] theorem get?_push_next (t : Table e α) (a : α) : (t.push a).get? t.next = some a := by
  simp [get?, push, next, size]

theorem get?_push_of_ne {t : Table e α} {a : α} {i : Id e} (h : i ≠ t.next) :
    (t.push a).get? i = t.get? i := by
  have : i.index ≠ t.entries.size := fun hi => h (by cases i; simp_all [next, size])
  simp [get?, push, Array.getElem?_push, this]

theorem get_eq_ok {t : Table e α} {i : Id e} {a : α} : t.get i = .ok a ↔ t.get? i = some a := by
  unfold get
  split <;> simp_all

end Table

end SsaCompiler.Ir
