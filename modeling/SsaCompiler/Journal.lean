/-!
# What a run reports

A run tells what happened in two ways: diagnostics, which are for the person whose program is
compiled, and log records, which follow the steps of the compiler.  A `Journal` holds both in the
order in which they came; `diagnostics` and `records` are the two views, and `asRecords` shows
diagnostics among the log records with their line.
-/

namespace SsaCompiler

/-- How grave a diagnostic is, the gravest last. -/
inductive Severity where
  | info | warning | error
  deriving DecidableEq

namespace Severity

def rank : Severity → Nat
  | .info => 0
  | .warning => 1
  | .error => 2

/-- The graver of two. -/
def max (a b : Severity) : Severity :=
  if a.rank ≤ b.rank then b else a

theorem rank_max (a b : Severity) : (a.max b).rank = Nat.max a.rank b.rank := by
  cases a <;> cases b <;> rfl

end Severity

/-- A message about a line of the program; line zero stands for none. -/
structure Diagnostic where
  severity : Severity
  message : String
  line : Nat
  deriving DecidableEq

/-- How verbose a log record is, the tersest first. -/
inductive Level where
  | error | warn | info | debug | trace
  deriving DecidableEq

namespace Level

def rank : Level → Nat
  | .error => 1
  | .warn => 2
  | .info => 3
  | .debug => 4
  | .trace => 5

def all : List Level :=
  [.error, .warn, .info, .debug, .trace]

def text : Level → String
  | .error => "error"
  | .warn => "warn"
  | .info => "info"
  | .debug => "debug"
  | .trace => "trace"

/-- How a record of a level is marked on the terminal. -/
def tag : Level → String
  | .error => "[ERROR]"
  | .warn => "[WARN]"
  | .info => "[INFO]"
  | .debug => "[DEBUG]"
  | .trace => "[TRACE]"

end Level

/-- A line of the log. -/
structure Record where
  level : Level
  text : String
  deriving DecidableEq

namespace Record

/-- Whether a record is shown where `most` is the most verbose level shown, none being shown without
one. -/
def isShown (most : Option Level) (r : Record) : Bool :=
  most.any fun m => r.level.rank ≤ m.rank

/-- The record as a line on the terminal. -/
def line (r : Record) : String :=
  r.level.tag ++ " " ++ r.text ++ "\n"

end Record

namespace Diagnostic

/-- The diagnostics of a severity. -/
def ofSeverity (s : Severity) (ds : List Diagnostic) : List Diagnostic :=
  ds.filter (·.severity = s)

/-- How many diagnostics have a severity. -/
def count (s : Severity) (ds : List Diagnostic) : Nat :=
  (ofSeverity s ds).length

/-- The gravest severity among diagnostics. -/
def gravest? : List Diagnostic → Option Severity
  | [] => none
  | d :: ds => some (ds.foldl (fun s d => s.max d.severity) d.severity)

/-- The log level of a severity. -/
def level (d : Diagnostic) : Level :=
  match d.severity with
  | .info => .info
  | .warning => .warn
  | .error => .error

/-- The diagnostic as a log record. -/
def toRecord (d : Diagnostic) : Record :=
  { level := d.level, text := "line " ++ toString d.line ++ ": " ++ d.message }

end Diagnostic

inductive Event where
  | diagnostic (d : Diagnostic)
  | record (r : Record)
  deriving DecidableEq

/-- The events of a run in order. -/
structure Journal where
  events : Array Event

namespace Journal

def empty : Journal :=
  { events := #[] }

def push (j : Journal) (e : Event) : Journal :=
  { events := j.events.push e }

/-- The diagnostics in order. -/
def diagnostics (j : Journal) : List Diagnostic :=
  j.events.toList.filterMap fun
    | .diagnostic d => some d
    | .record _ => none

/-- The log records in order. -/
def records (j : Journal) : List Record :=
  j.events.toList.filterMap fun
    | .diagnostic _ => none
    | .record r => some r

/-- All events as log records. -/
def asRecords (j : Journal) : List Record :=
  j.events.toList.map fun
    | .diagnostic d => d.toRecord
    | .record r => r

@[simp] theorem diagnostics_empty : empty.diagnostics = [] := rfl

@[simp] theorem diagnostics_push_diagnostic (j : Journal) (d : Diagnostic) :
    (j.push (.diagnostic d)).diagnostics = j.diagnostics ++ [d] := by
  simp [diagnostics, push]

@[simp] theorem diagnostics_push_record (j : Journal) (r : Record) :
    (j.push (.record r)).diagnostics = j.diagnostics := by
  simp [diagnostics, push]

@[simp] theorem records_push_record (j : Journal) (r : Record) :
    (j.push (.record r)).records = j.records ++ [r] := by
  simp [records, push]

@[simp] theorem records_push_diagnostic (j : Journal) (d : Diagnostic) :
    (j.push (.diagnostic d)).records = j.records := by
  simp [records, push]

end Journal

end SsaCompiler
