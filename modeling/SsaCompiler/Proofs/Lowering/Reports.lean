import SsaCompiler.Proofs.Lowering.Program

/-!
# What lowering reports

While declarations are lowered nothing but log records is written, whether lowering goes on or ends early.
Where all of them are lowered, the warnings follow, and after them nothing can go wrong, since the module
passes the check:

    journal → records → warnings s.decls → the last record         (lower_run, where a module is given)
    journal → records                                              (lower_run, where it ends with an error)
-/

namespace SsaCompiler

namespace Journal

/-- The journal with further events. -/
def followedBy (j : Journal) (es : List Event) : Journal :=
  { events := j.events ++ es.toArray }

@[simp] theorem followedBy_nil (j : Journal) : j.followedBy [] = j := by
  simp [followedBy]

@[simp] theorem followedBy_followedBy (j : Journal) (es fs : List Event) :
    (j.followedBy es).followedBy fs = j.followedBy (es ++ fs) := by
  simp [followedBy]

theorem push_eq_followedBy (j : Journal) (e : Event) : j.push e = j.followedBy [e] := by
  simp [followedBy, push]

theorem diagnostics_followedBy (j : Journal) (es : List Event) :
    (j.followedBy es).diagnostics = j.diagnostics ++ (mk es.toArray).diagnostics := by
  simp [diagnostics, followedBy]

theorem diagnostics_records (rs : List Record) : (mk (rs.map Event.record).toArray).diagnostics = [] := by
  simp [diagnostics]

end Journal

namespace Lowering

open Lang (Binding Param FunctionDecl Program LoweringError)
open Ir (Module Failure)

namespace LowerProgram

/-! ## Up to the last declaration -/

/-- A computation that writes nothing but log records, also where it ends early. -/
def LogsOnly {α : Type} (x : LowerProgram α) : Prop :=
  ∀ s, ∃ rs : List Record, (outcome x s).2.journal = s.journal.followedBy (rs.map .record)

section LogsOnly

variable {α β : Type}

theorem logs_same {x : LowerProgram α} (h : ∀ s, (outcome x s).2.journal = s.journal) : LogsOnly x :=
  fun s => ⟨[], by rw [h s]; exact (Journal.followedBy_nil _).symm⟩

theorem logs_pure (a : α) : LogsOnly (pure a) := logs_same fun _ => rfl

theorem logs_get : LogsOnly get := logs_same fun _ => rfl

theorem logs_throw (e : Failure LoweringError) : LogsOnly (throw e : LowerProgram α) := logs_same fun _ => rfl

theorem logs_log (level : Level) (text : String) : LogsOnly (log level text) :=
  fun s => ⟨[{ level, text }], s.journal.push_eq_followedBy _⟩

theorem LogsOnly.bind {x : LowerProgram α} {f : α → LowerProgram β} (hx : LogsOnly x) (hf : ∀ a, LogsOnly (f a)) :
    LogsOnly (x >>= f) := by
  intro s
  obtain ⟨rs, hrs⟩ := hx s
  rw [outcome_bind]
  rcases h : outcome x s with ⟨e | a, s₁⟩
  · rw [h] at hrs
    exact ⟨rs, hrs⟩
  · rw [h] at hrs
    obtain ⟨rs', hrs'⟩ := hf a s₁
    refine ⟨rs ++ rs', ?_⟩
    show (outcome (f a) s₁).2.journal = _
    rw [hrs', show s₁.journal = _ from hrs, Journal.followedBy_followedBy, List.map_append]

theorem logs_mapM {f : α → LowerProgram β} (h : ∀ a, LogsOnly (f a)) (as : List α) : LogsOnly (as.mapM f) := by
  induction as with
  | nil => exact logs_pure []
  | cons a as ih =>
    rw [List.mapM_cons]
    exact (h a).bind fun _ => ih.bind fun _ => logs_pure _

theorem logs_forM {f : α → LowerProgram PUnit} (h : ∀ a, LogsOnly (f a)) (as : List α) : LogsOnly (as.forM f) := by
  induction as with
  | nil => exact logs_pure _
  | cons a as ih => exact (h a).bind fun _ => ih

theorem logs_ofFault (x : Except Ir.Fault α) : LogsOnly (ofFault x) := by
  cases x with
  | ok a => exact logs_pure a
  | error fault => exact logs_throw _

/-- A condition under which lowering goes on. -/
theorem logs_unless {c : Prop} [Decidable c] (e : Failure LoweringError) {x : LowerProgram α} (hx : LogsOnly x) :
    LogsOnly (if c then throw e >>= fun _ : PUnit => x else x) := by
  split
  · exact (logs_throw e).bind fun _ => hx
  · exact hx

end LogsOnly

theorem logs_representation (ty : Lang.Prim) (line : Nat) : LogsOnly (representation ty line) := by
  unfold representation
  cases ty.repr? with
  | some t => exact logs_pure t
  | none => exact logs_throw _

theorem logs_initialNumber (b : Binding) : LogsOnly (initialNumber b) := by
  unfold initialNumber
  split
  · split
    · exact logs_pure _
    · exact logs_throw _
  · exact logs_throw _

theorem logs_global (b : Binding) : LogsOnly (global b) := by
  unfold global
  refine logs_get.bind fun s => logs_unless _ (logs_unless _ ?_)
  refine (logs_representation b.ty b.line).bind fun ty => (logs_initialNumber b).bind fun n => ?_
  split
  · exact logs_throw _
  · refine logs_get.bind fun s => ?_
    split
    · exact logs_throw _
    · exact (logs_same fun _ => rfl).bind fun _ => logs_log _ _

theorem logs_redeclare (info : FunctionInfo) (decl : FunctionDecl) : LogsOnly (redeclare info decl) := by
  unfold redeclare
  refine logs_unless _ (logs_unless _ ?_)
  exact logs_get.bind fun s => (logs_ofFault _).bind fun functions =>
    (logs_same fun _ => rfl).bind fun _ => logs_pure _

theorem logs_declare (decl : FunctionDecl) : LogsOnly (declare decl) := by
  have hparam (p : Param) : LogsOnly (do
      if p.ty = .void then fail (.voidValue ("parameter '" ++ p.name ++ "'")) decl.line
      representation p.ty decl.line) :=
    logs_unless _ (logs_representation p.ty decl.line)
  unfold declare
  refine (logs_mapM hparam decl.fixedParams).bind fun params => (logs_representation decl.ret decl.line).bind fun ret =>
    logs_get.bind fun s => ?_
  split
  · exact logs_redeclare _ _
  · exact logs_same fun _ => rfl

/-- A body is lowered without a journal. -/
theorem logs_body (id : Ir.FuncId) (decl : FunctionDecl) (ss : List Lang.Stmt) : LogsOnly (body id decl ss) := by
  unfold body
  refine (logs_same fun _ => rfl).bind fun _ => (logs_log _ _).bind fun _ => logs_get.bind fun s =>
    (logs_ofFault _).bind fun b => ?_
  dsimp only
  split
  · exact logs_same fun _ => rfl
  · exact logs_throw _

theorem logs_function (decl : FunctionDecl) : LogsOnly (function decl) := by
  refine (logs_declare decl).bind fun id => ?_
  cases decl.body with
  | none => exact logs_pure _
  | some ss => exact logs_body id decl ss

/-! ## After the last declaration -/

/-- The declarations of a program. -/
def declarations (p : Program) : LowerProgram Unit :=
  p.globals.forM global >>= fun _ => p.functions.forM function

theorem logs_declarations (p : Program) : LogsOnly (declarations p) :=
  (logs_forM logs_global p.globals).bind fun _ => logs_forM logs_function p.functions

/-- The warning that a function is never defined, at the line of its first declaration. -/
def undefinedWarning (name : String) (line : Nat) : Diagnostic :=
  { severity := .warning, message := "function '" ++ name ++ "' is declared but never defined", line }

/-- The warnings about functions that are neither visible nor defined. -/
def warnings (d : Declarations) : List Diagnostic :=
  (undefinedFunctions d).map fun (name, info) => undefinedWarning name info.line

/-- What is logged when all is lowered. -/
def lastRecord (d : Declarations) : Record :=
  { level := .debug
    text := "lowered " ++ toString d.globals.length ++ " globals and " ++ toString d.functions.length ++ " functions" }

/-- The last report, and the module. -/
def finish : LowerProgram Module := do
  let s ← get
  log .debug ("lowered " ++ toString s.decls.globals.length ++ " globals and " ++
    toString s.decls.functions.length ++ " functions")
  pure s.module

theorem program_eq (p : Program) (validate : Bool) :
    program p validate =
      declarations p >>= fun _ =>
        warnUndefined >>= fun _ => (if validate then check else pure ()) >>= fun _ => finish := by
  unfold declarations
  rw [bind_assoc]
  cases validate <;> rfl

theorem gives_reports (xs : List (String × FunctionInfo)) (s : ProgramState) :
    Gives (xs.forM fun (name, info) => report (.diagnostic (undefinedWarning name info.line))) s ()
      { s with
        journal := s.journal.followedBy (xs.map fun (name, info) => .diagnostic (undefinedWarning name info.line)) } := by
  induction xs generalizing s with
  | nil =>
    rw [List.map_nil, Journal.followedBy_nil]
    exact gives_pure _ _
  | cons x xs ih =>
    have hrest := ih { s with journal := s.journal.push (.diagnostic (undefinedWarning x.1 x.2.line)) }
    rw [Journal.push_eq_followedBy, Journal.followedBy_followedBy] at hrest
    have hone : Gives (report (.diagnostic (undefinedWarning x.1 x.2.line))) s () _ := gives_modify _ s
    rw [Journal.push_eq_followedBy] at hone
    exact hone.bind hrest

theorem gives_warnUndefined (s : ProgramState) :
    Gives warnUndefined s () { s with journal := s.journal.followedBy ((warnings s.decls).map .diagnostic) } := by
  have h := gives_reports (undefinedFunctions s.decls) s
  unfold warnings
  rw [List.map_map]
  exact (gives_get s).bind h

/-- A well-typed module passes. -/
theorem gives_check {s : ProgramState} (h : s.module.check = .ok ()) : Gives check s () s := by
  unfold check
  refine (gives_get s).bind ?_
  rw [h]
  exact gives_pure _ _

theorem gives_finish (s : ProgramState) :
    Gives finish s s.module { s with journal := s.journal.push (.record (lastRecord s.decls)) } := rfl

/-- What is written when all declarations are lowered. -/
def closing (d : Declarations) : List Event :=
  (warnings d).map .diagnostic ++ [.record (lastRecord d)]

theorem diagnostics_closing (d : Declarations) : (Journal.mk (closing d).toArray).diagnostics = warnings d := by
  show ((warnings d).map Event.diagnostic ++ [Event.record (lastRecord d)]).filterMap _ = warnings d
  rw [List.filterMap_append, List.filterMap_map]
  exact (List.append_nil _).trans List.filterMap_some

/-- Once all declarations are lowered, their module is given, checked or not. -/
theorem gives_program {p : Program} {s₀ s : ProgramState} (h : Gives (declarations p) s₀ () s)
    (hcheck : s.module.check = .ok ()) (validate : Bool) :
    Gives (program p validate) s₀ s.module { s with journal := s.journal.followedBy (closing s.decls) } := by
  have hchecked (j : Journal) :
      Gives (if validate then check else pure ()) { s with journal := j } () { s with journal := j } := by
    cases validate with
    | false => exact gives_pure _ _
    | true => exact gives_check hcheck
  have hfinish := gives_finish { s with journal := s.journal.followedBy ((warnings s.decls).map .diagnostic) }
  rw [Journal.push_eq_followedBy, Journal.followedBy_followedBy] at hfinish
  rw [program_eq]
  exact h.bind ((gives_warnUndefined s).bind ((hchecked _).bind hfinish))

end LowerProgram

open LowerProgram (declarations closing)

/-- Where lowering starts. -/
def ProgramState.start (name : String) (journal : Journal) : ProgramState :=
  { module := .empty name, decls := .empty, journal }

/-- The two ways in which lowering ends, each with what it has reported. -/
theorem lower_run (p : Program) (name : String) (journal : Journal) :
    (p.WellFormed ∧ ∃ (s : ProgramState) (rs : List Record),
      Gives (declarations p) (.start name journal) () s ∧ Holds p.globals p.functions s ∧
      s.journal = journal.followedBy (rs.map .record) ∧
      ∀ validate, lower p name validate journal = (.ok s.module, s.journal.followedBy (closing s.decls))) ∨
    (¬ p.WellFormed ∧ ∃ (e : LoweringError) (rs : List Record), (∀ message, e.cause ≠ .invalidIr message) ∧
      ∀ validate, lower p name validate journal = (.error (.error e), journal.followedBy (rs.map .record))) := by
  have hlower (validate : Bool) {r : Except (Failure LoweringError) Module} {s : ProgramState}
      (h : outcome (LowerProgram.program p validate) (.start name journal) = (r, s)) :
      lower p name validate journal = (r, s.journal) := by
    show ((outcome (LowerProgram.program p validate) (.start name journal)).1,
      (outcome (LowerProgram.program p validate) (.start name journal)).2.journal) = _
    rw [h]
  obtain ⟨rs, hrs⟩ := LowerProgram.logs_declarations p (.start name journal)
  rcases LowerProgram.settles_declarations p name journal with ⟨⟨⟩, s, hs, hwf, hholds⟩ | ⟨⟨e, ⟨s, hs⟩, hcause⟩, hwf⟩
  · have hs : Gives (declarations p) (.start name journal) () s := hs
    have hjournal : s.journal = journal.followedBy (rs.map .record) := by
      unfold Gives at hs
      rw [hs] at hrs
      exact hrs
    refine .inl ⟨hwf, s, rs, hs, hholds, hjournal, fun validate => ?_⟩
    exact hlower validate (LowerProgram.gives_program hs hholds.check validate)
  · have hs : outcome (declarations p) (.start name journal) = (.error (.error e), s) := hs
    rw [hs] at hrs
    refine .inr ⟨hwf, e, rs, hcause, fun validate => ?_⟩
    have hjournal : s.journal = journal.followedBy (rs.map .record) := hrs
    rw [← hjournal]
    refine hlower validate ?_
    rw [LowerProgram.program_eq, outcome_bind, hs]

end Lowering

end SsaCompiler
