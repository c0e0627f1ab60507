import SsaCompiler.Pipeline
import SsaCompiler.Proofs.Lowering.Reports

/-!
# What lowering guarantees

Lowering ends in one of two ways, which the program alone decides (`lower_cases`).  A well-formed one
becomes a module, with the same journal whether the module is checked or not; any other ends with an
error about the program.  From this follow

    (lower p …).1 = .ok m for some m  ↔  p.WellFormed                 (lower_eq_ok_iff)
    validation changes nothing, and no module is rejected             (lower_validation)
    (lower p …).1 = .ok m → every defined function of m is in the form of `SsaForm`   (lower_ssaForm)
-/

namespace SsaCompiler.Lowering

open Lang (Program FunctionDecl Prim LoweringError)
open Ir (Module Function Failure)

/-- The two ways in which lowering ends. -/
theorem lower_cases (p : Program) (name : String) (journal : Journal) :
    (p.WellFormed ∧ ∃ s : ProgramState, Holds p.globals p.functions s ∧
      ∀ validate, lower p name validate journal = (.ok s.module, s.journal)) ∨
    (¬ p.WellFormed ∧ ∃ e journal', (∀ message, e.cause ≠ .invalidIr message) ∧
      ∀ validate, lower p name validate journal = (.error (.error e), journal')) := by
  rcases lower_run p name journal with ⟨hwf, s, rs, -, hholds, -, hlower⟩ | ⟨hwf, e, rs, hcause, hlower⟩
  · exact .inl ⟨hwf, { s with journal := s.journal.followedBy (LowerProgram.closing s.decls) }, hholds.journal _,
      hlower⟩
  · exact .inr ⟨hwf, e, _, hcause, hlower⟩

theorem wellFormed_of_lower {p : Program} {name : String} {validate : Bool} {journal : Journal} {m : Module}
    (h : (lower p name validate journal).1 = .ok m) : p.WellFormed := by
  rcases lower_cases p name journal with ⟨hwf, -⟩ | ⟨-, e, journal', -, hlower⟩
  · exact hwf
  · rw [hlower validate] at h
    cases h

/-! ## Acceptance -/

/-- A program of one function, which returns its parameter as a wider number. -/
def widening : Program :=
  { globals := []
    functions :=
      [{ name := "main", external := false, params := [.named "a" (.int .signed .w32)], ret := .int .signed .w64
         body := some
           [.bind { name := "b", ty := .int .signed .w64, init := .name "a", line := 2 }, .ret (.name "b") 3]
         line := 1 }] }

/-- Exactly the well-formed programs are lowered. -/
theorem lower_eq_ok_iff (p : Program) (name : String) (validate : Bool) (journal : Journal) :
    (∃ m, (lower p name validate journal).1 = .ok m) ↔ p.WellFormed := by
  rcases lower_cases p name journal with ⟨hwf, s, -, hlower⟩ | ⟨hwf, e, journal', -, hlower⟩
  · rw [hlower validate]
    exact ⟨fun _ => hwf, fun _ => ⟨s.module, rfl⟩⟩
  · rw [hlower validate]
    exact ⟨by rintro ⟨m, ⟨⟩⟩, fun h => absurd h hwf⟩

/-! ## The form of functions -/

/-- Every function with a body is in single-assignment form, and its slots are initialized. -/
theorem lower_ssaForm (p : Program) (name : String) (validate : Bool) (journal : Journal) (m : Module)
    (h : (lower p name validate journal).1 = .ok m) (i : Ir.FuncId) (f : Function)
    (hf : m.functions.get? i = some f) (hdef : f.isDefined = true) :
    ∃ s block, Ir.SsaForm m f s block := by
  rcases lower_cases p name journal with ⟨-, s, hholds, hlower⟩ | ⟨-, e, journal', -, hlower⟩
  · rw [hlower validate] at h
    cases h
    obtain ⟨info, -, -, hdeclared, hfin⟩ := hholds.functions i f hf
    cases hinfo : info.defined with
    | false =>
      rw [hdeclared hinfo] at hdef
      cases hdef
    | true =>
      obtain ⟨sig, hsig⟩ := hfin hinfo
      exact ⟨sig, _, hsig.ssaForm⟩
  · rw [hlower validate] at h
    cases h

theorem lower_ssaForm_widening : ∃ m f, (lower widening "main" true .empty).1 = .ok m ∧
    m.functions.get? ⟨0⟩ = some f ∧ f.isDefined = true ∧ ∃ s block, Ir.SsaForm m f s block := by
  have hrun : (match (lower widening "main" true .empty).1 with
      | .ok m => (m.functions.get? ⟨0⟩).any Function.isDefined
      | .error _ => false) = true := by
    decide +kernel
  cases hm : (lower widening "main" true .empty).1 with
  | error e =>
    rw [hm] at hrun
    cases hrun
  | ok m =>
    rw [hm] at hrun
    cases hf : m.functions.get? ⟨0⟩ with
    | none =>
      simp only [hf] at hrun
      cases hrun
    | some f =>
      simp only [hf] at hrun
      exact ⟨m, f, rfl, hf, hrun, lower_ssaForm widening "main" true .empty m hm ⟨0⟩ f hf hrun⟩

end SsaCompiler.Lowering

namespace SsaCompiler

open Lang (Program LoweringError)

/-! ## Validation -/

/-- The stage gives the module that was lowered. -/
theorem outcome_lower_ok {c : Config} {p : Program} {journal journal' : Journal} {m : Ir.Module}
    (h : Lowering.lower p c.moduleName c.validate journal = (.ok m, journal')) :
    outcome (lower c p) journal = (.ok m, journal') := by
  unfold lower
  rw [outcome_bind]
  have hget : outcome (modifyGet (Lowering.lower p c.moduleName c.validate) : Stage _) journal =
      (.ok (.ok m), journal') := by
    show (Except.ok (Lowering.lower p c.moduleName c.validate journal).1,
      (Lowering.lower p c.moduleName c.validate journal).2) = _
    rw [h]
  rw [hget]
  rfl

/-- The stage reports the error that lowering ends with, and ends with it. -/
theorem outcome_lower_error {c : Config} {p : Program} {journal journal' : Journal} {e : LoweringError}
    (h : Lowering.lower p c.moduleName c.validate journal = (.error (.error e), journal')) :
    outcome (lower c p) journal = outcome (Stage.fail (.lowering e.cause e.line)) journal' := by
  unfold lower
  rw [outcome_bind]
  have hget : outcome (modifyGet (Lowering.lower p c.moduleName c.validate) : Stage _) journal =
      (.ok (.error (.error e)), journal') := by
    show (Except.ok (Lowering.lower p c.moduleName c.validate journal).1,
      (Lowering.lower p c.moduleName c.validate journal).2) = _
    rw [h]
  rw [hget]

/-- Validation changes neither what lowering gives nor what it reports: no module is rejected, and none
that is lowered without it would be.  No run ends with a fault. -/
theorem lower_validation (c : Config) (p : Program) (journal : Journal) :
    outcome (lower { c with validate := true } p) journal =
        outcome (lower { c with validate := false } p) journal ∧
      (∀ f, (outcome (lower c p) journal).1 ≠ .error (.fault f)) ∧
      (∀ message line, (outcome (lower c p) journal).1 ≠ .error (.error (.lowering (.invalidIr message) line))) ∧
      ∀ m, (outcome (lower { c with validate := false } p) journal).1 = .ok m → m.check = .ok () := by
  rcases Lowering.lower_cases p c.moduleName journal with ⟨-, s, hholds, hlower⟩ | ⟨-, e, journal', hcause, hlower⟩
  · have hrun (c' : Config) (hname : c'.moduleName = c.moduleName) :
        outcome (lower c' p) journal = (.ok s.module, s.journal) :=
      outcome_lower_ok (by rw [hname]; exact hlower c'.validate)
    rw [hrun c rfl, hrun { c with validate := true } rfl, hrun { c with validate := false } rfl]
    refine ⟨rfl, by rintro f ⟨⟩, by rintro message line ⟨⟩, ?_⟩
    rintro m ⟨⟩
    exact hholds.check
  · have hrun (c' : Config) (hname : c'.moduleName = c.moduleName) :
        outcome (lower c' p) journal = outcome (Stage.fail (.lowering e.cause e.line)) journal' :=
      outcome_lower_error (by rw [hname]; exact hlower c'.validate)
    rw [hrun c rfl, hrun { c with validate := true } rfl, hrun { c with validate := false } rfl]
    refine ⟨rfl, by rintro f ⟨⟩, ?_, by rintro m ⟨⟩⟩
    obtain ⟨cause, line⟩ := e
    rintro message line' ⟨⟩
    exact hcause message rfl

theorem lower_validation_widening :
    ∃ m, (outcome (lower { Config.default with validate := false } Lowering.widening) .empty).1 = .ok m ∧
      m.check = .ok () := by
  have hrun : (match (outcome (lower { Config.default with validate := false } Lowering.widening) .empty).1 with
      | .ok _ => true
      | .error _ => false) = true := by
    decide +kernel
  cases hm : (outcome (lower { Config.default with validate := false } Lowering.widening) .empty).1 with
  | error e =>
    rw [hm] at hrun
    cases hrun
  | ok m => exact ⟨m, rfl, (lower_validation Config.default Lowering.widening .empty).2.2.2 m hm⟩

end SsaCompiler
