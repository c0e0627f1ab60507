import SsaCompiler.CommandLine.Run
import SsaCompiler.Proofs.Lowering.Guarantees

/-!
# What a run reports

A stage that fails writes log records and then the report of its error, which is the last event; a stage
that succeeds reports no error.  A stage may follow one that writes log records alone where it succeeds:

    x.Reports Event.IsRecord → (∀ a, (f a).Reports p) → (x >>= f).Reports p           (Reports.bind)

Reading, tokenizing and parsing are such stages, and only lowering warns, after everything that can fail.
-/

namespace SsaCompiler

open Lang (Token Program Error)
open CommandLine (sourceText compileFile)

/-- A log record. -/
def Event.IsRecord (e : Event) : Prop :=
  ∃ r, e = .record r

/-- An event that reports nothing graver than a warning. -/
def Event.IsHarmless (e : Event) : Prop :=
  ∀ d, e = .diagnostic d → d.severity ≠ .error

theorem Event.IsRecord.isHarmless {e : Event} (h : e.IsRecord) : e.IsHarmless := by
  obtain ⟨r, rfl⟩ := h
  nofun

/-- The diagnostic of an error. -/
def Lang.Error.diagnostic (e : Error) : Diagnostic :=
  { severity := .error, message := e.message, line := e.line }

namespace Stage

variable {α β : Type} {p q : Event → Prop}

/-- A stage that writes events of a kind where it succeeds, and otherwise log records and then its error. -/
def Reports (p : Event → Prop) (x : Stage α) : Prop :=
  ∀ j : Journal,
    (∃ a es, Gives x j a (j.followedBy es) ∧ ∀ e ∈ es, p e) ∨
    (∃ e : Error, ∃ rs : List Record,
      outcome x j = (.error (.error e), j.followedBy (rs.map .record ++ [.diagnostic e.diagnostic])))

theorem reports_pure (a : α) : Reports p (pure a) := by
  refine fun j => .inl ⟨a, [], ?_, nofun⟩
  rw [Journal.followedBy_nil]
  exact gives_pure a j

theorem reports_log (level : Level) (text : String) : Reports Event.IsRecord (log level text) := by
  refine fun j => .inl ⟨(), [.record { level, text }], ?_, fun e he => ⟨_, List.mem_singleton.mp he⟩⟩
  rw [← Journal.push_eq_followedBy]
  exact gives_modify _ _

theorem reports_fail (e : Error) : Reports p (fail e : Stage α) := by
  refine fun j => .inr ⟨e, [], ?_⟩
  rw [List.map_nil, List.nil_append, ← Journal.push_eq_followedBy]
  rfl

theorem reports_ofExcept (x : Except Error α) : Reports p (ofExcept x) := by
  cases x with
  | ok a => exact reports_pure a
  | error e => exact reports_fail e

theorem Reports.mono {x : Stage α} (hx : Reports p x) (h : ∀ e, p e → q e) : Reports q x := by
  intro j
  rcases hx j with ⟨a, es, hgives, hes⟩ | hfails
  · exact .inl ⟨a, es, hgives, fun e he => h e (hes e he)⟩
  · exact .inr hfails

theorem exists_records {es : List Event} (h : ∀ e ∈ es, e.IsRecord) : ∃ rs : List Record, es = rs.map .record := by
  induction es with
  | nil => exact ⟨[], rfl⟩
  | cons e es ih =>
    obtain ⟨r, rfl⟩ := h e List.mem_cons_self
    obtain ⟨rs, rfl⟩ := ih fun e he => h e (List.mem_cons_of_mem _ he)
    exact ⟨r :: rs, rfl⟩

/-- Whatever comes after log records is reported as if it came first. -/
theorem Reports.bind {x : Stage α} {f : α → Stage β} (hx : Reports Event.IsRecord x) (hp : ∀ e, e.IsRecord → p e)
    (hf : ∀ a, Reports p (f a)) : Reports p (x >>= f) := by
  intro j
  rcases hx j with ⟨a, es, hgives, hes⟩ | ⟨e, rs, hfails⟩
  · obtain ⟨rs, rfl⟩ := exists_records hes
    rcases hf a (j.followedBy (rs.map .record)) with ⟨b, es', hgives', hes'⟩ | ⟨e, rs', hfails'⟩
    · refine .inl ⟨b, rs.map .record ++ es', ?_, fun e he => ?_⟩
      · rw [← Journal.followedBy_followedBy]
        exact hgives.bind hgives'
      · exact (List.mem_append.mp he).elim (fun h => hp e (hes e h)) (hes' e)
    · refine .inr ⟨e, rs ++ rs', ?_⟩
      rw [outcome_bind, show outcome x j = _ from hgives]
      show outcome (f a) (j.followedBy (rs.map .record)) = _
      rw [hfails', Journal.followedBy_followedBy, List.map_append, List.append_assoc]
  · refine .inr ⟨e, rs, ?_⟩
    rw [outcome_bind, hfails]

/-! ## The stages -/

theorem reports_sourceText (path : String) (contents : Except CommandLine.SystemError (List UInt8)) :
    Reports Event.IsRecord (sourceText path contents) := by
  unfold sourceText
  split
  · exact reports_fail _
  · split
    · exact reports_pure _
    · exact reports_fail _

theorem reports_tokenize (source : String) : Reports Event.IsRecord (tokenize source) :=
  reports_ofExcept _

theorem reports_parse (tokens : List Token) : Reports Event.IsRecord (parse tokens) :=
  (reports_ofExcept _).bind (fun _ => id) fun _ => (reports_log _ _).bind (fun _ => id) fun _ => reports_pure _

/-- The warnings come after all that can fail. -/
theorem reports_lower (c : Config) (p : Program) : Reports Event.IsHarmless (lower c p) := by
  intro j
  rcases Lowering.lower_run p c.moduleName j with ⟨-, s, rs, -, -, hjournal, hlower⟩ | ⟨-, e, rs, -, hlower⟩
  · refine .inl ⟨s.module, rs.map .record ++ Lowering.LowerProgram.closing s.decls, ?_, fun e he => ?_⟩
    · rw [← Journal.followedBy_followedBy, ← hjournal]
      exact outcome_lower_ok (hlower c.validate)
    · rintro d rfl
      simp only [Lowering.LowerProgram.closing, List.mem_append, List.mem_map, List.mem_singleton] at he
      obtain ⟨r, -, ⟨⟩⟩ | ⟨d', hd', ⟨⟩⟩ | ⟨⟨⟩⟩ := he
      obtain ⟨x, -, rfl⟩ := List.mem_map.mp hd'
      rintro ⟨⟩
  · refine .inr ⟨.lowering e.cause e.line, rs, ?_⟩
    rw [outcome_lower_error (hlower c.validate), ← Journal.followedBy_followedBy, ← Journal.push_eq_followedBy]
    rfl

/-! ## Whole runs -/

/-- A run whose failure is reported once, with the last event, and whose success reports no error. -/
structure ReportsOnce (x : Stage α) : Prop where
  ok : ∀ j a j', outcome x j = (.ok a, j') →
    ∃ ds, j'.diagnostics = j.diagnostics ++ ds ∧ ∀ d ∈ ds, d.severity ≠ .error
  error : ∀ j e j', outcome x j = (.error (.error e), j') →
    j'.diagnostics = j.diagnostics ++ [e.diagnostic] ∧ j'.events.back? = some (.diagnostic e.diagnostic)
  fault : ∀ j f, (outcome x j).1 ≠ .error (.fault f)

theorem Reports.reportsOnce {x : Stage α} (h : Reports Event.IsHarmless x) : ReportsOnce x := by
  refine ⟨fun j a j' hok => ?_, fun j e j' herror => ?_, fun j f hfault => ?_⟩
  · rcases h j with ⟨b, es, hgives, hes⟩ | ⟨e, rs, hfails⟩
    · obtain ⟨rfl, rfl⟩ := hgives.unique hok
      refine ⟨_, Journal.diagnostics_followedBy j es, fun d hd => ?_⟩
      obtain ⟨e, he, hed⟩ := List.mem_filterMap.mp hd
      cases e with
      | diagnostic d' =>
        cases hed
        exact hes _ he d rfl
      | record r => cases hed
    · rw [hfails] at hok
      cases hok
  · rcases h j with ⟨b, es, hgives, -⟩ | ⟨e', rs, hfails⟩
    · exact absurd ⟨_, herror⟩ hgives.not_fails
    · rw [hfails] at herror
      cases herror
      rw [← Journal.followedBy_followedBy, ← Journal.push_eq_followedBy, Journal.diagnostics_push_diagnostic,
        Journal.diagnostics_followedBy, Journal.diagnostics_records, List.append_nil]
      exact ⟨rfl, Array.back?_push⟩
  · rcases h j with ⟨b, es, hgives, -⟩ | ⟨e, rs, hfails⟩
    · exact absurd ⟨_, Prod.ext hfault rfl⟩ hgives.not_fails
    · rw [hfails] at hfault
      cases hfault

/-- A run that begins with a stage: where the stage fails the run ends as it did, so that nothing else runs,
and otherwise it goes on with what follows from the result. -/
structure BeginsWith (y : Stage β) (x : Stage α) (f : α → Stage β) : Prop where
  stops : ∀ j e j', outcome x j = (.error e, j') → outcome y j = (.error e, j')
  continues : ∀ j a j', outcome x j = (.ok a, j') → outcome y j = outcome (f a) j'

theorem bind_beginsWith (x : Stage α) (f : α → Stage β) : (x >>= f).BeginsWith x f := by
  refine ⟨fun j e j' h => ?_, fun j a j' h => ?_⟩ <;> rw [outcome_bind, h]

theorem reports_compileTokens (c : Config) (tokens : List Token) : Reports Event.IsHarmless (compileTokens c tokens) :=
  (reports_parse tokens).bind (fun _ => Event.IsRecord.isHarmless) fun p => reports_lower c p

theorem reports_compileSource (c : Config) (source : String) : Reports Event.IsHarmless (compileSource c source) :=
  (reports_tokenize source).bind (fun _ => Event.IsRecord.isHarmless) fun tokens =>
    (reports_log _ _).bind (fun _ => Event.IsRecord.isHarmless) fun _ => reports_compileTokens c tokens

theorem reports_compileFile (c : Config) (path : String) (contents : Except CommandLine.SystemError (List UInt8)) :
    Reports Event.IsHarmless (compileFile c path contents) :=
  (reports_sourceText path contents).bind (fun _ => Event.IsRecord.isHarmless) fun source =>
    reports_compileSource c source

end Stage

end SsaCompiler
