import Mathlib
import SsaCompiler.Proofs.CommandLine.Disk
import SsaCompiler.Proofs.Printing
import SsaCompiler.Proofs.Reporting

/-!
# What a compilation leaves behind

What an artifact is made of, and where making it stops, is told by the stages alone.  One of the two is the case,
and rendering does the same, without a fault:

    o.Shows contents text → render o contents gives text
    o.Stops contents      → render o contents fails with an error                      (shows_or_stops)

So a run that compiles shows the artifact, or nothing with the exit code of a failure.  On a safe disk it changes
no file but its target, and that only with what it shows there as well:

    disk.Safe view → Request.ofArguments arguments = .compile o →
      run disk arguments on s leaves (outcome, s') with Leaves disk view o s outcome s'       (run_leaves)
-/

namespace SsaCompiler.CommandLine

open Lang (Token Program)
open Ir (Failure)

/-! ## Artifacts by their stages -/

/-- The text that the bytes of a source file encode. -/
def decode? (bytes : List UInt8) : Option String :=
  String.fromUTF8? (ByteArray.mk bytes.toArray)

/-- The artifact that is asked for, of what was read. -/
inductive Options.Shows (o : Options) : Except SystemError (List UInt8) → String → Prop
  | tokens {bytes : List UInt8} {source : String} {tokens : List Token} (hartifact : o.artifact = .tokens)
      (hsource : decode? bytes = some source) (htokens : Lang.scan source = .ok tokens) :
      o.Shows (.ok bytes) (Token.listing tokens)
  | tree {bytes : List UInt8} {source : String} {tokens : List Token} {p : Program} (hartifact : o.artifact = .tree)
      (hsource : decode? bytes = some source) (htokens : Lang.scan source = .ok tokens)
      (hprogram : Program.ofTokens tokens = .ok p) : o.Shows (.ok bytes) p.outline
  | listing {bytes : List UInt8} {source text : String} {m : Ir.Module} {journal : Journal}
      (hartifact : o.artifact = .listing) (hsource : decode? bytes = some source)
      (hmodule : Gives (compileSource o.config source) .empty m journal) (hlisting : m.listing = .ok text) :
      o.Shows (.ok bytes) text

/-- The stages, as far as the artifact needs them, at which what was read may be refused. -/
inductive Options.Stops (o : Options) : Except SystemError (List UInt8) → Prop
  | reading (e : SystemError) : o.Stops (.error e)
  | decoding {bytes : List UInt8} (hsource : decode? bytes = none) : o.Stops (.ok bytes)
  | scanning {bytes : List UInt8} {source : String} {e : Lang.LexicalError} (hsource : decode? bytes = some source)
      (htokens : Lang.scan source = .error e) : o.Stops (.ok bytes)
  | parsing {bytes : List UInt8} {source : String} {tokens : List Token} {e : Lang.SyntaxError}
      (hartifact : o.artifact ≠ .tokens) (hsource : decode? bytes = some source)
      (htokens : Lang.scan source = .ok tokens) (hprogram : Program.ofTokens tokens = .error e) : o.Stops (.ok bytes)
  | lowering {bytes : List UInt8} {source : String} {tokens : List Token} {p : Program}
      (hartifact : o.artifact = .listing) (hsource : decode? bytes = some source)
      (htokens : Lang.scan source = .ok tokens) (hprogram : Program.ofTokens tokens = .ok p)
      (hlower : ∀ journal, ∃ e, Fails (lower o.config p) journal (.error e)) : o.Stops (.ok bytes)

/-! ## Stages -/

section Stages

variable {path source : String} {bytes : List UInt8} {tokens : List Token} {p : Program} {c : Config}

theorem gives_sourceText (h : decode? bytes = some source) (journal : Journal) :
    Gives (sourceText path (.ok bytes)) journal source journal := by
  unfold decode? at h
  unfold sourceText
  simp only [h]
  exact gives_pure _ _

theorem fails_sourceText {contents : Except SystemError (List UInt8)}
    (h : ∀ bytes, contents = .ok bytes → decode? bytes = none) (journal : Journal) :
    ∃ e, Fails (sourceText path contents) journal (.error e) := by
  unfold decode? at h
  unfold sourceText
  cases contents with
  | error e => exact ⟨_, _, rfl⟩
  | ok bytes =>
    simp only [h bytes rfl]
    exact ⟨_, _, rfl⟩

theorem gives_tokenize_of_scan (h : Lang.scan source = .ok tokens) (journal : Journal) :
    Gives (tokenize source) journal tokens journal := by
  unfold tokenize
  rw [h]
  exact gives_pure _ _

theorem fails_tokenize {e : Lang.LexicalError} (h : Lang.scan source = .error e) (journal : Journal) :
    ∃ e, Fails (tokenize source) journal (.error e) := by
  unfold tokenize
  rw [h]
  exact ⟨_, _, rfl⟩

theorem fails_parse {e : Lang.SyntaxError} (h : Program.ofTokens tokens = .error e) (journal : Journal) :
    ∃ e, Fails (parse tokens) journal (.error e) := by
  unfold parse
  rw [h]
  exact ⟨_, _, rfl⟩

/-- Lowering gives a module from every journal, or fails from every journal. -/
theorem gives_or_fails_lower (c : Config) (p : Program) :
    (∀ journal, ∃ m journal', Gives (lower c p) journal m journal') ∨
      ∀ journal, ∃ e, Fails (lower c p) journal (.error e) := by
  by_cases hwf : p.WellFormed
  · refine .inl fun journal => ?_
    rcases Lowering.lower_cases p c.moduleName journal with ⟨-, s, -, hlower⟩ | ⟨hnot, -⟩
    · exact ⟨s.module, s.journal, outcome_lower_ok (hlower c.validate)⟩
    · exact absurd hwf hnot
  · refine .inr fun journal => ?_
    rcases Lowering.lower_cases p c.moduleName journal with ⟨h, -⟩ | ⟨-, e, journal', -, hlower⟩
    · exact absurd h hwf
    · exact ⟨.lowering e.cause e.line, _, outcome_lower_error (hlower c.validate)⟩

end Stages

namespace Options

variable {o : Options} {contents : Except SystemError (List UInt8)} {bytes : List UInt8} {source text : String}
  {tokens : List Token} {p : Program}

/-- What is made of tokens. -/
def afterTokens (o : Options) (tokens : List Token) : Stage String :=
  match o.artifact with
  | .listing => do
    Stage.log .debug (toString tokens.length ++ " tokens")
    moduleText (← lower o.config (← parse tokens))
  | .tokens => return Token.listing tokens
  | .tree => return (← parse tokens).outline

/-- Every artifact begins with the tokens. -/
theorem render_eq (o : Options) (contents : Except SystemError (List UInt8)) :
    render o contents =
      sourceText o.input contents >>= fun source => tokenize source >>= fun tokens => o.afterTokens tokens := by
  unfold render afterTokens compileFile compileSource compileTokens
  cases o.artifact <;> simp only [bind_assoc]

/-- What is shown is rendered. -/
theorem Shows.gives (h : o.Shows contents text) : ∃ journal, Gives (render o contents) .empty text journal := by
  cases h with
  | tokens hartifact hsource htokens =>
    unfold render
    rw [hartifact]
    exact ⟨_, (gives_sourceText hsource _).bind ((gives_tokenize_of_scan htokens _).bind (gives_pure _ _))⟩
  | tree hartifact hsource htokens hprogram =>
    obtain ⟨journal, hparse, -⟩ := gives_parse hprogram .empty
    unfold render
    rw [hartifact]
    exact ⟨journal, (gives_sourceText hsource _).bind ((gives_tokenize_of_scan htokens _).bind
      (hparse.bind (gives_pure _ _)))⟩
  | @listing _ _ _ m journal hartifact hsource hmodule hlisting =>
    have htext : Gives (moduleText m) journal text journal := by
      unfold moduleText
      rw [hlisting]
      exact gives_pure _ _
    unfold render
    rw [hartifact]
    exact ⟨journal, ((gives_sourceText hsource _).bind hmodule).bind htext⟩

/-- Where a stage stops, rendering fails with its error. -/
theorem Stops.fails (h : o.Stops contents) : ∃ e, Fails (render o contents) .empty (.error e) := by
  rw [render_eq]
  cases h with
  | reading e =>
    have hnone : ∀ bytes, Except.error e = .ok bytes → decode? bytes = none := nofun
    obtain ⟨e, h⟩ := fails_sourceText hnone .empty
    exact ⟨e, h.bind _⟩
  | decoding hsource =>
    obtain ⟨e, h⟩ := fails_sourceText (fun _ h => Except.ok.inj h ▸ hsource) .empty
    exact ⟨e, h.bind _⟩
  | scanning hsource htokens =>
    obtain ⟨e, h⟩ := fails_tokenize htokens .empty
    exact ⟨e, (gives_sourceText hsource _).bind_fails (h.bind _)⟩
  | parsing hartifact hsource htokens hprogram =>
    suffices hafter : ∃ e, Fails (o.afterTokens _) .empty (.error e) by
      obtain ⟨e, hafter⟩ := hafter
      exact ⟨e, (gives_sourceText hsource _).bind_fails ((gives_tokenize_of_scan htokens _).bind_fails hafter)⟩
    unfold afterTokens
    split
    · obtain ⟨e, h⟩ := fails_parse hprogram _
      exact ⟨e, Gives.bind_fails rfl (h.bind _)⟩
    · next htokens => exact absurd htokens hartifact
    · obtain ⟨e, h⟩ := fails_parse hprogram _
      exact ⟨e, h.bind _⟩
  | @lowering _ _ tokens _ hartifact hsource htokens hprogram hlower =>
    obtain ⟨journal, hparse, -⟩ := gives_parse hprogram (Journal.empty.push _)
    obtain ⟨e, h⟩ := hlower journal
    have hafter : Fails (o.afterTokens tokens) .empty (.error e) := by
      unfold afterTokens
      rw [hartifact]
      exact Gives.bind_fails rfl (hparse.bind_fails (h.bind _))
    exact ⟨e, (gives_sourceText hsource _).bind_fails ((gives_tokenize_of_scan htokens _).bind_fails hafter)⟩

/-- A module that is compiled has a listing. -/
theorem shows_or_stops_listing (hartifact : o.artifact = .listing) (hsource : decode? bytes = some source)
    (htokens : Lang.scan source = .ok tokens) (hprogram : Program.ofTokens tokens = .ok p) :
    (∃ text, o.Shows (.ok bytes) text) ∨ o.Stops (.ok bytes) := by
  rcases gives_or_fails_lower o.config p with hgives | hfails
  · obtain ⟨journal, hparse, -⟩ := gives_parse hprogram (Journal.empty.push _)
    obtain ⟨m, journal', hlower⟩ := hgives journal
    have hmodule : Gives (compileSource o.config source) .empty m journal' :=
      (gives_tokenize_of_scan htokens _).bind (Gives.bind rfl (hparse.bind hlower))
    obtain ⟨fls, hls⟩ := (legible_of_gives hmodule).1.exists_outline
    exact .inl ⟨_, .listing hartifact hsource hmodule (Ir.Module.listing_eq hls)⟩
  · exact .inr (.lowering hartifact hsource htokens hprogram hfails)

/-- **An artifact is shown, or a stage stops.** -/
theorem shows_or_stops (o : Options) (contents : Except SystemError (List UInt8)) :
    (∃ text, o.Shows contents text) ∨ o.Stops contents := by
  cases contents with
  | error e => exact .inr (.reading e)
  | ok bytes =>
    cases hsource : decode? bytes with
    | none => exact .inr (.decoding hsource)
    | some source =>
      cases htokens : Lang.scan source with
      | error e => exact .inr (.scanning hsource htokens)
      | ok tokens =>
        cases hprogram : Program.ofTokens tokens with
        | error e =>
          by_cases hartifact : o.artifact = .tokens
          · exact .inl ⟨_, .tokens hartifact hsource htokens⟩
          · exact .inr (.parsing hartifact hsource htokens hprogram)
        | ok p =>
          cases hartifact : o.artifact with
          | tokens => exact .inl ⟨_, .tokens hartifact hsource htokens⟩
          | tree => exact .inl ⟨_, .tree hartifact hsource htokens hprogram⟩
          | listing => exact shows_or_stops_listing hartifact hsource htokens hprogram

theorem Shows.unique {text' : String} (h : o.Shows contents text) (h' : o.Shows contents text') : text = text' := by
  obtain ⟨_, h⟩ := h.gives
  obtain ⟨_, h'⟩ := h'.gives
  exact (h.unique h').1

theorem Shows.not_stops (h : o.Shows contents text) : ¬ o.Stops contents := by
  intro hstops
  obtain ⟨_, hgives⟩ := h.gives
  obtain ⟨e, hfails⟩ := hstops.fails
  exact hgives.not_fails hfails

end Options

/-! ## Runs that compile -/

theorem bind_apply {σ α β : Type} (x : StateM σ α) (f : α → StateM σ β) (s : σ) :
    (x >>= f) s = f (x s).1 (x s).2 := rfl

section Compile

variable {σ : Type} {disk : Disk (StateM σ)} {o : Options} {s s' : σ} {text : String}

theorem compile_of_stops (h : o.Stops (disk.read o.input s).1) :
    ∃ stderr, compile disk o s = ({ exit := 1, stdout := "", stderr }, (disk.read o.input s).2) := by
  obtain ⟨e, journal, hrender⟩ := h.fails
  have hstart : (render o (disk.read o.input s).1).start = (.error (.error e), journal) := hrender
  refine ⟨shown o.mostShown journal.asRecords, ?_⟩
  unfold compile
  rw [bind_apply, hstart]
  rfl

theorem compile_of_shows (h : o.Shows (disk.read o.input s).1 text) (hartifact : o.artifact ≠ .listing) :
    ∃ stderr, compile disk o s = ({ exit := 0, stdout := text, stderr }, (disk.read o.input s).2) := by
  obtain ⟨journal, hrender⟩ := h.gives
  have hstart : (render o (disk.read o.input s).1).start = (.ok text, journal) := hrender
  refine ⟨shown o.mostShown journal.asRecords, ?_⟩
  unfold compile
  rw [bind_apply, hstart]
  dsimp only
  rw [if_neg hartifact]
  rfl

/-- A listing is shown, whether it can be saved or not. -/
theorem compile_of_listing (h : o.Shows (disk.read o.input s).1 text) (hartifact : o.artifact = .listing)
    {written : Except SystemError Unit}
    (hwrite : disk.write o.target text.toUTF8.toList (disk.read o.input s).2 = (written, s')) :
    ∃ stderr, compile disk o s = ({ exit := if written.isOk then 0 else 1, stdout := text, stderr }, s') := by
  obtain ⟨journal, hrender⟩ := h.gives
  have hstart : (render o (disk.read o.input s).1).start = (.ok text, journal) := hrender
  unfold compile
  rw [bind_apply, hstart]
  dsimp only
  rw [if_pos hartifact]
  unfold save
  rw [bind_apply, hwrite]
  cases written with
  | ok u => exact ⟨_, rfl⟩
  | error e => exact ⟨_, rfl⟩

end Compile

/-! ## What is left behind -/

section Leaves

variable {σ Place : Type} {disk : Disk (StateM σ)} {view : View σ Place} {o : Options} {s s' : σ} {outcome : Outcome}
  {text : String}

/-- Whether the listing is shown but cannot be saved. -/
def Options.Unsaved (o : Options) (disk : Disk (StateM σ)) (s : σ) : Prop :=
  o.artifact = .listing ∧ ∃ text e, o.Shows (disk.read o.input s).1 text ∧
    (disk.write o.target text.toUTF8.toList (disk.read o.input s).2).1 = .error e

/-- What a run that compiles leaves of the files and for the caller. -/
structure Leaves (disk : Disk (StateM σ)) (view : View σ Place) (o : Options) (s : σ) (outcome : Outcome) (s' : σ) :
    Prop where
  /-- Nothing is shown where a stage stops. -/
  stopped : o.Stops (disk.read o.input s).1 → outcome.stdout = ""
  /-- Otherwise the artifact is shown, and nothing else. -/
  shown : ¬ o.Stops (disk.read o.input s).1 → ∀ text, o.Shows (disk.read o.input s).1 text ↔ text = outcome.stdout
  /-- No file changes, and none is new, unless the listing was asked for and nothing stopped. -/
  kept : o.artifact ≠ .listing ∨ o.Stops (disk.read o.input s).1 → view.file? s' = view.file? s
  /-- No file changes but the one that the listing is saved to. -/
  others : ∀ q, view.place? s o.target ≠ some q → view.file? s' q = view.file? s q
  /-- A run that succeeds has saved the listing as it has shown it. -/
  saved : o.artifact = .listing → outcome.exit = 0 →
    ∃ q, view.place? s o.target = some q ∧ view.place? s' o.target = some q ∧
      view.file? s' q = some outcome.stdout.toUTF8.toList
  /-- The exit code tells whether a stage or saving failed. -/
  failure : o.Stops (disk.read o.input s).1 ∨ o.Unsaved disk s → outcome.exit = 1
  success : ¬ (o.Stops (disk.read o.input s).1 ∨ o.Unsaved disk s) → outcome.exit = 0

theorem leaves_of_stops (hdisk : disk.Safe view) (h : o.Stops (disk.read o.input s).1) (hexit : outcome.exit = 1)
    (hstdout : outcome.stdout = "") : Leaves disk view o s outcome (disk.read o.input s).2 where
  stopped _ := hstdout
  shown hnot := absurd h hnot
  kept _ := (hdisk.read o.input s).2
  others q _ := congrFun (hdisk.read o.input s).2 q
  saved _ hzero := absurd (hexit.symm.trans hzero) (by decide)
  failure _ := hexit
  success hnot := absurd (.inl h) hnot

theorem leaves_of_shows (hdisk : disk.Safe view) (h : o.Shows (disk.read o.input s).1 outcome.stdout)
    (hartifact : o.artifact ≠ .listing) (hexit : outcome.exit = 0) :
    Leaves disk view o s outcome (disk.read o.input s).2 where
  stopped hstops := absurd hstops h.not_stops
  shown _ _ := ⟨fun htext => htext.unique h, fun heq => heq ▸ h⟩
  kept _ := (hdisk.read o.input s).2
  others q _ := congrFun (hdisk.read o.input s).2 q
  saved hlisting := absurd hlisting hartifact
  failure := by
    rintro (hstops | ⟨hlisting, -⟩)
    · exact absurd hstops h.not_stops
    · exact absurd hlisting hartifact
  success _ := hexit

theorem leaves_of_unsaved (hdisk : disk.Safe view) (h : o.Shows (disk.read o.input s).1 outcome.stdout)
    (hartifact : o.artifact = .listing) {e : SystemError}
    (hwrite : disk.write o.target outcome.stdout.toUTF8.toList (disk.read o.input s).2 = (.error e, s'))
    (hexit : outcome.exit = 1) : Leaves disk view o s outcome s' := by
  have hfiles := (hdisk.write_error _ _ _ _ _ hwrite).trans (hdisk.read o.input s).2
  have hunsaved : o.Unsaved disk s := ⟨hartifact, outcome.stdout, e, h, by rw [hwrite]⟩
  exact
    { stopped := fun hstops => absurd hstops h.not_stops
      shown := fun _ _ => ⟨fun htext => htext.unique h, fun heq => heq ▸ h⟩
      kept := fun _ => hfiles
      others := fun q _ => congrFun hfiles q
      saved := fun _ hzero => absurd (hexit.symm.trans hzero) (by decide)
      failure := fun _ => hexit
      success := fun hnot => absurd (.inr hunsaved) hnot }

theorem leaves_of_saved (hdisk : disk.Safe view) (h : o.Shows (disk.read o.input s).1 outcome.stdout)
    (hartifact : o.artifact = .listing)
    (hwrite : disk.write o.target outcome.stdout.toUTF8.toList (disk.read o.input s).2 = (.ok (), s'))
    (hexit : outcome.exit = 0) : Leaves disk view o s outcome s' := by
  obtain ⟨hplaces, hfiles⟩ := hdisk.read o.input s
  obtain ⟨q, hplace, hplace', hfile, hothers⟩ := hdisk.write_ok _ _ _ _ hwrite
  rw [hplaces] at hplace
  have hsaved : ¬ o.Unsaved disk s := by
    rintro ⟨-, text, e, htext, herror⟩
    rw [htext.unique h, hwrite] at herror
    cases herror
  exact
    { stopped := fun hstops => absurd hstops h.not_stops
      shown := fun _ _ => ⟨fun htext => htext.unique h, fun heq => heq ▸ h⟩
      kept := fun hor => absurd hor (not_or.mpr ⟨not_not_intro hartifact, h.not_stops⟩)
      others := fun q' hne => (hothers q' fun heq => hne (heq ▸ hplace)).trans (congrFun hfiles q')
      saved := fun _ _ => ⟨q, hplace, hplace', hfile⟩
      failure := fun hor => (hor.elim h.not_stops hsaved).elim
      success := fun _ => hexit }

end Leaves

/-! ## A run on a tree of files -/

def seven : String :=
  "let n : u8 = 7;\n"

def listedSeven : String :=
  "; module n\n\nglobal n: i8 = 7 (export)\n"

/-- A directory that holds one source file. -/
def oneSource : Files :=
  { entries := [(["n"], seven.toUTF8.toList)] }

/-- The directory with the listing as well. -/
def sourceAndListing : Files :=
  oneSource.put ["m"] listedSeven.toUTF8.toList

def sevenOptions : Options where
  input := "n"
  output := some "m"
  artifact := .listing
  validate := true
  moduleName := none
  mostShown := some .warn

theorem ofArguments_seven : Request.ofArguments ["n", "-o", "m"] = .compile sevenOptions := by
  decide +kernel

theorem read_oneSource : oneSource.read "n" = .ok seven.toUTF8.toList := by
  have hsplit : "n".splitOn "/" = ["n"] := by cbv
  unfold Files.read Files.reach Files.meansDirectory
  rw [hsplit]
  rfl

theorem write_oneSource (bytes : List UInt8) : oneSource.write "m" bytes = .ok (oneSource.put ["m"] bytes) := by
  have hsplit : "m".splitOn "/" = ["m"] := by cbv
  unfold Files.write Files.reach Files.meansDirectory
  rw [hsplit]
  rfl

/-- The listing is shown, and saved under the name that is given for it. -/
theorem compile_oneSource :
    ∃ stderr, compile Files.disk sevenOptions oneSource = ({ exit := 0, stdout := listedSeven, stderr },
      sourceAndListing) := by
  have hsource : decode? seven.toUTF8.toList = some seven := by decide +kernel
  obtain ⟨m, journal, hmodule, hlisting⟩ :=
    exists_gives_of_listing sevenOptions.config seven listedSeven (by decide +kernel)
  have hshows : sevenOptions.Shows (Files.disk.read sevenOptions.input oneSource).1 listedSeven := by
    show sevenOptions.Shows (oneSource.read "n") listedSeven
    rw [read_oneSource]
    exact .listing rfl hsource hmodule hlisting
  have hwrite : Files.disk.write "m" listedSeven.toUTF8.toList oneSource = (.ok (), sourceAndListing) := by
    rw [Files.disk_write, write_oneSource]
    rfl
  exact compile_of_listing hshows rfl hwrite

end SsaCompiler.CommandLine
