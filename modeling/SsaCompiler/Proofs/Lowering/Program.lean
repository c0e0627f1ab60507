import SsaCompiler.Proofs.Lowering.Declaring

/-!
# Which programs are lowered

The globals and functions of a program are lowered exactly if the program is well formed, and then what
holds after declarations holds of all of them:

    Settles (globals, then functions) s₀ (fun _ s => p.WellFormed ∧ Holds p.globals p.functions s)
      (¬ p.WellFormed)                                                            (settles_declarations)

Every function of the module that has a body is finished by then, so the module passes the check
(`Holds.check`), and the check changes nothing.
-/

namespace SsaCompiler.Lowering

open Lang (Prim Binding Stmt Expr Param FunctionDecl Program LoweringCause LoweringError)
open Ir (Body Function Module Signature Failure FuncId)

/-! ## Rows of declarations -/

/-- A condition on each entry after the ones before it, split at the first entry. -/
theorem forall_split_cons {α : Type} {C : List α → α → Prop} {done : List α} {x : α} {xs : List α} :
    (∀ earlier a later, x :: xs = earlier ++ a :: later → C (done ++ earlier) a) ↔
      C done x ∧ ∀ earlier a later, xs = earlier ++ a :: later → C ((done ++ [x]) ++ earlier) a := by
  constructor
  · intro hall
    refine ⟨?_, ?_⟩
    · have hx := hall [] x xs rfl
      rw [List.append_nil] at hx
      exact hx
    · intro earlier a later heq
      rw [List.append_assoc]
      exact hall (x :: earlier) a later (by rw [heq]; rfl)
  · rintro ⟨hx, hrest⟩ earlier a later heq
    cases earlier with
    | nil =>
      cases heq
      rw [List.append_nil]
      exact hx
    | cons y earlier =>
      cases heq
      have ha := hrest earlier a later rfl
      rw [List.append_assoc] at ha
      exact ha

/-- A row of steps settles if each step does after the ones before it. -/
theorem settles_forM {σ α : Type} {f : α → ExceptT (Failure LoweringError) (StateM σ) PUnit}
    {I : List α → σ → Prop} {C : List α → α → Prop}
    (hstep : ∀ earlier a s, I earlier s →
      Settles (f a) s (fun _ s' => C earlier a ∧ I (earlier ++ [a]) s') (¬ C earlier a))
    (xs : List α) {done : List α} {s : σ} (h : I done s) :
    Settles (xs.forM f) s
      (fun _ s' => (∀ earlier a later, xs = earlier ++ a :: later → C (done ++ earlier) a) ∧ I (done ++ xs) s')
      (¬ ∀ earlier a later, xs = earlier ++ a :: later → C (done ++ earlier) a) := by
  induction xs generalizing done s with
  | nil =>
    refine .of_gives (gives_pure _ _) ⟨?_, by rw [List.append_nil]; exact h⟩
    intro earlier a later heq
    cases earlier <;> cases heq
  | cons x xs ih =>
    show Settles (f x >>= fun _ => xs.forM f) s _ _
    rw [forall_split_cons]
    refine (hstep done x s h).bind (fun hn hall => hn hall.1) ?_
    rintro - s₁ ⟨hx, h₁⟩
    refine (ih h₁).mono ?_ (fun hn hall => hn hall.2)
    rintro - s₂ ⟨hrest, h₂⟩
    rw [List.append_assoc] at h₂
    exact ⟨⟨hx, hrest⟩, h₂⟩

namespace LowerProgram

theorem rejects_fail {α : Type} {cause : LoweringCause} (hcause : ∀ message, cause ≠ .invalidIr message)
    (line : Nat) (s : ProgramState) : Rejects (fail cause line : LowerProgram α) s :=
  ⟨⟨cause, line⟩, ⟨s, rfl⟩, hcause⟩

theorem gives_ofFault {α : Type} {x : Except Ir.Fault α} {a : α} (h : x = .ok a) (s : ProgramState) :
    Gives (ofFault x) s a s := by
  rw [h]
  exact gives_pure _ _

theorem gives_ofFault_iff {α : Type} {x : Except Ir.Fault α} {s s' : ProgramState} {a : α} :
    Gives (ofFault x) s a s' ↔ x = .ok a ∧ s' = s := by
  constructor
  · intro h
    cases x with
    | error fault => cases h
    | ok b =>
      cases h
      exact ⟨rfl, rfl⟩
  · rintro ⟨hx, rfl⟩
    exact gives_ofFault hx _

theorem gives_log (level : Level) (text : String) (s : ProgramState) :
    Gives (log level text) s () { s with journal := s.journal.push (.record { level, text }) } := rfl

theorem settles_representation (ty : Prim) (line : Nat) (s : ProgramState) :
    Settles (representation ty line) s (fun t s' => ty.repr? = some t ∧ s' = s) (ty.repr? = none) := by
  unfold representation
  cases h : ty.repr? with
  | some t => exact .of_gives (gives_pure _ _) ⟨rfl, rfl⟩
  | none => exact (rejects_fail (by rintro _ ⟨⟩) line s).settles rfl

/-! ## Globals -/

/-- A global has an initial number exactly if an integer literal is given. -/
theorem settles_initialNumber (b : Binding) (s : ProgramState) :
    Settles (initialNumber b) s
      (fun n s' => (∃ sign width text, b.init = .literal (.int sign width) text ∧
        Numeral.readSigned? 128 text = some n) ∧ s' = s)
      (¬ ∃ sign width text n, b.init = .literal (.int sign width) text ∧
        Numeral.readSigned? 128 text = some n) := by
  have hother (hne : ∀ sign width text, b.init ≠ .literal (.int sign width) text) :
      ¬ ∃ sign width text n, b.init = .literal (.int sign width) text ∧ Numeral.readSigned? 128 text = some n := by
    rintro ⟨sign, width, text, n, heq, -⟩
    exact hne sign width text heq
  unfold initialNumber
  split
  · next sign width text hinit =>
    cases hread : Numeral.readSigned? 128 text with
    | some n => exact .of_gives (gives_pure _ _) ⟨⟨sign, width, text, hinit, hread⟩, rfl⟩
    | none =>
      refine (rejects_fail (by rintro _ ⟨⟩) b.line s).settles ?_
      rintro ⟨sign', width', text', n, hinit', hread'⟩
      rw [hinit] at hinit'
      cases hinit'
      rw [hread] at hread'
      cases hread'
  · next hne => exact (rejects_fail (by rintro _ ⟨⟩) b.line s).settles (hother hne)

/-- Exactly numbers have initial values. -/
theorem ofInt?_eq_some {ty : Prim} {t : Ir.Ty} (ht : ty.repr? = some t) (n : Int) :
    (ty.isNumber = true ∧ ty ≠ .void ∧ ∃ c, Ir.Constant.ofInt? t n = some c ∧ c.ty = t) ∨
      (ty.isNumber = false ∧ Ir.Constant.ofInt? t n = none) := by
  cases ty <;> cases ht
  · exact .inr ⟨rfl, rfl⟩
  · exact .inl ⟨rfl, by rintro ⟨⟩, _, rfl, rfl⟩
  · exact .inl ⟨rfl, by rintro ⟨⟩, _, rfl, rfl⟩
  · exact .inr ⟨rfl, rfl⟩
  · exact .inr ⟨rfl, rfl⟩

/-- A global is lowered exactly if its name is new and it is a number with an initial literal. -/
theorem settles_global {gs : List Binding} {s : ProgramState} (h : Holds gs [] s) (b : Binding) :
    Settles (global b) s
      (fun _ s' => (gs.find? (·.name = b.name) = none ∧ b.WellFormedGlobal) ∧ Holds (gs ++ [b]) [] s')
      (¬ (gs.find? (·.name = b.name) = none ∧ b.WellFormedGlobal)) := by
  have htypes := h.types b.name
  unfold global
  refine .after (gives_get s) ?_
  cases hg : s.decls.global? b.name with
  | some g =>
    refine (rejects_fail (by rintro _ ⟨⟩) b.line s).bind.settles ?_
    rintro ⟨hnew, -⟩
    rw [hg, hnew] at htypes
    cases htypes
  | none =>
    have hnew : gs.find? (·.name = b.name) = none := by
      rw [hg] at htypes
      exact Option.map_eq_none_iff.mp htypes.symm
    show Settles (if b.ty = .void then _ else _) s _ _
    by_cases hvoid : b.ty = .void
    · rw [if_pos hvoid]
      refine (rejects_fail (by rintro _ ⟨⟩) b.line s).bind.settles ?_
      rintro ⟨-, hnumber, -⟩
      rw [hvoid] at hnumber
      cases hnumber
    rw [if_neg hvoid]
    refine (settles_representation b.ty b.line s).bind ?_ ?_
    · rintro hnone ⟨-, hnumber, -⟩
      obtain ⟨-, t, ht⟩ := isStorable_iff.mp (isStorable_of_isNumber hnumber)
      rw [hnone] at ht
      cases ht
    rintro ty s₁ ⟨hty, rfl⟩
    refine (settles_initialNumber b s₁).bind (fun hn hall => hn hall.2.literal) ?_
    rintro n s₂ ⟨⟨sign, width, text, hinit, hread⟩, rfl⟩
    rcases ofInt?_eq_some hty n with ⟨hnumber, -, c, hc, hcty⟩ | ⟨hnumber, hc⟩
    · rw [hc]
      refine .after (gives_get s₂) ?_
      rw [h.module_addGlobal hnew hcty]
      refine .after (gives_modify _ _) (.of_gives (gives_log _ _ _) ?_)
      refine ⟨⟨hnew, hnumber, sign, width, text, n, hinit, hread⟩, ?_⟩
      exact (h.addGlobal hnew hty .exported (some c)).journal _
    · rw [hc]
      refine (rejects_fail (by rintro _ ⟨⟩) b.line s₂).settles ?_
      rintro ⟨-, hnumber', -⟩
      rw [hnumber] at hnumber'
      cases hnumber'

/-! ## Functions -/

theorem settles_paramType (p : Param) (line : Nat) (s : ProgramState) :
    Settles
      (do
        if p.ty = .void then fail (.voidValue ("parameter '" ++ p.name ++ "'")) line
        representation p.ty line)
      s (fun t s' => p.ty.isStorable = true ∧ p.ty.repr? = some t ∧ s' = s) (¬ p.ty.isStorable = true) := by
  by_cases hvoid : p.ty = .void
  · simp only [if_pos hvoid]
    refine (rejects_fail (by rintro _ ⟨⟩) line s).bind.settles ?_
    intro hstorable
    exact (isStorable_iff.mp hstorable).1 hvoid
  · simp only [if_neg hvoid]
    refine (settles_representation p.ty line s).mono ?_ ?_
    · rintro t s' ⟨ht, rfl⟩
      exact ⟨isStorable_iff.mpr ⟨hvoid, t, ht⟩, ht, rfl⟩
    · intro hnone hstorable
      obtain ⟨-, t, ht⟩ := isStorable_iff.mp hstorable
      rw [hnone] at ht
      cases ht

theorem settles_paramTypes (decl : FunctionDecl) (s : ProgramState) :
    Settles (paramTypes decl) s
      (fun tys s' => (∀ ty ∈ decl.fixedTypes, ty.isStorable = true) ∧
        decl.fixedTypes.map Prim.repr? = tys.map some ∧ s' = s)
      (¬ ∀ ty ∈ decl.fixedTypes, ty.isStorable = true) := by
  unfold paramTypes FunctionDecl.fixedTypes
  induction decl.fixedParams with
  | nil =>
    rw [List.mapM_nil]
    exact .of_gives (gives_pure _ _) ⟨by rintro ty ⟨⟩, rfl, rfl⟩
  | cons p ps ih =>
    rw [List.mapM_cons, List.map_cons]
    refine (settles_paramType p decl.line s).bind (fun hn hall => hn (hall p.ty List.mem_cons_self)) ?_
    rintro t s₁ ⟨hp, ht, rfl⟩
    refine ih.bind (fun hn hall => hn fun ty hty => hall ty (List.mem_cons_of_mem _ hty)) ?_
    rintro ts s₂ ⟨hps, hts, rfl⟩
    refine .of_gives (gives_pure _ _) ⟨?_, ?_, rfl⟩
    · intro ty hty
      rcases List.mem_cons.mp hty with rfl | hty
      · exact hp
      · exact hps ty hty
    · rw [List.map_cons, List.map_cons, hts, ht]

/-- What a declaration has to meet before its body. -/
structure Fits (fs : List FunctionDecl) (decl : FunctionDecl) : Prop where
  params : ∀ ty ∈ decl.fixedTypes, ty.isStorable = true
  ret : decl.ret ≠ .invalid
  agrees : ∀ g ∈ fs, g.name = decl.name → g.Agrees decl
  single : decl.body.isSome = true → ∀ g ∈ fs, g.name = decl.name → g.body = none

theorem agrees_iff {info : FunctionInfo} {decl : FunctionDecl} :
    agrees info decl = true ↔ info.Declares decl := by
  unfold agrees
  rw [Bool.and_eq_true, Bool.and_eq_true, decide_eq_true_iff, decide_eq_true_iff, decide_eq_true_iff]
  exact ⟨fun ⟨⟨hp, hr⟩, hv⟩ => ⟨hp, hr, hv⟩, fun h => ⟨⟨h.params, h.ret⟩, h.variadic⟩⟩

/-- A further declaration fits exactly if it agrees with what is known and no second body comes. -/
theorem settles_redeclare {gs : List Binding} {fs : List FunctionDecl} {s : ProgramState} (h : Holds gs fs s)
    {decl : FunctionDecl} {info : FunctionInfo} (hinfo : s.decls.function? decl.name = some info)
    (hparams : ∀ ty ∈ decl.fixedTypes, ty.isStorable = true) (hret : decl.ret ≠ .invalid) :
    Settles (redeclare info decl) s (fun id s' => Fits fs decl ∧ Declared gs fs decl id s') (¬ Fits fs decl) := by
  obtain ⟨g, hg, hname⟩ : ∃ g ∈ fs, g.name = decl.name := by
    have hsome : s.decls.function? decl.name ≠ none := by rw [hinfo]; exact Option.some_ne_none _
    rw [Ne, h.known] at hsome
    simpa using hsome
  have hall : ∀ g ∈ fs, g.name = decl.name → info.Declares g := fun g hg hname =>
    h.agree g hg info (by rw [hname]; exact hinfo)
  unfold redeclare
  by_cases hagree : info.Declares decl
  · have hdefined := h.defined _ info hinfo
    have hagrees : ∀ g ∈ fs, g.name = decl.name → g.Agrees decl := by
      intro g hg hname
      have hd := hall g hg hname
      exact ⟨hd.params.symm.trans hagree.params, hd.ret.symm.trans hagree.ret, hd.variadic.symm.trans hagree.variadic⟩
    rw [agrees_iff.mpr hagree]
    show Settles (if (info.defined && decl.body.isSome) = true then _ else _) s _ _
    by_cases hsecond : (info.defined && decl.body.isSome) = true
    · rw [if_pos hsecond]
      obtain ⟨hdef, hbody⟩ := Bool.and_eq_true_iff.mp hsecond
      refine (rejects_fail (by rintro _ ⟨⟩) decl.line s).bind.settles ?_
      intro hfits
      obtain ⟨f, hf, hfname, hsome⟩ := hdefined.mp hdef
      rw [hfits.single hbody f hf hfname] at hsome
      cases hsome
    · rw [if_neg hsecond]
      have hsingle : decl.body.isSome = true → info.defined = false := by
        intro hbody
        refine Bool.eq_false_iff.mpr fun hdef => hsecond ?_
        rw [hdef, hbody]
        rfl
      obtain ⟨functions, hmodify, hdeclared⟩ := h.redeclare hinfo hagree hsingle
      refine .after (gives_get s) (.after (gives_ofFault hmodify s) (.after (gives_modify _ _) ?_))
      refine .of_gives (gives_pure _ _) ⟨⟨hparams, hret, hagrees, ?_⟩, hdeclared⟩
      intro hbody g hg hname
      refine Option.not_isSome_iff_eq_none.mp fun hsome => ?_
      have hdef := hdefined.mpr ⟨g, hg, hname, hsome⟩
      rw [hsingle hbody] at hdef
      cases hdef
  · rw [Bool.eq_false_iff.mpr (mt agrees_iff.mp hagree)]
    refine (rejects_fail (by rintro _ ⟨⟩) decl.line s).bind.settles ?_
    intro hfits
    obtain ⟨hp, hr, hv⟩ := hfits.agrees g hg hname
    have hd := hall g hg hname
    exact hagree ⟨hd.params.trans hp, hd.ret.trans hr, hd.variadic.trans hv⟩

theorem settles_declare {gs : List Binding} {fs : List FunctionDecl} {s : ProgramState} (h : Holds gs fs s)
    (decl : FunctionDecl) :
    Settles (declare decl) s (fun id s' => Fits fs decl ∧ Declared gs fs decl id s') (¬ Fits fs decl) := by
  unfold declare
  refine (settles_paramTypes decl s).bind (fun hn hfits => hn hfits.params) ?_
  rintro params s₁ ⟨hstorable, hparams, rfl⟩
  refine (settles_representation decl.ret decl.line s₁).bind ?_ ?_
  · exact fun hnone hfits => hfits.ret (repr?_eq_none_iff.mp hnone)
  rintro ret s₂ ⟨hret, rfl⟩
  have hvalid : decl.ret ≠ .invalid := by
    intro heq
    rw [heq] at hret
    cases hret
  refine .after (gives_get s₂) ?_
  cases hinfo : s₂.decls.function? decl.name with
  | some info => exact settles_redeclare h hinfo hstorable hvalid
  | none =>
    obtain ⟨id, s₃, hgives, hdeclared⟩ := h.declareNew hinfo hparams hstorable hret
    have hfresh := (h.known decl.name).mp hinfo
    refine .of_gives hgives ⟨⟨hstorable, hvalid, ?_, ?_⟩, hdeclared⟩
    · intro g hg hname
      exact absurd hname (hfresh g hg)
    · intro _ g hg hname
      exact absurd hname (hfresh g hg)

/-- A body is lowered exactly if it is well formed among the names that are known by then, and the function
gets what it emits. -/
theorem settles_body {gs : List Binding} {fs : List FunctionDecl} {decl : FunctionDecl} {id : FuncId}
    {s : ProgramState} {ss : List Stmt} (h : Declared gs fs decl id s) (hss : decl.body = some ss) :
    Settles (body id decl ss) s
      (fun _ s' => ((decl.fixedParams.map (·.name)).Nodup ∧ Lang.WellFormedBody decl.ret
          { globals := gs, functions := fs ++ [decl], locals := decl.firstLocals } ss) ∧
        ∃ i linkage sig b journal, s.module.functions.get? id = some (.declared decl.name i linkage) ∧
          s.module.signatures.get? i = some sig ∧ Describes decl sig ∧
          BodyEmits (s.decls.markDefined decl.name) decl ss (opened s.module decl.name i linkage sig) b ∧
          s' = { module := b.close id, decls := s.decls.markDefined decl.name, journal })
      (¬ ((decl.fixedParams.map (·.name)).Nodup ∧ Lang.WellFormedBody decl.ret
        { globals := gs, functions := fs ++ [decl], locals := decl.firstLocals } ss)) := by
  obtain ⟨i, linkage, sig, hget, hsig, hdescribes⟩ := h.entry hss
  have hin := Declarations.in_markDefined h.holds.decls decl.name
  have hopen : s.module.open id = .ok ⟨s.module, .declared decl.name i linkage, none⟩ := by
    unfold Module.open
    rw [Ir.Table.get_eq_ok.mpr hget]
    rfl
  have hbody : Settles (Lower.body (s.decls.markDefined decl.name) decl ss)
      ⟨⟨s.module, .declared decl.name i linkage, none⟩, [], decl.line⟩ _ _ :=
    Lower.settles_body ss decl.line hsig hin hdescribes h.toMatch rfl
  unfold body
  refine .after (gives_modify _ _) (.after (gives_log _ _ _) (.after (gives_get _) ?_))
  refine .after (gives_ofFault hopen _) ?_
  dsimp only
  rcases hbody with ⟨⟨⟩, done, hdone, hwf, hemits⟩ | ⟨⟨e, ⟨t, ht⟩, hcause⟩, hn⟩
  · unfold Gives outcome at hdone
    rw [hdone]
    exact .of_gives (gives_modify _ _) ⟨hwf, i, linkage, sig, done.body, _, hget, hsig, hdescribes, hemits, rfl⟩
  · unfold outcome at ht
    rw [ht]
    exact Rejects.settles ⟨e, ⟨_, rfl⟩, hcause⟩ hn

/-- A function declaration is lowered exactly if it is well formed after the ones before it. -/
theorem settles_function {gs : List Binding} {fs : List FunctionDecl} {s : ProgramState} (h : Holds gs fs s)
    (decl : FunctionDecl) :
    Settles (function decl) s (fun _ s' => decl.WellFormed gs fs ∧ Holds gs (fs ++ [decl]) s')
      (¬ decl.WellFormed gs fs) := by
  have hfits (hwf : decl.WellFormed gs fs) : Fits fs decl := by
    refine ⟨?_, hwf.ret, hwf.agrees, hwf.single⟩
    intro ty hty
    obtain ⟨p, hp, rfl⟩ := List.mem_map.mp hty
    exact hwf.params p hp
  have hwf (hf : Fits fs decl) (hnames : decl.body.isSome = true → (decl.fixedParams.map (·.name)).Nodup)
      (hbody : ∀ ss, decl.body = some ss → Lang.WellFormedBody decl.ret
        { globals := gs, functions := fs ++ [decl], locals := decl.firstLocals } ss) : decl.WellFormed gs fs :=
    ⟨fun p hp => hf.params p.ty (List.mem_map.mpr ⟨p, hp, rfl⟩), hf.ret, hf.agrees, hf.single, hnames, hbody⟩
  unfold function
  refine (settles_declare h decl).bind (fun hn hall => hn (hfits hall)) ?_
  rintro id s₁ ⟨hf, hdeclared⟩
  cases hss : decl.body with
  | none =>
    refine .of_gives (gives_pure _ _) ⟨hwf hf (by rw [hss]; rintro ⟨⟩) (by rw [hss]; rintro ss ⟨⟩), ?_⟩
    have hproto : prototype decl = decl := by
      unfold prototype
      rw [← hss]
    have hholds := hdeclared.holds
    rw [hproto] at hholds
    exact hholds
  | some ss =>
    refine (settles_body hdeclared hss).mono ?_ ?_
    · rintro - s₂ ⟨⟨hnames, hwfbody⟩, i, linkage, sig, b, journal, hget, hsig, hdescribes, hemits, rfl⟩
      refine ⟨hwf hf (fun _ => hnames) ?_, hdeclared.close hss hget hsig hdescribes hemits journal⟩
      rintro ss' hss'
      rw [hss] at hss'
      cases hss'
      exact hwfbody
    · exact fun hn hall => hn ⟨hall.names (by rw [hss]; rfl), hall.body ss hss⟩

/-! ## Whole programs -/

/-- Names differ exactly if none stands among the earlier ones. -/
theorem nodup_iff (gs : List Binding) :
    (gs.map (·.name)).Nodup ↔
      ∀ earlier b later, gs = earlier ++ b :: later → earlier.find? (·.name = b.name) = none := by
  constructor
  · rintro hnodup earlier b later rfl
    rw [List.map_append, List.map_cons, List.nodup_append] at hnodup
    refine List.find?_eq_none.mpr fun c hc => ?_
    have hne := hnodup.2.2 c.name (List.mem_map.mpr ⟨c, hc, rfl⟩) b.name List.mem_cons_self
    simpa using hne
  · intro hall
    induction gs with
    | nil => exact List.nodup_nil
    | cons c gs ih =>
      rw [List.map_cons, List.nodup_cons]
      constructor
      · intro hmem
        obtain ⟨b, hb, hname⟩ := List.mem_map.mp hmem
        obtain ⟨earlier, later, rfl⟩ := List.append_of_mem hb
        have hnone := List.find?_eq_none.mp (hall (c :: earlier) b later rfl) c List.mem_cons_self
        exact hnone (decide_eq_true hname.symm)
      · refine ih fun earlier b later heq => ?_
        have hnone := List.find?_eq_none.mp (hall (c :: earlier) b later (by rw [heq]; rfl))
        exact List.find?_eq_none.mpr fun d hd => hnone d (List.mem_cons_of_mem c hd)

/-- The declarations of a program are lowered exactly if it is well formed. -/
theorem settles_declarations (p : Program) (name : String) (journal : Journal) :
    Settles (p.globals.forM global >>= fun _ => p.functions.forM function)
      { module := .empty name, decls := .empty, journal }
      (fun _ s => p.WellFormed ∧ Holds p.globals p.functions s) (¬ p.WellFormed) := by
  have hwf : p.WellFormed ↔
      (∀ earlier b later, p.globals = earlier ++ b :: later →
        earlier.find? (·.name = b.name) = none ∧ b.WellFormedGlobal) ∧
      (∀ earlier f later, p.functions = earlier ++ f :: later → f.WellFormed p.globals earlier) := by
    constructor
    · rintro ⟨hnames, hglobals, hfunctions⟩
      refine ⟨fun earlier b later heq => ⟨(nodup_iff _).mp hnames earlier b later heq, hglobals b ?_⟩, hfunctions⟩
      rw [heq]
      exact List.mem_append_right _ List.mem_cons_self
    · rintro ⟨hglobals, hfunctions⟩
      refine ⟨(nodup_iff _).mpr fun earlier b later heq => (hglobals earlier b later heq).1, ?_, hfunctions⟩
      intro b hb
      obtain ⟨earlier, later, heq⟩ := List.append_of_mem hb
      exact (hglobals earlier b later heq).2
  rw [hwf]
  have hempty := Holds.empty name journal
  refine (settles_forM (I := fun gs s => Holds gs [] s) (fun done b s h => settles_global h b) p.globals
    hempty).bind ?_ ?_
  · exact fun hn hall => hn hall.1
  · rintro - s₁ ⟨hglobals, h₁⟩
    rw [List.nil_append] at h₁
    refine (settles_forM (I := fun fs s => Holds p.globals fs s) (fun done f s h => settles_function h f)
      p.functions h₁).mono ?_ ?_
    · rintro - s₂ ⟨hfunctions, h₂⟩
      exact ⟨⟨hglobals, hfunctions⟩, h₂⟩
    · exact fun hn hall => hn hall.2

end LowerProgram

/-! ## The check -/

theorem forM_eq_ok {ε α : Type} {f : α → Except ε PUnit} {xs : List α} (h : ∀ x ∈ xs, f x = .ok ⟨⟩) :
    xs.forM f = .ok ⟨⟩ := by
  induction xs with
  | nil => rfl
  | cons x xs ih =>
    show (f x >>= fun _ => xs.forM f) = _
    rw [h x List.mem_cons_self]
    exact ih fun y hy => h y (List.mem_cons_of_mem x hy)

/-- A lowered module passes the check. -/
theorem Holds.check {gs : List Binding} {fs : List FunctionDecl} {s : ProgramState} (h : Holds gs fs s) :
    s.module.check = .ok () := by
  unfold Module.check
  refine forM_eq_ok fun f hf => ?_
  obtain ⟨k, hk⟩ := List.getElem?_of_mem hf
  have hget : s.module.functions.get? ⟨k⟩ = some f := Ir.Table.get?_eq_some_iff.mpr hk
  obtain ⟨info, -, -, hdeclared, hfin⟩ := h.functions ⟨k⟩ f hget
  cases hdef : info.defined with
  | false =>
    rw [hdeclared hdef]
    rfl
  | true =>
    obtain ⟨sig, hsig⟩ := hfin hdef
    rw [hsig.check]
    rfl

end SsaCompiler.Lowering
