import SsaCompiler.Proofs.Ir.Interning

/-!
# What a script asks for

A script interns the contents and the signatures that its actions ask for, in their order, and nothing else
that it does changes these tables: an action on a body keeps the whole module around it, unless it is one
that interns.  So the tables at the end of a script, and the ids it was answered with, are told by what was
asked for:

    a.askedData = [] → KeepsModule a.run                                       (BodyAction.keepsModule_run)
    runAll actions m = (answers, result) → Asks cs ss (what the actions ask for) (what they were answered) result
                                                                               (ModuleAction.asks_of_runAll)

An action that writes to the tables of a function directly is no exception.
-/

namespace SsaCompiler.Ir

open Table (Asks)

/-! ## Calls that keep the module -/

namespace Build

/-- A computation that keeps the module around the body. -/
def KeepsModule {α : Type} (x : Build α) : Prop :=
  ∀ b a b', Gives x b a b' → b'.module = b.module

section KeepsModule

variable {α β : Type}

theorem Reads.keepsModule {x : Build α} (h : Reads x) : KeepsModule x :=
  fun b a b' hx => congrArg Body.module (h b a b' hx)

theorem keepsModule_modifyFunc (f : Function → Function) : KeepsModule (modifyFunc f) := by
  intro b u b' h
  rw [gives_modifyFunc_iff.mp h]

theorem KeepsModule.bind {x : Build α} {f : α → Build β} (hx : KeepsModule x) (hf : ∀ a, KeepsModule (f a)) :
    KeepsModule (x >>= f) := by
  intro b c b' h
  obtain ⟨a, b₁, h₁, h₂⟩ := gives_bind_iff.mp h
  exact (hf a b₁ c b' h₂).trans (hx b a b₁ h₁)

theorem keepsModule_pure (a : α) : KeepsModule (pure a) :=
  (reads_pure a).keepsModule

theorem KeepsModule.discard {x : Build α} (hx : KeepsModule x) : KeepsModule (discard x) := by
  rw [discard_eq_bind]
  exact hx.bind fun _ => keepsModule_pure _

theorem keepsModule_forM {f : α → Build PUnit} (hf : ∀ a, KeepsModule (f a)) (as : List α) :
    KeepsModule (as.forM f) := by
  induction as with
  | nil => exact keepsModule_pure _
  | cons a as ih => exact (hf a).bind fun _ => ih

/-! ### Blocks and instructions -/

theorem keepsModule_modifyBlock (c : BlockId) (f : BlockData → BlockData) : KeepsModule (modifyBlock c f) :=
  (reads_fromFunc _).keepsModule.bind fun _ => keepsModule_modifyFunc _

theorem keepsModule_addValue (data : ValueData) : KeepsModule (addValue data) :=
  reads_get.keepsModule.bind fun _ => (keepsModule_modifyFunc _).bind fun _ => keepsModule_pure _

theorem keepsModule_addBlockParam (c : BlockId) (ty : Ty) : KeepsModule (addBlockParam c ty) :=
  (keepsModule_addValue _).bind fun _ => (keepsModule_modifyBlock _ _).bind fun _ => keepsModule_pure _

theorem keepsModule_createBlock : KeepsModule createBlock :=
  reads_get.keepsModule.bind fun _ => (keepsModule_modifyFunc _).bind fun _ => keepsModule_pure _

theorem keepsModule_switchTo (c : BlockId) : KeepsModule (switchTo c) := by
  intro b u b' h
  cases h
  rfl

theorem keepsModule_initEntry : KeepsModule initEntry :=
  keepsModule_createBlock.bind fun _ => (keepsModule_switchTo _).bind fun _ =>
    reads_get.keepsModule.bind fun _ => (reads_liftM _).keepsModule.bind fun s =>
      (keepsModule_forM (fun _ => (keepsModule_addBlockParam _ _).discard) s.params).bind fun _ => keepsModule_pure _

theorem keepsModule_insertionBlock : KeepsModule insertionBlock := by
  refine reads_get.keepsModule.bind fun b => ?_
  split
  · exact keepsModule_pure _
  · exact keepsModule_initEntry

theorem keepsModule_append (c : BlockId) (inst : Inst) : KeepsModule (append c inst) :=
  reads_get.keepsModule.bind fun _ => (keepsModule_modifyFunc _).bind fun _ =>
    (keepsModule_modifyBlock _ _).bind fun _ => keepsModule_pure _

theorem keepsModule_addResult (i : InstId) (ty : Ty) : KeepsModule (addResult i ty) :=
  (keepsModule_addValue _).bind fun _ => (reads_fromFunc _).keepsModule.bind fun _ =>
    (keepsModule_modifyFunc _).bind fun _ => keepsModule_pure _

theorem keepsModule_emit (inst : Inst) : KeepsModule (emit inst) := by
  refine keepsModule_insertionBlock.bind fun c => (reads_impliedType inst).keepsModule.bind fun ty => ?_
  refine (keepsModule_append c inst).bind fun i => ?_
  cases ty with
  | none => exact keepsModule_pure _
  | some ty => exact (keepsModule_addResult i ty).bind fun _ => keepsModule_pure _

theorem keepsModule_emitValue (inst : Inst) : KeepsModule (emitValue inst) := by
  refine (keepsModule_emit inst).bind fun p => ?_
  split
  · exact keepsModule_pure _
  · exact (reads_throw _).keepsModule

theorem keepsModule_emitTyped (inst : Inst) (ty : Ty) : KeepsModule (emitTyped inst ty) :=
  keepsModule_insertionBlock.bind fun c => (keepsModule_append c inst).bind fun i => keepsModule_addResult i ty

theorem keepsModule_iconst (ty : Ty) (bits : BitVec 64) : KeepsModule (iconst ty bits) := by
  cases ty with
  | int width => exact keepsModule_emitTyped _ _
  | _ => exact (reads_throw _).keepsModule

theorem keepsModule_fconst (ty : Ty) (bits : BitVec 64) : KeepsModule (fconst ty bits) := by
  cases ty with
  | float width => exact keepsModule_emitTyped _ _
  | _ => exact (reads_throw _).keepsModule

end KeepsModule

end Build

/-! ## Actions on a body -/

/-- What actions came to that were answered in a row. -/
def answered {α β γ : Type} (of : α → β → List γ) (actions : List α) (answers : List β) : List γ :=
  (List.zipWith of actions answers).flatten

theorem answered_cons {α β γ : Type} (of : α → β → List γ) (a : α) (actions : List α) (answer : β) (answers : List β) :
    answered of (a :: actions) (answer :: answers) = of a answer ++ answered of actions answers := rfl

namespace BodyAction

open Build

/-- The contents that an action asks for. -/
def askedData : BodyAction → List (List UInt8)
  | .internData contents => [contents]
  | _ => []

/-- The contents that an action asked for, with the id it was answered with. -/
def dataIds : BodyAction → BodyAnswer → List (List UInt8 × DataId)
  | .internData contents, .data i => [(contents, i)]
  | _, _ => []

/-- Nothing is answered where a row of actions ends with a fault. -/
theorem dataIds_fault (actions : List BodyAction) (f : Fault) : answered dataIds actions [.fault f] = [] := by
  cases actions with
  | nil => rfl
  | cons a actions => cases a <;> rw [answered_cons, answered, List.zipWith_nil_right] <;> rfl

theorem dataIds_of_askedData {a : BodyAction} (h : a.askedData = []) (answer : BodyAnswer) : dataIds a answer = [] := by
  cases a with
  | internData contents => cases h
  | _ => rfl

/-- An action that asks for no contents keeps the module around the body. -/
theorem keepsModule_run {a : BodyAction} (h : a.askedData = []) : KeepsModule a.run := by
  have kept {α : Type} {x : Build α} (hx : KeepsModule x) (f : α → BodyAnswer) :
      KeepsModule (x >>= fun v => pure (f v)) := hx.bind fun _ => keepsModule_pure _
  have read {α : Type} {x : Build α} (hx : Reads x) (f : α → BodyAnswer) :
      KeepsModule (x >>= fun v => pure (f v)) := kept hx.keepsModule f
  cases a with
  | internData contents => cases h
  -- what is only read
  | position => exact (reads_get.bind fun _ => reads_get.bind fun _ => reads_pure _).keepsModule
  | signatureOf f =>
    exact (reads_get.bind fun _ => (reads_liftM _).bind fun _ => (reads_liftM _).bind fun _ => reads_pure _).keepsModule
  | describeValue v =>
    exact (reads_get.bind fun _ => (reads_liftM _).bind fun _ => (reads_liftM _).bind fun _ =>
      (reads_liftM _).bind fun _ => reads_pure _).keepsModule
  | blockParams | funcParams | slotType | describeInst | listing => exact read (reads_fromFunc _) _
  | funcParam index => exact read (reads_funcParam index) _
  | isTerminated => exact read reads_isTerminated _
  -- blocks
  | initEntry => exact kept keepsModule_initEntry _
  | createBlock => exact kept keepsModule_createBlock _
  | switchTo c => exact (keepsModule_switchTo c).bind fun _ => read reads_get _
  | insertionBlock => exact kept keepsModule_insertionBlock _
  | blockParam c ty => exact kept (keepsModule_addBlockParam c ty) _
  -- slots and names
  | slot ty name =>
    exact (reads_get.keepsModule.bind fun _ => (keepsModule_modifyFunc _).bind fun _ => keepsModule_pure _).bind
      fun _ => keepsModule_pure _
  | setName | setLinkage => exact kept (keepsModule_modifyFunc _) _
  -- instructions
  | iconst ty bits => exact kept (keepsModule_iconst ty bits) _
  | fconst ty bits => exact kept (keepsModule_fconst ty bits) _
  | convert op arg ty => exact kept (keepsModule_emitTyped _ _) _
  | binary | stackLoad | globalLoad | dataAddr => exact kept (keepsModule_emitValue _) _
  | stackStore | ret => exact kept (keepsModule_emit _).discard _
  | call callee args => exact kept (keepsModule_emit _) _
  | addInst inst c ty =>
    refine (keepsModule_append c inst).bind fun i => ?_
    cases ty with
    | none => exact keepsModule_pure _
    | some ty => exact kept (keepsModule_addResult i ty) _
  | listInst c i => exact kept (keepsModule_modifyBlock c _) _

variable {b b' : Body} {cs : List (List UInt8)} {actions : List BodyAction} {answers : List BodyAnswer}

/-- **One action** asks for its contents, and leaves the signatures. -/
theorem asks_of_gives {a : BodyAction} {answer : BodyAnswer} (h : b.module.InternsData cs)
    (hgives : Gives a.run b answer b') :
    Asks DataObject.holding cs a.askedData (dataIds a answer) (.ok b'.module.data) ∧
      b'.module.signatures = b.module.signatures := by
  by_cases hasked : a.askedData = []
  · rw [dataIds_of_askedData hasked, hasked, keepsModule_run hasked _ _ _ hgives]
    exact ⟨.nothing h rfl, rfl⟩
  · cases a with
    | internData contents =>
      obtain ⟨i, hgives, rfl⟩ := gives_answer_iff.mp hgives
      cases hgives
      exact ⟨h.asks contents, b.module.internData_signatures contents⟩
    | _ => exact absurd rfl hasked

/-- **A row of actions** asks for the contents of each in turn, and leaves the signatures. -/
theorem asks_of_runAll {result : Except Fault Body} (h : b.module.InternsData cs)
    (hrun : runAll actions b = (answers, result)) :
    Asks DataObject.holding cs (actions.flatMap askedData) (answered dataIds actions answers)
        (result.map (·.module.data)) ∧
      ∀ b', result = .ok b' → b'.module.signatures = b.module.signatures := by
  induction actions generalizing b cs answers with
  | nil =>
    cases hrun
    refine ⟨.nothing h rfl, ?_⟩
    rintro b' ⟨⟩
    rfl
  | cons a actions ih =>
    unfold runAll at hrun
    rcases hone : ExceptT.run a.run b with ⟨f | answer, b₁⟩
    · rw [hone] at hrun
      cases hrun
      rw [dataIds_fault]
      refine ⟨.fault _ f, ?_⟩
      rintro b' ⟨⟩
    · rw [hone] at hrun
      rcases hrest : runAll actions b₁ with ⟨rest, result₁⟩
      simp only [hrest] at hrun
      cases hrun
      obtain ⟨hasks, hsignatures⟩ := asks_of_gives h hone
      obtain ⟨hasks₁, hsignatures₁⟩ := ih (hasks.interns _ rfl) hrest
      exact ⟨hasks.trans hasks₁, fun b' hb' => (hsignatures₁ b' hb').trans hsignatures⟩

end BodyAction

/-! ## Actions on a module -/

namespace ModuleAction

/-- The contents that an action asks for. -/
def askedData : ModuleAction → List (List UInt8)
  | .data contents => [contents]
  | .body _ actions => actions.flatMap BodyAction.askedData
  | _ => []

/-- The signature that an action asks for. -/
def askedSignatures : ModuleAction → List Signature
  | .signature s => [s]
  | _ => []

/-- The contents that an action asked for, with the ids it was answered with. -/
def dataIds : ModuleAction → ModuleAnswer → List (List UInt8 × DataId)
  | .data contents, .data i => [(contents, i)]
  | .body _ actions, .body answers => answered BodyAction.dataIds actions answers
  | _, _ => []

/-- The signature that an action asked for, with the id it was answered with. -/
def signatureIds : ModuleAction → ModuleAnswer → List (Signature × SigId)
  | .signature s, .signature i => [(s, i)]
  | _, _ => []

variable {m : Module} {cs : List (List UInt8)} {ss : List Signature} {given : ModuleAnswer}
  {actions : List ModuleAction} {answers : List ModuleAnswer} {result : Except Fault Module}

/-- A run asks for some contents and signatures. -/
structure Asks (cs : List (List UInt8)) (ss : List Signature) (askedData : List (List UInt8))
    (askedSignatures : List Signature) (dataIds : List (List UInt8 × DataId))
    (signatureIds : List (Signature × SigId)) (result : Except Fault Module) : Prop where
  data : Table.Asks DataObject.holding cs askedData dataIds (result.map (·.data))
  signatures : Table.Asks (fun s _ => s) ss askedSignatures signatureIds (result.map (·.signatures))

/-- An action that may end with a fault, and otherwise leaves the interned tables. -/
theorem asks_nothing (hd : m.InternsData cs) (hs : m.InternsSignatures ss)
    (h : ∀ m', result = .ok m' → m'.data = m.data ∧ m'.signatures = m.signatures) :
    Asks cs ss [] [] [] [] result := by
  cases result with
  | error f => exact ⟨.fault [] f, .fault [] f⟩
  | ok m' =>
    obtain ⟨hdata, hsignatures⟩ := h m' rfl
    exact ⟨.nothing hd hdata, .nothing hs hsignatures⟩

theorem answer_asks (hd : m.InternsData cs) (hs : m.InternsSignatures ss) {x : Except Fault ModuleAnswer}
    (h : answer m x = (given, result)) : Asks cs ss [] [] [] [] result := by
  refine asks_nothing hd hs fun m' hm' => ?_
  rw [hm'] at h
  rw [answer_ok h]
  exact ⟨rfl, rfl⟩

/-- **One action** asks for its contents and its signature. -/
theorem asks_of_run {a : ModuleAction} (hd : m.InternsData cs) (hs : m.InternsSignatures ss)
    (h : a.run m = (given, result)) :
    Asks cs ss a.askedData a.askedSignatures (dataIds a given) (signatureIds a given) result := by
  cases a with
  | signature s =>
    cases h
    exact ⟨.nothing hd (m.internSignature_data s), hs.asks s⟩
  | data contents =>
    cases h
    exact ⟨hd.asks contents, .nothing hs (m.internData_signatures contents)⟩
  | declare name s linkage =>
    cases h
    exact ⟨.nothing hd rfl, .nothing hs rfl⟩
  | global name ty linkage init =>
    simp only [run] at h
    cases hadd : m.addGlobal name ty linkage init.constant? with
    | error e =>
      rw [hadd] at h
      cases h
      exact ⟨.nothing hd rfl, .nothing hs rfl⟩
    | ok p =>
      rw [hadd] at h
      cases h
      refine asks_nothing hd hs ?_
      rintro m' ⟨⟩
      rw [(Module.addGlobal_inv hadd).2]
      exact ⟨rfl, rfl⟩
  | findFunction | findGlobal =>
    cases h
    exact ⟨.nothing hd rfl, .nothing hs rfl⟩
  | signatureOf | function | listing => exact answer_asks hd hs h
  | check =>
    refine asks_nothing hd hs fun m' hm' => ?_
    simp only [run] at h
    split at h <;> cases h <;> cases hm' <;> exact ⟨rfl, rfl⟩
  | body f actions =>
    simp only [run] at h
    cases hopen : m.open f with
    | error fault =>
      rw [hopen] at h
      cases h
      refine ⟨?_, .fault [] fault⟩
      rw [show dataIds (.body f actions) (.body [.fault fault]) = [] from BodyAction.dataIds_fault actions fault]
      exact .fault _ fault
    | ok b =>
      obtain ⟨func, -, rfl⟩ := Module.open_eq_ok.mp hopen
      rw [hopen] at h
      rcases hrun : BodyAction.runAll actions { module := m, func, current := func.entry } with ⟨answers, done⟩
      simp only [hrun] at h
      cases h
      obtain ⟨hdata, hsignatures⟩ := BodyAction.asks_of_runAll hd hrun
      cases done with
      | error fault => exact ⟨hdata, .fault [] fault⟩
      | ok b' => exact ⟨hdata, .nothing hs (hsignatures b' rfl)⟩

/-- **A script** asks for what each of its actions asks for. -/
theorem asks_of_runAll (hd : m.InternsData cs) (hs : m.InternsSignatures ss)
    (h : runAll actions m = (answers, result)) :
    Asks cs ss (actions.flatMap askedData) (actions.flatMap askedSignatures) (answered dataIds actions answers)
      (answered signatureIds actions answers) result := by
  induction actions generalizing m cs ss answers with
  | nil =>
    cases h
    exact ⟨.nothing hd rfl, .nothing hs rfl⟩
  | cons a actions ih =>
    unfold runAll at h
    rcases hone : a.run m with ⟨given, fault | m₁⟩
    · rw [hone] at h
      cases h
      have hasks := asks_of_run hd hs hone
      rw [answered_cons, answered_cons, answered, List.zipWith_nil_right, answered, List.zipWith_nil_right]
      rw [List.flatten_nil, List.flatten_nil, List.append_nil, List.append_nil]
      exact ⟨hasks.data.unasked _, hasks.signatures.unasked _⟩
    · rw [hone] at h
      rcases hrest : runAll actions m₁ with ⟨rest, result₁⟩
      simp only [hrest] at h
      cases h
      have hasks := asks_of_run hd hs hone
      have hasks₁ := ih (hasks.data.interns _ rfl) (hasks.signatures.interns _ rfl) hrest
      exact ⟨hasks.data.trans hasks₁.data, hasks.signatures.trans hasks₁.signatures⟩

end ModuleAction

end SsaCompiler.Ir
