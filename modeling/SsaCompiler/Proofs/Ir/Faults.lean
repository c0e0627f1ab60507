import SsaCompiler.Proofs.Ir.Edits

/-!
# The faults that scripts end with

Whatever is read, the only fault is an id that names nothing.  Building adds the refusals of the builder,
which are about the type of a constant and the number of a parameter; but an instruction that is built for
its result has one, so a fault is always one that the caller has brought about:

    Errs Fault.IsUnknown f.listing                      (errs_listing)
    Sound a.run                                         (sound_run)
    Errs Fault.OfCaller (runAll actions m).2            (errs_runAll)
-/

namespace SsaCompiler.Ir

/-! ## Errors of one kind -/

/-- A computation that fails only with errors of a kind. -/
def Errs {ε α : Type} (p : ε → Prop) (x : Except ε α) : Prop :=
  ∀ e, x = .error e → p e

section Errs

variable {ε δ α β : Type} {p : ε → Prop}

theorem errs_pure (a : α) : Errs p (pure a) := nofun

theorem errs_throw {e : ε} (h : p e) : Errs p (throw e : Except ε α) := by
  rintro _ ⟨⟩
  exact h

theorem Errs.bind {x : Except ε α} {f : α → Except ε β} (hx : Errs p x) (hf : ∀ a, Errs p (f a)) :
    Errs p (x >>= f) := by
  cases x with
  | error e =>
    rintro _ ⟨⟩
    exact hx e rfl
  | ok a => exact hf a

theorem Errs.mapError {q : δ → Prop} {x : Except ε α} {f : ε → δ} (hx : Errs p x) (hf : ∀ e, p e → q (f e)) :
    Errs q (x.mapError f) := by
  cases x with
  | error e =>
    rintro _ ⟨⟩
    exact hf e (hx e rfl)
  | ok a => nofun

theorem errs_mapM {f : α → Except ε β} (h : ∀ a, Errs p (f a)) (as : List α) : Errs p (as.mapM f) := by
  induction as with
  | nil => exact errs_pure []
  | cons a as ih =>
    rw [List.mapM_cons]
    exact (h a).bind fun _ => ih.bind fun _ => errs_pure _

theorem errs_forM {f : α → Except ε PUnit} (h : ∀ a, Errs p (f a)) (as : List α) : Errs p (as.forM f) := by
  induction as with
  | nil => exact errs_pure _
  | cons a as ih => exact (h a).bind fun _ => ih

end Errs

/-! ## Reading -/

/-- An id that names nothing. -/
def Fault.IsUnknown (fault : Fault) : Prop :=
  ∃ e index, fault = .unknown e index

namespace Table

variable {e : Entity} {α : Type}

theorem errs_get (t : Table e α) (i : Id e) : Errs Fault.IsUnknown (t.get i) := by
  unfold get
  cases t.get? i with
  | some a => exact errs_pure a
  | none => exact errs_throw ⟨e, i.index, rfl⟩

theorem errs_modify (t : Table e α) (i : Id e) (f : α → α) : Errs Fault.IsUnknown (t.modify i f) :=
  (t.errs_get i).bind fun _ => errs_pure _

end Table

namespace Function

variable (f : Function)

theorem errs_valueType (v : ValueId) : Errs Fault.IsUnknown (f.valueType v) :=
  (f.values.errs_get v).bind fun _ => errs_pure _

theorem errs_definingInst (v : ValueId) : Errs Fault.IsUnknown (f.definingInst v) := by
  refine (f.values.errs_get v).bind fun data => ?_
  cases data.definition <;> exact errs_pure _

theorem errs_constant? (v : ValueId) : Errs Fault.IsUnknown (f.constant? v) := by
  refine (f.errs_definingInst v).bind fun i => ?_
  cases i with
  | none => exact errs_pure _
  | some i =>
    refine (f.errs_valueType v).bind fun ty => (f.insts.errs_get i).bind fun data => ?_
    split <;> exact errs_pure _

theorem errs_resultType (i : InstId) : Errs Fault.IsUnknown (f.resultType i) := by
  unfold resultType
  cases f.result? i with
  | none => exact errs_pure _
  | some v => exact f.errs_valueType v

theorem errs_lastInst? (b : BlockId) : Errs Fault.IsUnknown (f.lastInst? b) :=
  (f.blocks.errs_get b).bind fun _ => errs_pure _

theorem errs_params : Errs Fault.IsUnknown f.params := by
  unfold params
  cases f.entry with
  | none => exact errs_pure _
  | some b => exact (f.blocks.errs_get b).bind fun _ => errs_pure _

theorem errs_instText (ty : Ty) (inst : Inst) : Errs Fault.IsUnknown (f.instText .ids ty inst) := by
  cases inst with
  | stackLoad slot => exact (f.slots.errs_get slot).bind fun _ => errs_pure _
  | ret value => cases value <;> exact errs_pure _
  | _ => exact errs_pure _

theorem errs_instLine (i : InstId) : Errs Fault.IsUnknown (f.instLine .ids i) :=
  (f.insts.errs_get i).bind fun _ => (f.errs_resultType i).bind fun _ =>
    (f.errs_instText _ _).bind fun _ => errs_pure _

theorem errs_blockLines (b : BlockId) : Errs Fault.IsUnknown (f.blockLines .ids b) := by
  have hparam (v : ValueId) : Errs Fault.IsUnknown (f.paramText v) :=
    (f.errs_valueType v).bind fun _ => errs_pure _
  exact (f.blocks.errs_get b).bind fun _ => (errs_mapM hparam _).bind fun _ =>
    (errs_mapM f.errs_instLine _).bind fun _ => errs_pure _

theorem errs_listing : Errs Fault.IsUnknown f.listing := by
  unfold listing lines
  refine (errs_pure _).bind fun s => ?_
  split
  · exact (errs_mapM f.errs_blockLines _).bind fun _ => errs_pure _
  · exact errs_pure _

end Function

theorem Module.errs_signatureOf (m : Module) (f : FuncId) : Errs Fault.IsUnknown (m.signatureOf f) :=
  (m.functions.errs_get f).bind fun _ => m.signatures.errs_get _

/-! ## Checking -/

/-- A check that has not decided, for an id that names nothing. -/
def Failure.IsUnknown {ε : Type} : Failure ε → Prop
  | .error _ => True
  | .fault f => f.IsUnknown

namespace Check

theorem errs_read {α : Type} {x : Except Fault α} (h : Errs Fault.IsUnknown x) :
    Errs Failure.IsUnknown (read x) :=
  h.mapError fun _ hfault => hfault

theorem errs_require (holds : Bool) (v : Violation) : Errs Failure.IsUnknown (require holds v) := by
  unfold require
  cases holds with
  | true => exact errs_pure _
  | false => exact errs_throw trivial

end Check

namespace Function

open Check (errs_read errs_require)

variable (f : Function) (m : Module)

theorem errs_checkArgs (i : InstId) (index : Nat) (args : List ValueId) (params : List Ty) :
    Errs Failure.IsUnknown (f.checkArgs i index args params) := by
  induction args generalizing index params with
  | nil => exact errs_pure _
  | cons arg args ih =>
    cases params with
    | nil => exact errs_pure _
    | cons ty params =>
      exact (errs_read (f.errs_valueType arg)).bind fun _ => (errs_require _ _).bind fun _ => ih _ _

theorem errs_checkInst (i : InstId) : Errs Failure.IsUnknown (f.checkInst m i) := by
  have value (v : ValueId) := errs_read (f.errs_valueType v)
  refine (errs_read (f.insts.errs_get i)).bind fun data => (errs_read (f.errs_resultType i)).bind fun result => ?_
  split
  · exact (value _).bind fun _ => errs_require _ _
  · refine (value _).bind fun _ => (value _).bind fun _ => (errs_require _ _).bind fun _ =>
      (errs_require _ _).bind fun _ => ?_
    split <;> exact errs_require _ _
  · exact errs_require _ _
  · exact errs_require _ _
  · exact (errs_read (f.slots.errs_get _)).bind fun _ => errs_require _ _
  · exact (errs_read (f.slots.errs_get _)).bind fun _ => (value _).bind fun _ => errs_require _ _
  · exact errs_pure _
  · exact errs_pure _
  · exact (errs_read (m.errs_signatureOf _)).bind fun _ => (errs_require _ _).bind fun _ => f.errs_checkArgs _ _ _ _
  · refine (errs_read (m.signatures.errs_get _)).bind fun s => ?_
    dsimp only
    split
    · exact (value _).bind fun _ => errs_require _ _
    · exact errs_require _ _

theorem errs_checkInsts (b : BlockId) (last : InstId) (insts : List InstId) :
    Errs Failure.IsUnknown (f.checkInsts m b last insts) := by
  induction insts with
  | nil => exact errs_pure _
  | cons i insts ih =>
    have hrest : Errs Failure.IsUnknown (f.checkInst m i >>= fun _ => f.checkInsts m b last insts) :=
      (f.errs_checkInst m i).bind fun _ => ih
    refine (errs_read (f.insts.errs_get i)).bind fun data => ?_
    dsimp only
    split
    · cases insts with
      | nil => exact hrest
      | cons next rest => exact (errs_throw trivial).bind fun _ => hrest
    · exact hrest

theorem errs_checkBlock (b : BlockId) : Errs Failure.IsUnknown (f.checkBlock m b) := by
  refine (errs_read (f.blocks.errs_get b)).bind fun data => ?_
  dsimp only
  cases data.insts.back? with
  | none => exact errs_throw trivial
  | some last =>
    exact (f.errs_checkInsts m b last _).bind fun _ => (errs_read (f.insts.errs_get last)).bind fun _ => errs_require _ _

end Function

theorem Module.errs_check (m : Module) : Errs Failure.IsUnknown m.check := by
  refine errs_forM (fun f => Errs.mapError (p := Failure.IsUnknown) ?_ ?_) _
  · unfold Function.check
    split
    · exact errs_forM (f.errs_checkBlock m) _
    · exact errs_pure _
  · rintro (v | fault) h
    · trivial
    · exact h

/-! ## Building -/

/-- A fault that the caller of the builder has brought about: a use of an instruction without a result as a
value is the builder's own. -/
def Fault.OfCaller : Fault → Prop
  | .noResult _ => False
  | _ => True

theorem Fault.IsUnknown.ofCaller {fault : Fault} (h : fault.IsUnknown) : fault.OfCaller := by
  obtain ⟨e, index, rfl⟩ := h
  trivial

theorem Errs.ofCaller {α : Type} {x : Except Fault α} (h : Errs Fault.IsUnknown x) : Errs Fault.OfCaller x :=
  fun fault hx => (h fault hx).ofCaller

namespace Build

/-- A computation that ends early only with faults that its caller has brought about. -/
def Sound {α : Type} (x : Build α) : Prop :=
  ∀ b, Errs Fault.OfCaller (outcome x b).1

section Sound

variable {α β : Type}

theorem sound_pure (a : α) : Sound (pure a) := fun _ => errs_pure a

theorem sound_get : Sound get := fun b => errs_pure b

theorem sound_modify (f : Body → Body) : Sound (modify f) := fun _ => errs_pure PUnit.unit

theorem sound_modifyFunc (f : Function → Function) : Sound (modifyFunc f) := sound_modify _

theorem sound_throw {fault : Fault} (h : fault.OfCaller) : Sound (throw fault : Build α) := fun _ => errs_throw h

theorem sound_liftM {x : Except Fault α} (h : Errs Fault.IsUnknown x) : Sound (liftM x) := by
  intro b
  cases x with
  | error e => exact errs_throw (h.ofCaller e rfl)
  | ok a => exact errs_pure a

theorem Sound.bind {x : Build α} {f : α → Build β} (hx : Sound x) (hf : ∀ a, Sound (f a)) : Sound (x >>= f) := by
  intro b
  rw [outcome_bind]
  have hb := hx b
  rcases h : outcome x b with ⟨e | a, b₁⟩
  · rw [h] at hb
    exact errs_throw (hb e rfl)
  · exact hf a b₁

theorem sound_fromFunc {f : Function → Except Fault α} (h : ∀ func, Errs Fault.IsUnknown (f func)) :
    Sound (fromFunc f) :=
  sound_get.bind fun b => sound_liftM (h b.func)

theorem Sound.discard {x : Build α} (hx : Sound x) : Sound (discard x) := by
  rw [discard_eq_bind]
  exact hx.bind fun _ => sound_pure ()

end Sound

theorem sound_createBlock : Sound createBlock :=
  sound_get.bind fun _ => (sound_modifyFunc _).bind fun _ => sound_pure _

theorem sound_switchTo (c : BlockId) : Sound (switchTo c) :=
  (sound_modifyFunc _).bind fun _ => sound_modify _

theorem sound_modifyBlock (c : BlockId) (f : BlockData → BlockData) : Sound (modifyBlock c f) :=
  (sound_fromFunc fun func => func.blocks.errs_modify c f).bind fun _ => sound_modifyFunc _

theorem sound_addValue (data : ValueData) : Sound (addValue data) :=
  sound_get.bind fun _ => (sound_modifyFunc _).bind fun _ => sound_pure _

theorem sound_addBlockParam (c : BlockId) (ty : Ty) : Sound (addBlockParam c ty) :=
  (sound_addValue _).bind fun _ => (sound_modifyBlock c _).bind fun _ => sound_pure _

theorem sound_addBlockParams (c : BlockId) (tys : List Ty) :
    Sound (tys.forM fun ty => discard (addBlockParam c ty)) := by
  induction tys with
  | nil => exact sound_pure _
  | cons ty tys ih => exact (sound_addBlockParam c ty).discard.bind fun _ => ih

theorem sound_initEntry : Sound initEntry :=
  sound_createBlock.bind fun _ => (sound_switchTo _).bind fun _ => sound_get.bind fun b =>
    (sound_liftM (b.module.signatures.errs_get _)).bind fun _ => (sound_addBlockParams _ _).bind fun _ => sound_pure _

theorem sound_insertionBlock : Sound insertionBlock := by
  refine sound_get.bind fun b => ?_
  cases b.current with
  | some c => exact sound_pure c
  | none => exact sound_initEntry

theorem sound_append (c : BlockId) (inst : Inst) : Sound (append c inst) :=
  sound_get.bind fun _ => (sound_modifyFunc _).bind fun _ => (sound_modifyBlock c _).bind fun _ => sound_pure _

theorem sound_addResult (i : InstId) (ty : Ty) : Sound (addResult i ty) :=
  (sound_addValue _).bind fun _ => (sound_fromFunc fun func => func.insts.errs_modify i _).bind fun _ =>
    (sound_modifyFunc _).bind fun _ => sound_pure _

theorem sound_impliedType (inst : Inst) : Sound (impliedType inst) := by
  refine sound_get.bind fun b => ?_
  cases inst with
  | unary op arg => exact (sound_liftM (b.func.errs_valueType arg)).bind fun _ => sound_pure _
  | binary op lhs rhs => exact (sound_liftM (b.func.errs_valueType lhs)).bind fun _ => sound_pure _
  | stackLoad slot => exact (sound_liftM (b.func.slots.errs_get slot)).bind fun _ => sound_pure _
  | globalLoad global => exact (sound_liftM (b.module.globals.errs_get global)).bind fun _ => sound_pure _
  | call callee args => exact (sound_liftM (b.module.errs_signatureOf callee)).bind fun _ => sound_pure _
  | _ => exact sound_pure _

theorem sound_emit (inst : Inst) : Sound (emit inst) := by
  refine sound_insertionBlock.bind fun c => (sound_impliedType inst).bind fun ty =>
    (sound_append c inst).bind fun i => ?_
  cases ty with
  | none => exact sound_pure _
  | some ty => exact (sound_addResult i ty).bind fun _ => sound_pure _

theorem sound_emitTyped (inst : Inst) (ty : Ty) : Sound (emitTyped inst ty) :=
  sound_insertionBlock.bind fun c => (sound_append c inst).bind fun i => sound_addResult i ty

/-- An instruction that is built for its result has one. -/
theorem sound_emitValue {inst : Inst} (hn : inst.namesType = false)
    (hresult : ∀ m f, ¬ Module.ResultType m f inst none) : Sound (emitValue inst) := by
  intro b
  unfold emitValue
  rw [outcome_bind]
  have hb := sound_emit inst b
  rcases h : outcome (emit inst) b with ⟨e | ⟨i, _ | v⟩, b'⟩
  · rw [h] at hb
    exact errs_throw (hb e rfl)
  · obtain ⟨b₁, c, block, ty, -, -, hty, -, hnone, -⟩ := emit_inv hn h
    rw [Option.map_eq_none_iff.mp hnone.symm] at hty
    exact absurd hty (hresult _ _)
  · exact errs_pure v

theorem sound_binary (op : Opcode) (lhs rhs : ValueId) : Sound (binary op lhs rhs) :=
  sound_emitValue rfl nofun

theorem sound_stackLoad (slot : SlotId) : Sound (stackLoad slot) :=
  sound_emitValue rfl nofun

theorem sound_globalLoad (global : GlobalId) : Sound (globalLoad global) :=
  sound_emitValue rfl nofun

theorem sound_dataAddr (data : DataId) : Sound (dataAddr data) :=
  sound_emitValue rfl nofun

theorem sound_iconst (ty : Ty) (bits : BitVec 64) : Sound (iconst ty bits) := by
  unfold iconst
  cases ty with
  | int width => exact sound_emitTyped _ _
  | _ => exact sound_throw trivial

theorem sound_fconst (ty : Ty) (bits : BitVec 64) : Sound (fconst ty bits) := by
  unfold fconst
  cases ty with
  | float width => exact sound_emitTyped _ _
  | _ => exact sound_throw trivial

theorem sound_funcParam (index : Nat) : Sound (funcParam index) := by
  refine (sound_fromFunc Function.errs_params).bind fun vs => ?_
  split
  · exact sound_pure _
  · exact sound_throw trivial

theorem sound_isTerminated : Sound isTerminated := by
  refine sound_get.bind fun b => ?_
  split
  · exact sound_pure _
  · refine (sound_fromFunc fun func => func.errs_lastInst? _).bind fun i => ?_
    split
    · exact sound_pure _
    · exact (sound_fromFunc fun func => func.insts.errs_get _).bind fun _ => sound_pure _

end Build

/-! ## Scripts -/

open Build

theorem BodyAction.sound_run (a : BodyAction) : Sound a.run := by
  cases a with
  | initEntry => exact sound_initEntry.bind fun _ => sound_pure _
  | createBlock => exact sound_createBlock.bind fun _ => sound_pure _
  | switchTo c => exact (sound_switchTo c).bind fun _ => sound_get.bind fun _ => sound_pure _
  | position => exact sound_get.bind fun _ => sound_get.bind fun _ => sound_pure _
  | insertionBlock => exact sound_insertionBlock.bind fun _ => sound_pure _
  | blockParam c ty => exact (sound_addBlockParam c ty).bind fun _ => sound_pure _
  | blockParams c => exact (sound_fromFunc fun func => func.blocks.errs_get c).bind fun _ => sound_pure _
  | funcParams => exact (sound_fromFunc Function.errs_params).bind fun _ => sound_pure _
  | funcParam index => exact (sound_funcParam index).bind fun _ => sound_pure _
  | signatureOf f =>
    exact sound_get.bind fun b => (sound_liftM (b.module.functions.errs_get f)).bind fun _ =>
      (sound_liftM (b.module.signatures.errs_get _)).bind fun _ => sound_pure _
  | slot ty name =>
    exact (sound_get.bind fun _ => (sound_modifyFunc _).bind fun _ => sound_pure _).bind fun _ => sound_pure _
  | slotType s => exact (sound_fromFunc fun func => func.slots.errs_get s).bind fun _ => sound_pure _
  | setName v name => exact (sound_modifyFunc _).bind fun _ => sound_pure _
  | setLinkage linkage => exact (sound_modifyFunc _).bind fun _ => sound_pure _
  | describeValue v =>
    exact sound_get.bind fun b => (sound_liftM (b.func.errs_valueType v)).bind fun _ =>
      (sound_liftM (b.func.errs_definingInst v)).bind fun _ => (sound_liftM (b.func.errs_constant? v)).bind fun _ =>
        sound_pure _
  | describeInst i => exact (sound_fromFunc fun func => func.insts.errs_get i).bind fun _ => sound_pure _
  | iconst ty bits => exact (sound_iconst ty bits).bind fun _ => sound_pure _
  | fconst ty bits => exact (sound_fconst ty bits).bind fun _ => sound_pure _
  | binary op lhs rhs => exact (sound_binary op lhs rhs).bind fun _ => sound_pure _
  | convert op arg ty => exact (sound_emitTyped _ ty).bind fun _ => sound_pure _
  | stackLoad s => exact (sound_stackLoad s).bind fun _ => sound_pure _
  | stackStore v s => exact (sound_emit _).discard.bind fun _ => sound_pure _
  | globalLoad g => exact (sound_globalLoad g).bind fun _ => sound_pure _
  | dataAddr d => exact (sound_dataAddr d).bind fun _ => sound_pure _
  | internData contents => exact Sound.bind (fun _ => errs_pure _) fun _ => sound_pure _
  | call callee args => exact (sound_emit _).bind fun _ => sound_pure _
  | ret v => exact (sound_emit _).discard.bind fun _ => sound_pure _
  | isTerminated => exact sound_isTerminated.bind fun _ => sound_pure _
  | listing => exact (sound_fromFunc Function.errs_listing).bind fun _ => sound_pure _
  | addInst inst c ty =>
    refine (sound_append c inst).bind fun i => ?_
    cases ty with
    | none => exact sound_pure _
    | some ty => exact (sound_addResult i ty).bind fun _ => sound_pure _
  | listInst c i => exact (sound_modifyBlock c _).bind fun _ => sound_pure _

theorem BodyAction.errs_runAll (actions : List BodyAction) (b : Body) :
    Errs Fault.OfCaller (runAll actions b).2 := by
  induction actions generalizing b with
  | nil => exact errs_pure b
  | cons a actions ih =>
    have hone := sound_run a b
    unfold outcome at hone
    unfold runAll
    rcases hrun : ExceptT.run a.run b with ⟨fault | answer, b₁⟩
    · rw [hrun] at hone
      exact errs_throw (hone fault rfl)
    · exact ih b₁

namespace ModuleAction

theorem errs_answer {m : Module} {x : Except Fault ModuleAnswer} (h : Errs Fault.IsUnknown x) :
    Errs Fault.OfCaller (answer m x).2 := by
  cases x with
  | error fault => exact errs_throw (h.ofCaller fault rfl)
  | ok a => exact errs_pure m

theorem errs_run (a : ModuleAction) (m : Module) : Errs Fault.OfCaller (a.run m).2 := by
  cases a with
  | signature s => exact errs_pure _
  | declare name s linkage => exact errs_pure _
  | global name ty linkage init =>
    simp only [run]
    cases m.addGlobal name ty linkage init.constant? <;> exact errs_pure _
  | data contents => exact errs_pure _
  | findFunction name => exact errs_pure _
  | findGlobal name => exact errs_pure _
  | signatureOf f => exact errs_answer ((m.errs_signatureOf f).bind fun _ => errs_pure _)
  | function f => exact errs_answer ((m.functions.errs_get f).bind fun _ => errs_pure _)
  | listing f =>
    exact errs_answer ((m.functions.errs_get f).bind fun func => func.errs_listing.bind fun _ => errs_pure _)
  | check =>
    have hcheck := m.errs_check
    simp only [run]
    rcases h : m.check with (e | fault) | u
    · exact errs_pure m
    · exact errs_throw (Fault.IsUnknown.ofCaller (hcheck (.fault fault) h))
    · exact errs_pure m
  | body f actions =>
    have hopen : Errs Fault.IsUnknown (m.open f) := (m.functions.errs_get f).bind fun _ => errs_pure _
    simp only [run]
    cases h : m.open f with
    | error fault => exact errs_throw (hopen.ofCaller fault h)
    | ok b =>
      have hactions := BodyAction.errs_runAll actions b
      show Errs Fault.OfCaller ((BodyAction.runAll actions b).2.map (·.close f))
      cases hrun : (BodyAction.runAll actions b).2 with
      | error fault => exact errs_throw (hactions fault hrun)
      | ok b' => exact errs_pure _

/-- Whatever a script asks for, an instruction that is built for its result has one. -/
theorem errs_runAll (actions : List ModuleAction) (m : Module) : Errs Fault.OfCaller (runAll actions m).2 := by
  induction actions generalizing m with
  | nil => exact errs_pure m
  | cons a actions ih =>
    have hone := errs_run a m
    unfold runAll
    rcases hrun : a.run m with ⟨answer, fault | m₁⟩
    · rw [hrun] at hone
      exact errs_throw (hone fault rfl)
    · exact ih m₁

end ModuleAction

end SsaCompiler.Ir
