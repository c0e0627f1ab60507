import SsaCompiler.Proofs.Ir.WellTyped

/-!
# Straight-line functions in single-assignment form

`Ssa m s f` says of a function with signature `s` that it has one block, which lists all instructions
in the order of their ids, that each instruction uses only parameters and results of instructions
before it, that it is well typed, that its ids name something, and that a slot is stored into at most
once and loaded from only after that.  An instruction for which `Admits` holds may follow:

    Ssa m s f → Admits m f inst ty → Ssa m s (f.snoc inst ty)          (Ssa.snoc)

`Finished m s f` adds that the one terminator stands at the end and that every slot is stored into;
such a function passes the check (`Finished.check`).
-/

namespace SsaCompiler.Ir

/-- Whether the ids of an instruction, but for values, name something. -/
def Inst.IdsIn (m : Module) (f : Function) : Inst → Prop
  | .stackLoad slot => slot.index < f.slots.size
  | .stackStore _ slot => slot.index < f.slots.size
  | .globalLoad global => global.index < m.globals.size
  | .dataAddr data => data.index < m.data.size
  | .call callee _ => callee.index < m.functions.size
  | .unary .. | .binary .. | .iconst _ | .fconst _ | .ret _ => True

theorem Module.Within.functions_size_le {m n : Module} (h : m.Within n) :
    m.functions.size ≤ n.functions.size := by
  rcases Nat.eq_zero_or_pos m.functions.size with h0 | h0
  · omega
  · have hlast : m.functions.size - 1 < m.functions.entries.size := by show _ < m.functions.size; omega
    obtain ⟨f, hf⟩ := Table.exists_get?_of_lt (i := (⟨m.functions.size - 1⟩ : FuncId)) hlast
    obtain ⟨g, hg, -⟩ := h.functions _ _ hf
    have hlt := Table.index_lt_of_get? hg
    simp only at hlt
    omega

theorem Inst.IdsIn.mono {m n : Module} {f g : Function} (hm : m.Within n) (hf : f.Within g) {inst : Inst}
    (h : inst.IdsIn m f) : inst.IdsIn n g := by
  have hslots := hf.slots.size_le
  have hglobals := hm.globals.size_le
  have hdata := hm.data.size_le
  have hfunctions := hm.functions_size_le
  cases inst <;> simp only [Inst.IdsIn] at h ⊢ <;> omega

namespace Function

/-- Whether some instruction stores into a slot. -/
def Stores (f : Function) (slot : SlotId) : Prop :=
  ∃ i v, f.inst? i = some (.stackStore v slot)

theorem Stores.mono {f g : Function} {slot : SlotId} (h : f.Stores slot) (hf : f.Within g) : g.Stores slot := by
  obtain ⟨i, v, hi⟩ := h
  exact ⟨i, v, hf.inst? hi⟩

theorem stores_snoc (f : Function) (v : ValueId) (slot : SlotId) (ty : Option Ty) :
    (f.snoc (.stackStore v slot) ty).Stores slot :=
  ⟨f.insts.next, v, f.inst?_snoc_next _ _⟩

end Function

structure Ssa (m : Module) (s : Signature) (f : Function) : Prop where
  signature : m.signatures.get? f.signature = some s
  entry : f.entry = some entryId
  order : f.order = #[entryId]
  blocks : f.blocks =
    ⟨#[{ params := idsBelow .value s.params.length, insts := idsBelow .inst f.insts.size }]⟩
  params : ∀ (k : Nat) ty, s.params[k]? = some ty →
    f.values.get? ⟨k⟩ = some { ty, definition := .param entryId }
  /-- A value is a parameter or the result of an instruction. -/
  values : ∀ v, v.index < f.values.size → v.index < s.params.length ∨ ∃ i, f.result? i = some v
  results : ∀ i v, f.result? i = some v → ∃ ty, f.values.get? v = some { ty, definition := .result i }
  operands : ∀ i inst, f.inst? i = some inst → ∀ v ∈ inst.operands,
    v.index < s.params.length ∨ ∃ j, j.index < i.index ∧ f.result? j = some v
  typed : ∀ i inst, f.inst? i = some inst → ∃ ty, f.resultType i = .ok ty ∧ m.WellTyped f inst ty
  ids : ∀ i inst, f.inst? i = some inst → inst.IdsIn m f
  loads : ∀ i slot, f.inst? i = some (.stackLoad slot) →
    ∃ j v, j.index < i.index ∧ f.inst? j = some (.stackStore v slot)
  stores : ∀ i j v w slot, f.inst? i = some (.stackStore v slot) → f.inst? j = some (.stackStore w slot) → i = j

/-- What an instruction has to meet to be the next one, with a result of a type if there is one. -/
structure Admits (m : Module) (f : Function) (inst : Inst) (ty : Option Ty) : Prop where
  typed : m.WellTyped f inst (ty.getD .void)
  operands : ∀ v ∈ inst.operands, v.index < f.values.size
  ids : inst.IdsIn m f
  load : ∀ slot, inst = .stackLoad slot → f.Stores slot
  store : ∀ v slot, inst = .stackStore v slot → ¬ f.Stores slot

/-- Instructions that have to do neither with slots nor with functions. -/
def Inst.isPlain : Inst → Bool
  | .stackLoad _ | .stackStore .. | .call .. => false
  | _ => true

namespace Admits

variable {m : Module} {f : Function}

theorem of_isPlain {inst : Inst} {ty : Option Ty} (h : inst.isPlain = true) (ht : m.WellTyped f inst (ty.getD .void))
    (hi : inst.IdsIn m f) : Admits m f inst ty where
  typed := ht
  operands := fun v hv => ht.index_lt (by rintro callee args rfl; cases h) hv
  ids := hi
  load := by rintro slot rfl; cases h
  store := by rintro v slot rfl; cases h

theorem stackLoad {slot : SlotId} {data : SlotData} (hslot : f.slots.get? slot = some data)
    (h : f.Stores slot) : Admits m f (.stackLoad slot) (some data.ty) where
  typed := .stackLoad hslot
  operands := by rintro v ⟨⟩
  ids := Table.index_lt_of_get? hslot
  load := by rintro slot ⟨⟩; exact h
  store := by rintro v slot ⟨⟩

theorem stackStore {v : ValueId} {slot : SlotId} {data : SlotData} (hslot : f.slots.get? slot = some data)
    (hv : f.valueType v = .ok data.ty) (h : ¬ f.Stores slot) : Admits m f (.stackStore v slot) none where
  typed := .stackStore _ hslot hv
  operands := fun w hw => (Module.WellTyped.stackStore (m := m) .void hslot hv).index_lt (by rintro callee args ⟨⟩) hw
  ids := Table.index_lt_of_get? hslot
  load := by rintro slot ⟨⟩
  store := by rintro w slot ⟨⟩; exact h

end Admits

namespace Ssa

variable {m n : Module} {s : Signature} {f : Function}

/-- The module around a function and its slots may grow. -/
theorem grow (h : Ssa m s f) {g : Function} (hm : m.Within n) (hf : f.Within g) (hentry : g.entry = f.entry)
    (horder : g.order = f.order) (hblocks : g.blocks = f.blocks) (hinsts : g.insts = f.insts)
    (hvalues : g.values = f.values) : Ssa n s g := by
  have hinst : ∀ i, g.inst? i = f.inst? i := fun i => by unfold Function.inst?; rw [hinsts]
  have hresult : ∀ i, g.result? i = f.result? i := fun i => by unfold Function.result?; rw [hinsts]
  have htype : ∀ i, g.resultType i = f.resultType i := by
    intro i
    unfold Function.resultType Function.valueType
    rw [hresult, hvalues]
  refine
    { signature := by rw [hf.signature]; exact hm.signatures _ _ h.signature
      entry := hentry.trans h.entry
      order := horder.trans h.order
      blocks := by rw [hblocks, hinsts]; exact h.blocks
      params := by rw [hvalues]; exact h.params
      values := by simp only [hvalues, hresult]; exact h.values
      results := by simp only [hvalues, hresult]; exact h.results
      operands := by simp only [hinst, hresult]; exact h.operands
      typed := ?typed
      ids := by simp only [hinst]; exact fun i inst hi => (h.ids i inst hi).mono hm hf
      loads := by simp only [hinst]; exact h.loads
      stores := by simp only [hinst]; exact h.stores }
  case typed =>
    intro i inst hi
    rw [hinst] at hi
    obtain ⟨ty, hr, ht⟩ := h.typed i inst hi
    exact ⟨ty, by rw [htype]; exact hr, ht.mono hm hf⟩

theorem mono (h : Ssa m s f) (hm : m.Within n) : Ssa n s f :=
  h.grow hm (.refl f) rfl rfl rfl rfl rfl

theorem withSlot (h : Ssa m s f) (ty : Ty) (name : String) : Ssa m s (f.withSlot ty name) :=
  h.grow (.refl m) (f.within_withSlot ty name) rfl rfl rfl rfl rfl

theorem withName (h : Ssa m s f) (v : ValueId) (name : String) : Ssa m s (f.withName v name) :=
  h.grow (.refl m) (f.within_withName v name) rfl rfl rfl rfl rfl

/-- The type of a result does not change. -/
theorem resultType_snoc (f : Function) (inst : Inst) (ty : Option Ty) {i : InstId} {t : Ty}
    (hi : i ≠ f.insts.next) (hr : f.resultType i = .ok t) : (f.snoc inst ty).resultType i = .ok t := by
  unfold Function.resultType at hr ⊢
  rw [Function.result?_snoc, if_neg hi]
  cases hv : f.result? i with
  | none =>
    rw [hv] at hr
    exact hr
  | some v =>
    rw [hv] at hr
    exact (f.within_snoc inst ty).valueType hr

/-- The new instruction has the type it was made with. -/
theorem resultType_snoc_next (f : Function) (inst : Inst) (ty : Option Ty) :
    (f.snoc inst ty).resultType f.insts.next = .ok (ty.getD .void) := by
  unfold Function.resultType
  rw [Function.result?_snoc, if_pos rfl]
  cases ty with
  | none => rfl
  | some ty => exact f.snoc_valueType_next inst ty

/-- A value that was defined stays so. -/
theorem values_mono (h : Ssa m s f) {g : Function} (hf : f.Within g) {v : ValueId} (hv : v.index < f.values.size) :
    v.index < s.params.length ∨ ∃ i, i.index < f.insts.size ∧ g.result? i = some v := by
  rcases h.values v hv with hp | ⟨i, hi⟩
  · exact .inl hp
  · exact .inr ⟨i, Function.index_lt_of_result? hi, hf.result? hi⟩

theorem values_snoc (h : Ssa m s f) (inst : Inst) (ty : Option Ty) {v : ValueId}
    (hv : v.index < (f.snoc inst ty).values.size) :
    v.index < s.params.length ∨ ∃ i, (f.snoc inst ty).result? i = some v := by
  by_cases hlt : v.index < f.values.size
  · rcases h.values_mono (f.within_snoc inst ty) hlt with hp | ⟨i, -, hi⟩
    · exact .inl hp
    · exact .inr ⟨i, hi⟩
  · cases ty with
    | none => exact absurd hv hlt
    | some ty =>
      refine .inr ⟨f.insts.next, ?_⟩
      rw [Function.snoc_values_some, Table.size_push] at hv
      rw [Function.result?_snoc, if_pos rfl]
      have hindex : v.index = f.values.size := by omega
      cases v
      simp only at hindex
      subst hindex
      rfl

theorem results_snoc (h : Ssa m s f) (inst : Inst) (ty : Option Ty) {i : InstId} {v : ValueId}
    (hv : (f.snoc inst ty).result? i = some v) :
    ∃ t, (f.snoc inst ty).values.get? v = some { ty := t, definition := .result i } := by
  rw [Function.result?_snoc] at hv
  split at hv
  · next hi =>
    obtain ⟨t, ht, rfl⟩ := Option.map_eq_some_iff.mp hv
    subst ht
    exact ⟨t, by rw [hi]; exact f.snoc_get?_next inst t⟩
  · obtain ⟨t, ht⟩ := h.results i v hv
    exact ⟨t, (f.within_snoc inst ty).values _ _ ht⟩

theorem typed_snoc (h : Ssa m s f) {inst inst' : Inst} {ty : Option Ty} (ha : Admits m f inst ty) {i : InstId}
    (hi : (f.snoc inst ty).inst? i = some inst') :
    ∃ t, (f.snoc inst ty).resultType i = .ok t ∧ m.WellTyped (f.snoc inst ty) inst' t := by
  have hwithin := f.within_snoc inst ty
  rcases Function.inst?_snoc_cases hi with ⟨rfl, rfl⟩ | hi
  · exact ⟨_, resultType_snoc_next f inst' ty, ha.typed.mono (.refl m) hwithin⟩
  · have hne : i ≠ f.insts.next := by
      rintro rfl
      exact Nat.lt_irrefl _ (Function.index_lt_of_inst? hi)
    obtain ⟨t, hr, ht⟩ := h.typed i inst' hi
    exact ⟨t, resultType_snoc f inst ty hne hr, ht.mono (.refl m) hwithin⟩

/-- An instruction that is admitted keeps the form. -/
theorem snoc (h : Ssa m s f) {inst : Inst} {ty : Option Ty} (ha : Admits m f inst ty) :
    Ssa m s (f.snoc inst ty) := by
  have hwithin := f.within_snoc inst ty
  refine
    { signature := h.signature
      entry := h.entry
      order := h.order
      blocks := ?blocks
      params := fun k t hk => hwithin.values _ _ (h.params k t hk)
      values := fun v hv => h.values_snoc inst ty hv
      results := fun i v hv => h.results_snoc inst ty hv
      operands := ?operands
      typed := fun i inst' hi => h.typed_snoc ha hi
      ids := ?ids
      loads := ?loads
      stores := ?stores }
  case blocks =>
    unfold Function.snoc
    rw [h.blocks]
    simp only [Table.size_push, idsBelow_succ]
    rfl
  case operands =>
    intro i inst' hi v hv
    rcases Function.inst?_snoc_cases hi with ⟨rfl, rfl⟩ | hi
    · exact h.values_mono hwithin (ha.operands v hv)
    · rcases h.operands i inst' hi v hv with hp | ⟨j, hlt, hj⟩
      · exact .inl hp
      · exact .inr ⟨j, hlt, hwithin.result? hj⟩
  case ids =>
    intro i inst' hi
    rcases Function.inst?_snoc_cases hi with ⟨rfl, rfl⟩ | hi
    · exact ha.ids.mono (.refl m) hwithin
    · exact (h.ids i inst' hi).mono (.refl m) hwithin
  case loads =>
    intro i slot hi
    rcases Function.inst?_snoc_cases hi with ⟨rfl, heq⟩ | hi
    · obtain ⟨j, v, hj⟩ := ha.load slot heq.symm
      exact ⟨j, v, Function.index_lt_of_inst? hj, hwithin.inst? hj⟩
    · obtain ⟨j, v, hlt, hj⟩ := h.loads i slot hi
      exact ⟨j, v, hlt, hwithin.inst? hj⟩
  case stores =>
    -- a slot that is stored into by the new instruction has no store before it
    intro i j v w slot hi hj
    rcases Function.inst?_snoc_cases hi with ⟨hi, heq⟩ | hi <;> rcases Function.inst?_snoc_cases hj with ⟨hj, heq'⟩ | hj
    · rw [hi, hj]
    · exact absurd ⟨j, w, hj⟩ (ha.store v slot heq.symm)
    · exact absurd ⟨i, v, hi⟩ (ha.store w slot heq'.symm)
    · exact h.stores i j v w slot hi hj

/-- A function that was only declared begins in the form. -/
theorem opened {name : String} {i : SigId} {linkage : Linkage} (hs : m.signatures.get? i = some s) :
    Ssa m s ((Function.declared name i linkage).opened s.params) where
  signature := hs
  entry := rfl
  order := rfl
  blocks := by
    show Table.mk #[BlockData.mk (idsBelow .value (0 + s.params.length)) #[]] = _
    rw [Nat.zero_add, ← idsBelow_zero .inst]
    rfl
  params := by
    intro k ty hk
    simp [Function.opened, Function.withParams, Function.declared, Table.get?, Table.empty, hk]
  values := by
    intro v hv
    refine .inl ?_
    simpa [Function.opened, Function.withParams, Function.declared, Table.size, Table.empty] using hv
  results := fun i v hi => absurd (Function.index_lt_of_result? hi) (Nat.not_lt_zero _)
  operands := fun i inst hi => absurd (Function.index_lt_of_inst? hi) (Nat.not_lt_zero _)
  typed := fun i inst hi => absurd (Function.index_lt_of_inst? hi) (Nat.not_lt_zero _)
  ids := fun i inst hi => absurd (Function.index_lt_of_inst? hi) (Nat.not_lt_zero _)
  loads := fun i slot hi => absurd (Function.index_lt_of_inst? hi) (Nat.not_lt_zero _)
  stores := fun i j v w slot hi => absurd (Function.index_lt_of_inst? hi) (Nat.not_lt_zero _)

end Ssa

/-! ## Finished functions -/

namespace Function

/-- Whether no instruction is a terminator. -/
def IsOpen (f : Function) : Prop :=
  ∀ i inst, f.inst? i = some inst → inst.isTerminator = false

theorem IsOpen.snoc {f : Function} (h : f.IsOpen) {inst : Inst} (hinst : inst.isTerminator = false)
    (ty : Option Ty) : (f.snoc inst ty).IsOpen := by
  intro i inst' hi
  rcases inst?_snoc_cases hi with ⟨-, rfl⟩ | hi
  · exact hinst
  · exact h i inst' hi

/-- Whether every slot is stored into. -/
def StoresAll (f : Function) : Prop :=
  ∀ slot data, f.slots.get? slot = some data → f.Stores slot

end Function

/-- A function with its whole body. -/
structure Finished (m : Module) (s : Signature) (f : Function) : Prop extends Ssa m s f where
  last : ∃ i inst, f.inst? i = some inst ∧ inst.isTerminator = true ∧ i.index + 1 = f.insts.size
  others : ∀ i inst, f.inst? i = some inst → i.index + 1 < f.insts.size → inst.isTerminator = false
  stored : f.StoresAll

namespace Finished

variable {m n : Module} {s : Signature} {f : Function}

theorem mono (h : Finished m s f) (hm : m.Within n) : Finished n s f :=
  ⟨h.toSsa.mono hm, h.last, h.others, h.stored⟩

/-- A return finishes an open function whose slots are all stored into. -/
theorem of_ret (h : Ssa m s f) (ho : f.IsOpen) (hs : f.StoresAll) {value : Option ValueId}
    (ha : Admits m f (.ret value) none) : Finished m s (f.snoc (.ret value) none) where
  toSsa := h.snoc ha
  last := ⟨f.insts.next, .ret value, f.inst?_snoc_next _ _, rfl, by rw [Function.snoc_insts, Table.size_push]; rfl⟩
  others := by
    intro i inst hi hlt
    rw [Function.snoc_insts, Table.size_push] at hlt
    rcases Function.inst?_snoc_cases hi with ⟨rfl, -⟩ | hi
    · exact absurd hlt (Nat.lt_irrefl _)
    · exact ho i inst hi
  stored := by
    exact fun slot data hslot => (hs slot data hslot).mono (f.within_snoc _ _)

/-! ### The check -/

/-- Every instruction passes. -/
theorem checkInst (h : Finished m s f) {i : InstId} (hi : i.index < f.insts.size) :
    f.checkInst m i = .ok () := by
  obtain ⟨data, hd⟩ := Table.exists_get?_of_lt hi
  obtain ⟨ty, hr, ht⟩ := h.typed i data.inst (Function.inst?_eq_some.mpr ⟨data, hd, rfl⟩)
  exact Function.checkInst_of_wellTyped hd hr ht

/-- A row of instructions passes if only the last of the block is a terminator. -/
theorem checkInsts (h : Finished m s f) (b : BlockId) {last : InstId} (hlast : last.index + 1 = f.insts.size)
    (is : List InstId) (his : ∀ i ∈ is, i.index < f.insts.size) : f.checkInsts m b last is = .ok () := by
  induction is with
  | nil => rfl
  | cons i is ih =>
    have hi : i.index < f.insts.size := his i List.mem_cons_self
    have hrest := ih fun j hj => his j (List.mem_cons_of_mem i hj)
    obtain ⟨data, hd⟩ := Table.exists_get?_of_lt hi
    have hterm : (data.inst.isTerminator && decide (i ≠ last)) = false := by
      by_cases heq : i = last
      · simp [heq]
      · have hlt : i.index + 1 < f.insts.size := by
          have : i.index ≠ last.index := fun hindex => heq (by cases i; cases last; simp_all)
          omega
        simp [h.others i data.inst (Function.inst?_eq_some.mpr ⟨data, hd, rfl⟩) hlt]
    unfold Function.checkInsts
    simp only [Table.get_eq_ok.mpr hd, Check.read_ok, Check.ok_bind, hterm, h.checkInst hi]
    exact hrest

theorem check (h : Finished m s f) : f.check m = .ok () := by
  obtain ⟨last, inst, hinst, hterm, hlast⟩ := h.last
  obtain ⟨data, hd, rfl⟩ := Function.inst?_eq_some.mp hinst
  have hback : (idsBelow .inst f.insts.size).back? = some last := by
    rw [← hlast, idsBelow_succ, Array.back?_push]
  have hrow := h.checkInsts entryId hlast (idsBelow .inst f.insts.size).toList fun i hi =>
    mem_idsBelow.mp (Array.mem_toList_iff.mp hi)
  have hblock : f.blocks.get entryId = .ok ⟨idsBelow .value s.params.length, idsBelow .inst f.insts.size⟩ := by
    rw [h.blocks]
    rfl
  have hcheck : f.checkBlock m entryId = .ok () := by
    unfold Function.checkBlock
    simp only [hblock, Check.read_ok, Check.ok_bind, hback, hrow, Table.get_eq_ok.mpr hd, hterm,
      Check.require_true]
  unfold Function.check Function.isDefined
  rw [h.entry, h.order]
  show f.checkBlock m entryId >>= (fun _ => pure ()) = _
  rw [hcheck]
  rfl

end Finished

/-! ## The form without the construction -/

/-- Single assignment with definite initialization, said of the entry block and the signature. -/
structure SsaForm (m : Module) (f : Function) (s : Signature) (block : BlockData) : Prop where
  signature : m.signatures.get? f.signature = some s
  /-- There is one block, and it is the entry block. -/
  single : f.blocks.toList = [block] ∧ f.order.toList = [entryId] ∧ f.entry = some entryId
  /-- The parameters have the types of the signature in order. -/
  params : block.params.size = s.params.length ∧
    ∀ (k : Nat) ty, s.params[k]? = some ty → ∃ v, block.params[k]? = some v ∧ f.valueType v = .ok ty
  /-- Every instruction is listed once, in the order of the ids. -/
  listed : block.insts = idsBelow .inst f.insts.size
  /-- A value has one definition, as a parameter or as a result. -/
  defined : (∀ i v, f.result? i = some v → v ∉ block.params) ∧
    ∀ i j v, f.result? i = some v → f.result? j = some v → i = j
  /-- Operands are parameters or results of earlier instructions. -/
  operands : ∀ i inst, f.inst? i = some inst → ∀ v ∈ inst.operands,
    v ∈ block.params ∨ ∃ j, j.index < i.index ∧ f.result? j = some v
  ids : ∀ i inst, f.inst? i = some inst → inst.IdsIn m f
  /-- Every slot is stored into by one instruction, and loads come after it. -/
  slots : ∀ slot : SlotId, slot.index < f.slots.size →
    ∃ i v, f.inst? i = some (.stackStore v slot) ∧
      (∀ j w, f.inst? j = some (.stackStore w slot) → j = i) ∧
      ∀ j, f.inst? j = some (.stackLoad slot) → i.index < j.index

theorem Finished.ssaForm {m : Module} {s : Signature} {f : Function} (h : Finished m s f) :
    SsaForm m f s ⟨idsBelow .value s.params.length, idsBelow .inst f.insts.size⟩ where
  signature := h.signature
  single := ⟨by rw [h.blocks]; rfl, by rw [h.order], h.entry⟩
  params := by
    refine ⟨size_idsBelow _ _, ?_⟩
    intro k ty hk
    have hlt : k < s.params.length := (List.getElem?_eq_some_iff.mp hk).1
    exact ⟨⟨k⟩, getElem?_idsBelow hlt, Function.valueType_eq_ok.mpr ⟨_, h.params k ty hk, rfl⟩⟩
  listed := rfl
  defined := by
    constructor
    · intro i v hv hmem
      obtain ⟨k⟩ := v
      have hlt : k < s.params.length := mem_idsBelow.mp hmem
      obtain ⟨ty, hty⟩ := h.results i _ hv
      rw [h.params k _ (List.getElem?_eq_getElem hlt)] at hty
      cases hty
    · intro i j v hi hj
      obtain ⟨ty, hty⟩ := h.results i v hi
      obtain ⟨ty', hty'⟩ := h.results j v hj
      rw [hty] at hty'
      cases hty'
      rfl
  operands := by
    intro i inst hi v hv
    rcases h.operands i inst hi v hv with hp | hr
    · exact .inl (mem_idsBelow.mpr hp)
    · exact .inr hr
  ids := h.ids
  slots := by
    intro slot hlt
    obtain ⟨data, hdata⟩ := Table.exists_get?_of_lt hlt
    obtain ⟨i, v, hi⟩ := h.stored slot data hdata
    refine ⟨i, v, hi, fun j w hj => h.stores j i w v slot hj hi, ?_⟩
    intro j hj
    obtain ⟨k, w, hlt, hk⟩ := h.loads j slot hj
    rw [h.stores i k v w slot hi hk]
    exact hlt

end SsaCompiler.Ir
