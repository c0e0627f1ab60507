import SsaCompiler.Ir.Body
import SsaCompiler.Proofs.Running
import SsaCompiler.Proofs.Ir.Within

/-!
# Straight-line bodies

A body whose function has one block is written from its top to its bottom.  For such a body each step
of building is one equation: what comes out, and which function it leaves.

    f.snoc inst ty           `f` with an instruction at the end, with a result of type `ty` if there is one
    f.withSlot ty name       `f` with another stack slot
    f.opened tys             the declared `f` with its entry block, which takes parameters of types `tys`

    Gives (emit inst) b (i, v) (b.snoc inst ty)
-/

namespace SsaCompiler.Ir

/-- The first ids of a kind in order. -/
def idsBelow (e : Entity) (n : Nat) : Array (Id e) :=
  (Array.range n).map (⟨·⟩)

theorem idsBelow_zero (e : Entity) : idsBelow e 0 = #[] := by
  simp [idsBelow]

theorem idsBelow_succ (e : Entity) (n : Nat) : idsBelow e (n + 1) = (idsBelow e n).push ⟨n⟩ := by
  simp [idsBelow, Array.range_succ]

@[simp] theorem size_idsBelow (e : Entity) (n : Nat) : (idsBelow e n).size = n := by
  simp [idsBelow]

theorem getElem?_idsBelow {e : Entity} {n k : Nat} (h : k < n) : (idsBelow e n)[k]? = some ⟨k⟩ := by
  simp [idsBelow, h]

theorem mem_idsBelow {e : Entity} {n : Nat} {i : Id e} : i ∈ idsBelow e n ↔ i.index < n := by
  simp only [idsBelow, Array.mem_map, Array.mem_range]
  constructor
  · rintro ⟨k, hk, rfl⟩
    exact hk
  · intro h
    exact ⟨i.index, h, rfl⟩

/-- The entry block of a straight-line function. -/
def entryId : BlockId := ⟨0⟩

namespace Function

/-- The function with an instruction at the end of its block. -/
def snoc (f : Function) (inst : Inst) (ty : Option Ty) : Function :=
  { f with
    insts := f.insts.push { inst, result := ty.map fun _ => f.values.next }
    values := ty.elim f.values fun ty => f.values.push { ty, definition := .result f.insts.next }
    blocks := { entries := (f.blocks.toList.map fun b =>
      { b with insts := b.insts.push f.insts.next }).toArray } }

/-- The function with another stack slot. -/
def withSlot (f : Function) (ty : Ty) (name : String) : Function :=
  { f with slots := f.slots.push { ty, name } }

/-- The function with another name for a value. -/
def withName (f : Function) (v : ValueId) (name : String) : Function :=
  { f with names := (v, name) :: f.names }

/-- The function with further parameters of its entry block. -/
def withParams (f : Function) (tys : List Ty) : Function :=
  { f with
    values := ⟨f.values.entries ++ (tys.map fun ty => ValueData.mk ty (.param entryId)).toArray⟩
    blocks := ⟨#[{ params := idsBelow .value (f.values.size + tys.length), insts := #[] }]⟩ }

/-- A declared function with its entry block, which takes parameters of some types. -/
def opened (f : Function) (tys : List Ty) : Function :=
  { f.withParams tys with order := #[entryId], entry := some entryId }

/-! ## What a new instruction changes -/

@[simp] theorem snoc_insts (f : Function) (inst : Inst) (ty : Option Ty) :
    (f.snoc inst ty).insts = f.insts.push { inst, result := ty.map fun _ => f.values.next } := rfl

theorem snoc_values_some (f : Function) (inst : Inst) (ty : Ty) :
    (f.snoc inst (some ty)).values = f.values.push { ty, definition := .result f.insts.next } := rfl

theorem within_snoc (f : Function) (inst : Inst) (ty : Option Ty) : f.Within (f.snoc inst ty) := by
  refine ⟨rfl, rfl, Table.within_push _ _, ?_, .refl _⟩
  cases ty with
  | none => exact .refl _
  | some ty => exact Table.within_push _ _

theorem within_withSlot (f : Function) (ty : Ty) (name : String) : f.Within (f.withSlot ty name) :=
  ⟨rfl, rfl, .refl _, .refl _, Table.within_push _ _⟩

theorem within_withName (f : Function) (v : ValueId) (name : String) : f.Within (f.withName v name) :=
  ⟨rfl, rfl, .refl _, .refl _, .refl _⟩

/-- The new value has the type it was made with. -/
theorem snoc_get?_next (f : Function) (inst : Inst) (ty : Ty) :
    (f.snoc inst (some ty)).values.get? f.values.next = some { ty, definition := .result f.insts.next } :=
  Table.get?_push_next _ _

theorem valueType_eq_ok {f : Function} {v : ValueId} {ty : Ty} :
    f.valueType v = .ok ty ↔ ∃ data, f.values.get? v = some data ∧ data.ty = ty := by
  unfold valueType
  constructor
  · intro h
    cases hv : f.values.get v with
    | error e => rw [hv] at h; cases h
    | ok data =>
      rw [hv] at h
      exact ⟨data, Table.get_eq_ok.mp hv, Except.ok.inj h⟩
  · rintro ⟨data, hv, rfl⟩
    rw [Table.get_eq_ok.mpr hv]
    rfl

theorem index_lt_of_valueType {f : Function} {v : ValueId} {ty : Ty} (h : f.valueType v = .ok ty) :
    v.index < f.values.size := by
  obtain ⟨data, hd, -⟩ := valueType_eq_ok.mp h
  exact Table.index_lt_of_get? hd

theorem Within.valueType {f g : Function} (h : f.Within g) {v : ValueId} {ty : Ty} (hv : f.valueType v = .ok ty) :
    g.valueType v = .ok ty := by
  obtain ⟨data, hd, hty⟩ := valueType_eq_ok.mp hv
  exact valueType_eq_ok.mpr ⟨data, h.values _ _ hd, hty⟩

theorem snoc_valueType_next (f : Function) (inst : Inst) (ty : Ty) :
    (f.snoc inst (some ty)).valueType f.values.next = .ok ty :=
  valueType_eq_ok.mpr ⟨_, f.snoc_get?_next inst ty, rfl⟩

end Function

namespace Body

/-- A body whose one block is the current one. -/
structure AtEntry (b : Body) : Prop where
  current : b.current = some entryId
  blocks : ∃ block, b.func.blocks = ⟨#[block]⟩

def snoc (b : Body) (inst : Inst) (ty : Option Ty) : Body :=
  { b with func := b.func.snoc inst ty }

def withSlot (b : Body) (ty : Ty) (name : String) : Body :=
  { b with func := b.func.withSlot ty name }

def withName (b : Body) (v : ValueId) (name : String) : Body :=
  { b with func := b.func.withName v name }

/-- The body with some data interned in its module. -/
def withData (b : Body) (contents : List UInt8) : Body :=
  { b with module := (b.module.internData contents).2 }

theorem AtEntry.snoc {b : Body} (h : b.AtEntry) (inst : Inst) (ty : Option Ty) : (b.snoc inst ty).AtEntry := by
  obtain ⟨block, hb⟩ := h.blocks
  exact ⟨h.current, _, by simp only [Body.snoc, Function.snoc, hb]; rfl⟩

theorem AtEntry.withSlot {b : Body} (h : b.AtEntry) (ty : Ty) (name : String) : (b.withSlot ty name).AtEntry :=
  ⟨h.current, h.blocks⟩

theorem AtEntry.withName {b : Body} (h : b.AtEntry) (v : ValueId) (name : String) : (b.withName v name).AtEntry :=
  ⟨h.current, h.blocks⟩

theorem AtEntry.withData {b : Body} (h : b.AtEntry) (contents : List UInt8) : (b.withData contents).AtEntry :=
  ⟨h.current, h.blocks⟩

end Body

/-! ## Building at the entry block -/

namespace Build

variable {b : Body}

theorem gives_insertionBlock (h : b.AtEntry) : Gives insertionBlock b entryId b := by
  refine (gives_get b).bind ?_
  rw [h.current]
  exact gives_pure _ _

theorem gives_modifyFunc (f : Function → Function) (b : Body) :
    Gives (modifyFunc f) b () { b with func := f b.func } := rfl

theorem gives_addValue (data : ValueData) (b : Body) :
    Gives (addValue data) b b.func.values.next
      { b with func := { b.func with values := b.func.values.push data } } := rfl

theorem gives_fromFunc {α : Type} {f : Function → Except Fault α} {b : Body} {a : α} (h : f b.func = .ok a) :
    Gives (fromFunc f) b a b := by
  unfold fromFunc
  refine (gives_get b).bind ?_
  rw [h]
  rfl

theorem gives_modifyBlock {block : BlockData} (h : b.func.blocks = ⟨#[block]⟩) (f : BlockData → BlockData) :
    Gives (modifyBlock entryId f) b () { b with func := { b.func with blocks := ⟨#[f block]⟩ } } := by
  have hb : b.func.blocks.modify entryId f = .ok ⟨#[f block]⟩ := by
    rw [h]
    rfl
  unfold modifyBlock
  exact (gives_fromFunc hb).bind (gives_modifyFunc _ _)

theorem gives_append (h : b.AtEntry) (inst : Inst) :
    Gives (append entryId inst) b b.func.insts.next (b.snoc inst none) := by
  obtain ⟨block, hb⟩ := h.blocks
  let b' : Body := { b with func := { b.func with insts := b.func.insts.push { inst, result := none } } }
  have hb' : b'.func.blocks = ⟨#[block]⟩ := hb
  unfold append
  refine (gives_get b).bind ?_
  refine (gives_modifyFunc _ _).bind ?_
  refine (gives_modifyBlock hb' _).bind ?_
  unfold Body.snoc Function.snoc
  rw [hb]
  exact gives_pure _ _

/-- The last instruction is given a result. -/
theorem gives_addResult_last {insts : Table .inst InstData} {inst : Inst}
    (h : b.func.insts = insts.push { inst, result := none }) (ty : Ty) :
    Gives (addResult insts.next ty) b b.func.values.next
      { b with func := { b.func with
          values := b.func.values.push { ty, definition := .result insts.next }
          insts := insts.push { inst, result := some b.func.values.next } } } := by
  have hlast : b.func.insts.modify insts.next ({ · with result := some b.func.values.next }) =
      .ok (insts.push { inst, result := some b.func.values.next }) := by
    rw [h]
    exact Table.modify_push_next _ _ _
  unfold addResult
  refine (gives_addValue _ b).bind ?_
  refine (gives_fromFunc hlast).bind ?_
  exact (gives_modifyFunc _ _).bind (gives_pure _ _)

theorem gives_addResult (b : Body) (inst : Inst) (ty : Ty) :
    Gives (addResult b.func.insts.next ty) (b.snoc inst none) b.func.values.next (b.snoc inst (some ty)) :=
  gives_addResult_last rfl ty

/-- An instruction that names the type of its result. -/
theorem gives_emitTyped (h : b.AtEntry) (inst : Inst) (ty : Ty) :
    Gives (emitTyped inst ty) b b.func.values.next (b.snoc inst (some ty)) := by
  unfold emitTyped
  refine (gives_insertionBlock h).bind ?_
  refine (gives_append h inst).bind ?_
  exact gives_addResult b inst ty

/-- An instruction whose operands decide the type of its result. -/
theorem gives_emit (h : b.AtEntry) {inst : Inst} {ty : Option Ty} (ht : Gives (impliedType inst) b ty b) :
    Gives (emit inst) b (b.func.insts.next, ty.map fun _ => b.func.values.next) (b.snoc inst ty) := by
  unfold emit
  refine (gives_insertionBlock h).bind ?_
  refine ht.bind ?_
  refine (gives_append h inst).bind ?_
  cases ty with
  | none => exact gives_pure _ _
  | some ty =>
    refine (gives_addResult b inst ty).bind ?_
    exact gives_pure _ _

theorem gives_emitValue (h : b.AtEntry) {inst : Inst} {ty : Ty} (ht : Gives (impliedType inst) b (some ty) b) :
    Gives (emitValue inst) b b.func.values.next (b.snoc inst (some ty)) := by
  unfold emitValue
  refine (gives_emit h ht).bind ?_
  exact gives_pure _ _

theorem gives_convert (h : b.AtEntry) (op : Opcode) (v : ValueId) (ty : Ty) :
    Gives (convert op v ty) b b.func.values.next (b.snoc (.unary op v) (some ty)) :=
  gives_emitTyped h _ _

theorem gives_iconst (h : b.AtEntry) (width : Numeral.IntWidth) (bits : BitVec 64) :
    Gives (iconst (.int width) bits) b b.func.values.next
      (b.snoc (.iconst (truncated width bits)) (some (.int width))) :=
  gives_emitTyped h _ _

theorem gives_fconst (h : b.AtEntry) (width : Numeral.FloatWidth) (bits : BitVec 64) :
    Gives (fconst (.float width) bits) b b.func.values.next (b.snoc (.fconst bits) (some (.float width))) :=
  gives_emitTyped h _ _

theorem gives_binary (h : b.AtEntry) {op : Opcode} {lhs rhs : ValueId} {ty : Ty}
    (hl : b.func.valueType lhs = .ok ty) :
    Gives (binary op lhs rhs) b b.func.values.next (b.snoc (.binary op lhs rhs) (some ty)) := by
  refine gives_emitValue h ?_
  refine (gives_get b).bind ?_
  simp only [hl]
  rfl

theorem gives_stackLoad (h : b.AtEntry) {slot : SlotId} {data : SlotData}
    (hs : b.func.slots.get? slot = some data) :
    Gives (stackLoad slot) b b.func.values.next (b.snoc (.stackLoad slot) (some data.ty)) := by
  refine gives_emitValue h ?_
  refine (gives_get b).bind ?_
  simp only [Table.get_eq_ok.mpr hs]
  rfl

theorem gives_globalLoad (h : b.AtEntry) {i : GlobalId} {g : Global}
    (hg : b.module.globals.get? i = some g) :
    Gives (globalLoad i) b b.func.values.next (b.snoc (.globalLoad i) (some g.ty)) := by
  refine gives_emitValue h ?_
  refine (gives_get b).bind ?_
  simp only [Table.get_eq_ok.mpr hg]
  rfl

theorem gives_dataAddr (h : b.AtEntry) (i : DataId) :
    Gives (dataAddr i) b b.func.values.next (b.snoc (.dataAddr i) (some .ptr)) := by
  refine gives_emitValue h ?_
  exact (gives_get b).bind (gives_pure _ _)

theorem gives_stackStore (h : b.AtEntry) (v : ValueId) (slot : SlotId) :
    Gives (stackStore v slot) b () (b.snoc (.stackStore v slot) none) := by
  have ht : Gives (impliedType (.stackStore v slot)) b none b := (gives_get b).bind (gives_pure _ _)
  exact (gives_emit h ht).discard

theorem gives_ret (h : b.AtEntry) (v : Option ValueId) :
    Gives (ret v) b () (b.snoc (.ret v) none) := by
  have ht : Gives (impliedType (.ret v)) b none b := (gives_get b).bind (gives_pure _ _)
  exact (gives_emit h ht).discard

end Build

/-- The type of the result of a call, which has one unless `void` is returned. -/
def Ty.result? (ty : Ty) : Option Ty :=
  if ty = .void then none else some ty

namespace Build

variable {b : Body}

theorem gives_call (h : b.AtEntry) {callee : FuncId} {s : Signature} (hs : b.module.signatureOf callee = .ok s)
    (args : List ValueId) :
    Gives (call callee args) b (b.func.insts.next, s.ret.result?.map fun _ => b.func.values.next)
      (b.snoc (.call callee args) s.ret.result?) := by
  refine gives_emit h ?_
  refine (gives_get b).bind ?_
  simp only [hs]
  rfl

theorem gives_addBlockParam (b : Body) (ty : Ty)
    (h : b.func.blocks = ⟨#[{ params := idsBelow .value b.func.values.size, insts := #[] }]⟩) :
    Gives (addBlockParam entryId ty) b b.func.values.next { b with func := b.func.withParams [ty] } := by
  let data : ValueData := { ty, definition := .param entryId }
  let b' : Body := { b with func := { b.func with values := b.func.values.push data } }
  have hb' : b'.func.blocks = ⟨#[{ params := idsBelow .value b.func.values.size, insts := #[] }]⟩ := h
  unfold addBlockParam
  refine (gives_addValue data b).bind ?_
  refine (gives_modifyBlock hb' _).bind ?_
  unfold Function.withParams
  rw [show b.func.values.size + [ty].length = b.func.values.size + 1 from rfl, idsBelow_succ]
  simp only [List.map_cons, List.map_nil]
  exact gives_pure _ _

theorem gives_addBlockParams (tys : List Ty) (b : Body)
    (h : b.func.blocks = ⟨#[{ params := idsBelow .value b.func.values.size, insts := #[] }]⟩) :
    Gives (tys.forM fun ty => discard (addBlockParam entryId ty)) b ()
      { b with func := b.func.withParams tys } := by
  induction tys generalizing b with
  | nil =>
    have hf : b.func.withParams [] = b.func := by simp [Function.withParams, ← h]
    rw [hf]
    exact gives_pure _ _
  | cons ty tys ih =>
    have hone := gives_addBlockParam b ty h
    have hrest := ih { b with func := b.func.withParams [ty] } (by simp [Function.withParams, Table.size])
    have hf : (b.func.withParams [ty]).withParams tys = b.func.withParams (ty :: tys) := by
      simp [Function.withParams, Table.size, Nat.add_comm 1, Nat.add_assoc]
    rw [← hf]
    exact hone.discard.bind hrest

/-- The first block that is entered becomes the entry block. -/
theorem gives_switchTo (b : Body) (h : b.func.order = #[]) (h' : b.func.entry = none) :
    Gives (switchTo entryId) b ()
      ⟨b.module, { b.func with order := #[entryId], entry := some entryId }, some entryId⟩ := by
  unfold switchTo
  refine (gives_modifyFunc _ _).bind ?_
  simp only [h, h', List.contains_toArray]
  exact gives_modify _ _

/-- Opening a declared function makes the entry block the current one. -/
theorem gives_initEntry {m : Module} {name : String} {i : SigId} {linkage : Linkage} {s : Signature}
    (hs : m.signatures.get? i = some s) :
    Gives initEntry ⟨m, .declared name i linkage, none⟩ entryId
      ⟨m, (Function.declared name i linkage).opened s.params, some entryId⟩ := by
  let f : Function := { Function.declared name i linkage with blocks := ⟨#[⟨#[], #[]⟩]⟩ }
  let b : Body := ⟨m, { f with order := #[entryId], entry := some entryId }, some entryId⟩
  have hcreate : Gives createBlock ⟨m, .declared name i linkage, none⟩ entryId ⟨m, f, none⟩ := rfl
  have hblocks : b.func.blocks = ⟨#[{ params := idsBelow .value b.func.values.size, insts := #[] }]⟩ := by
    rw [show b.func.values.size = 0 from rfl, idsBelow_zero]
  have hparams := gives_addBlockParams s.params b hblocks
  unfold initEntry
  refine hcreate.bind ?_
  refine (gives_switchTo ⟨m, f, none⟩ rfl rfl).bind ?_
  refine (gives_get b).bind ?_
  simp only [b, f, Function.declared, Table.get_eq_ok.mpr hs]
  exact (gives_pure _ _).bind (hparams.bind (gives_pure _ _))

theorem gives_createSlot (b : Body) (ty : Ty) (name : String) :
    Gives (createSlot ty name) b b.func.slots.next (b.withSlot ty name) := rfl

theorem gives_setName (b : Body) (v : ValueId) (name : String) :
    Gives (setName v name) b () (b.withName v name) := rfl

theorem gives_internData (b : Body) (contents : List UInt8) :
    Gives (internData contents) b (b.module.internData contents).1 (b.withData contents) := rfl

end Build

end SsaCompiler.Ir
