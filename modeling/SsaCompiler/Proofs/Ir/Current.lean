import SsaCompiler.Proofs.Ir.Constants
import SsaCompiler.Proofs.Ir.WellTyped

/-!
# The current block

Where a body has a current block, instructions go to the end of this block and of no other, and what writes
instructions, slots, names or data leaves the current block as it is:

    Gives initEntry b c b' → b'.At c                                                       (at_of_initEntry)
    b.At c → Gives (convert op v ty) b b.func.values.next (b with one instruction in c)    (gives_convert_at)
-/

namespace SsaCompiler.Ir

theorem Table.size_set {e : Entity} {α : Type} (t : Table e α) (i : Id e) (a : α) : (t.set i a).size = t.size := by
  simp [Table.set, Table.size]

namespace Body

/-- Whether a block is the current one, and one of the blocks that there are. -/
structure At (b : Body) (c : BlockId) : Prop where
  current : b.current = some c
  index_lt : c.index < b.func.blocks.size

theorem At.exists_block {b : Body} {c : BlockId} (h : b.At c) : ∃ block, b.func.blocks.get? c = some block :=
  Table.exists_get?_of_lt h.index_lt

end Body

namespace Build

variable {c : BlockId}

theorem Reads.preserves {α : Type} {x : Build α} (h : Reads x) (P : Body → Prop) : Preserves P x := by
  intro b a b' hx hb
  rw [h b a b' hx]
  exact hb

/-! ## Blocks -/

/-- What is written to the other tables of a function leaves its blocks. -/
theorem at_modifyFunc {f : Function → Function} (hf : ∀ g, (f g).blocks.size = g.blocks.size) :
    Preserves (·.At c) (modifyFunc f) :=
  preserves_modify fun b hb => ⟨hb.current, by rw [hf]; exact hb.index_lt⟩

theorem at_modifyBlock (d : BlockId) (f : BlockData → BlockData) : Preserves (·.At c) (modifyBlock d f) := by
  intro b u b' h hb
  obtain ⟨block, -, rfl⟩ := modifyBlock_inv h
  exact ⟨hb.current, by rw [Table.size_set]; exact hb.index_lt⟩

theorem at_addValue (data : ValueData) : Preserves (·.At c) (addValue data) :=
  preserves_get.bind fun _ => (at_modifyFunc (by intro f; rfl)).bind fun _ => preserves_pure _

theorem at_addBlockParam (d : BlockId) (ty : Ty) : Preserves (·.At c) (addBlockParam d ty) :=
  (at_addValue _).bind fun _ => (at_modifyBlock _ _).bind fun _ => preserves_pure _

/-- The entry block that is made becomes the current one. -/
theorem at_of_initEntry {b b' : Body} (h : Gives initEntry b c b') : b'.At c := by
  unfold initEntry at h
  simp only [gives_bind_iff, gives_get_iff, gives_liftM_iff, gives_pure_iff] at h
  obtain ⟨d, b₁, hcreate, u, b₂, hswitch, _, _, ⟨rfl, rfl⟩, s, _, ⟨-, rfl⟩, u', b₃, hparams, rfl, rfl⟩ := h
  cases hcreate
  cases hswitch
  refine preserves_forM (fun ty => (at_addBlockParam _ ty).discard) s.params _ _ _ hparams ⟨rfl, ?_⟩
  show b.func.blocks.size < (b.func.blocks.push _).size
  rw [Table.size_push]
  exact Nat.lt_succ_self _

/-- Where there is a current block, it is the one that instructions go to. -/
theorem gives_insertionBlock_at {b : Body} (h : b.At c) : Gives insertionBlock b c b := by
  unfold insertionBlock
  refine (gives_get b).bind ?_
  rw [h.current]
  exact gives_pure _ _

theorem at_insertionBlock : Preserves (·.At c) insertionBlock := by
  intro b d b' h hb
  obtain ⟨-, rfl⟩ := h.unique (gives_insertionBlock_at hb)
  exact hb

/-! ## Instructions -/

theorem at_append (d : BlockId) (inst : Inst) : Preserves (·.At c) (append d inst) :=
  preserves_get.bind fun _ => (at_modifyFunc (by intro f; rfl)).bind fun _ =>
    (at_modifyBlock _ _).bind fun _ => preserves_pure _

theorem at_addResult (i : InstId) (ty : Ty) : Preserves (·.At c) (addResult i ty) :=
  (at_addValue _).bind fun _ => ((reads_fromFunc _).preserves _).bind fun _ =>
    (at_modifyFunc (by intro f; rfl)).bind fun _ => preserves_pure _

theorem at_emit (inst : Inst) : Preserves (·.At c) (emit inst) := by
  refine at_insertionBlock.bind fun d => ((reads_impliedType inst).preserves _).bind fun ty => ?_
  refine (at_append d inst).bind fun i => ?_
  cases ty with
  | none => exact preserves_pure _
  | some ty => exact (at_addResult i ty).bind fun _ => preserves_pure _

theorem at_emitValue (inst : Inst) : Preserves (·.At c) (emitValue inst) := by
  refine (at_emit inst).bind fun p => ?_
  split
  · exact preserves_pure _
  · exact preserves_throw _

theorem at_emitTyped (inst : Inst) (ty : Ty) : Preserves (·.At c) (emitTyped inst ty) :=
  at_insertionBlock.bind fun d => (at_append d inst).bind fun i => at_addResult i ty

theorem at_iconst (ty : Ty) (bits : BitVec 64) : Preserves (·.At c) (iconst ty bits) := by
  cases ty with
  | int width => exact at_emitTyped _ _
  | _ => exact preserves_throw _

theorem at_fconst (ty : Ty) (bits : BitVec 64) : Preserves (·.At c) (fconst ty bits) := by
  cases ty with
  | float width => exact at_emitTyped _ _
  | _ => exact preserves_throw _

theorem at_createSlot (ty : Ty) (name : String) : Preserves (·.At c) (createSlot ty name) :=
  preserves_get.bind fun _ => (at_modifyFunc (by intro f; rfl)).bind fun _ => preserves_pure _

theorem at_setName (v : ValueId) (name : String) : Preserves (·.At c) (setName v name) :=
  at_modifyFunc (by intro f; rfl)

theorem at_internData (contents : List UInt8) : Preserves (·.At c) (internData contents) := by
  intro b d b' h hb
  cases h
  exact ⟨hb.current, hb.index_lt⟩

/-- A conversion is one instruction at the end of the current block. -/
theorem gives_convert_at {b : Body} (h : b.At c) {block : BlockData} (hc : b.func.blocks.get? c = some block)
    (op : Opcode) (v : ValueId) (ty : Ty) :
    Gives (convert op v ty) b b.func.values.next
      { b with func := b.func.withInst c block (.unary op v) (some ty) } :=
  gives_emitTyped_iff.mpr ⟨c, b, block, gives_insertionBlock_at h, hc, rfl, rfl⟩

end Build

/-- What one more instruction leaves of a function. -/
theorem Function.within_withInst (f : Function) (c : BlockId) (block : BlockData) (inst : Inst) (ty : Option Ty) :
    f.Within (f.withInst c block inst ty) := by
  refine ⟨rfl, rfl, Table.within_push _ _, ?_, .refl _⟩
  cases ty with
  | none => exact .refl _
  | some ty => exact Table.within_push _ _

theorem Function.valueType_withInst (f : Function) (c : BlockId) (block : BlockData) (inst : Inst) (ty : Ty) :
    (f.withInst c block inst (some ty)).valueType f.values.next = .ok ty :=
  valueType_eq_ok.mpr ⟨_, Table.get?_push_next _ _, rfl⟩

/-- A conversion between two types that the rules allow passes the check, whatever module it is in. -/
theorem Function.checkInst_convert {f : Function} {v : ValueId} {source target : Ty} {op : Opcode}
    (hv : f.valueType v = .ok source) (hop : op.converts source target = true) (c : BlockId) (block : BlockData)
    (m : Module) : (f.withInst c block (.unary op v) (some target)).checkInst m f.insts.next = .ok () := by
  have hwithin := f.within_withInst c block (.unary op v) (some target)
  have hinst : (f.withInst c block (.unary op v) (some target)).insts.get? f.insts.next =
      some ⟨.unary op v, some f.values.next⟩ := Table.get?_push_next _ _
  refine checkInst_of_wellTyped hinst ?_ (.unary (hwithin.valueType hv) hop)
  unfold resultType result?
  rw [hinst]
  exact f.valueType_withInst c block _ target

end SsaCompiler.Ir
