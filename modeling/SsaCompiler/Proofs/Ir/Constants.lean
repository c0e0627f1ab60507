import SsaCompiler.Proofs.Ir.Edits

/-!
# Constants that are written

An instruction that names the type of its result can be written exactly where there is a block for it to
go to, and the constant that is written is read back from its value:

    b.Insertable ↔ ∃ v b', Gives (iconst (.int width) bits) b v b'                  (gives_iconst_iff)
    Gives (iconst (.int width) bits) b v b' →
      b'.func.constant? v = .ok (Constant.ofInt? (.int width) bits.toInt)           (constant?_of_iconst)
-/

namespace SsaCompiler.Ir

open Numeral (IntWidth)

/-- Where an instruction can go: the current block, or the entry block made for the want of one. -/
inductive Body.Insertable (b : Body) : Prop
  | current {c : BlockId} {block : BlockData} (h : b.current = some c) (hc : b.func.blocks.get? c = some block)
  | entry {s : Signature} (h : b.current = none) (hs : b.module.signatures.get? b.func.signature = some s)

theorem Body.AtEntry.insertable {b : Body} (h : b.AtEntry) : b.Insertable := by
  obtain ⟨block, hb⟩ := h.blocks
  have hget : b.func.blocks.get? entryId = some block := by
    rw [hb]
    rfl
  exact .current h.current hget

namespace Build

variable {b b' b₁ : Body} {c : BlockId} {block : BlockData}

/-! ## Blocks -/

theorem gives_modifyBlock_of (h : b.func.blocks.get? c = some block) (f : BlockData → BlockData) :
    Gives (modifyBlock c f) b () { b with func := { b.func with blocks := b.func.blocks.set c (f block) } } := by
  unfold modifyBlock
  exact (gives_fromFunc (Table.modify_eq_ok.mpr ⟨block, h, rfl⟩)).bind (gives_modifyFunc _ _)

theorem gives_addBlockParam_of (h : b.func.blocks.get? c = some block) (ty : Ty) :
    Gives (addBlockParam c ty) b b.func.values.next { b with func := b.func.withParam c block ty } := by
  let b₁ : Body := { b with func := { b.func with values := b.func.values.push { ty, definition := .param c } } }
  have hc : b₁.func.blocks.get? c = some block := h
  unfold addBlockParam
  refine (gives_addValue _ b).bind ?_
  exact (gives_modifyBlock_of hc _).bind (gives_pure _ _)

/-- Further parameters keep their block, and the instructions of the function. -/
theorem exists_gives_addBlockParams (tys : List Ty) (h : b.func.blocks.get? c = some block) :
    ∃ b' block', Gives (tys.forM fun ty => discard (addBlockParam c ty)) b () b' ∧
      b'.func.blocks.get? c = some block' ∧ b'.func.insts = b.func.insts := by
  induction tys generalizing b block with
  | nil => exact ⟨b, block, gives_pure _ _, h, rfl⟩
  | cons ty tys ih =>
    have hone := gives_addBlockParam_of h ty
    obtain ⟨b', block', hrest, hc, hinsts⟩ := ih (b := { b with func := b.func.withParam c block ty })
      (Table.get?_set_self _ h)
    exact ⟨b', block', hone.discard.bind hrest, hc, hinsts⟩

theorem exists_gives_initEntry {s : Signature} (hs : b.module.signatures.get? b.func.signature = some s) :
    ∃ c b' block, Gives initEntry b c b' ∧ b'.func.blocks.get? c = some block ∧ b'.func.insts = b.func.insts := by
  let b₁ : Body := { b with func := b.func.withBlock }
  let b₂ : Body := { b₁ with func := b₁.func.entering b.func.blocks.next, current := some b.func.blocks.next }
  have hc : b₂.func.blocks.get? b.func.blocks.next = some { params := #[], insts := #[] } :=
    Table.get?_push_next _ _
  obtain ⟨b', block, hparams, hblock, hinsts⟩ := exists_gives_addBlockParams s.params hc
  refine ⟨b.func.blocks.next, b', block, ?_, hblock, hinsts⟩
  have hcreate : Gives createBlock b b.func.blocks.next b₁ := rfl
  have hswitch : Gives (switchTo b.func.blocks.next) b₁ () b₂ := rfl
  unfold initEntry
  refine hcreate.bind (hswitch.bind ((gives_get b₂).bind ?_))
  refine (gives_liftM_iff.mpr ⟨Table.get_eq_ok.mpr hs, rfl⟩).bind (hparams.bind ?_)
  exact gives_pure _ _

/-- The block for an instruction is there, and making it writes no instruction. -/
theorem exists_gives_insertionBlock (h : b.Insertable) :
    ∃ c b' block, Gives insertionBlock b c b' ∧ b'.func.blocks.get? c = some block ∧
      b'.func.insts = b.func.insts := by
  unfold insertionBlock
  cases h with
  | @current c block hcurrent hc =>
    refine ⟨c, b, block, (gives_get b).bind ?_, hc, rfl⟩
    rw [hcurrent]
    exact gives_pure _ _
  | entry hcurrent hs =>
    obtain ⟨c, b', block, hentry, hc, hinsts⟩ := exists_gives_initEntry hs
    refine ⟨c, b', block, (gives_get b).bind ?_, hc, hinsts⟩
    rw [hcurrent]
    exact hentry

theorem insertable_of_gives (h : Gives insertionBlock b c b') (hc : b'.func.blocks.get? c = some block) :
    b.Insertable := by
  unfold insertionBlock at h
  simp only [gives_bind_iff, gives_get_iff] at h
  obtain ⟨b₁, b₂, ⟨rfl, rfl⟩, h⟩ := h
  cases hcurrent : b₂.current with
  | some c₁ =>
    rw [hcurrent] at h
    obtain ⟨rfl, rfl⟩ := gives_pure_iff.mp h
    exact .current hcurrent hc
  | none =>
    rw [hcurrent] at h
    unfold initEntry at h
    simp only [gives_bind_iff, gives_get_iff, gives_liftM_iff] at h
    obtain ⟨c₁, b₃, hcreate, u, b₄, hswitch, b₅, b₆, ⟨rfl, rfl⟩, s, b₇, ⟨hs, -⟩, -⟩ := h
    cases hcreate
    cases hswitch
    exact .entry hcurrent (Table.get_eq_ok.mp hs)

/-! ## Instructions -/

theorem gives_append_of (h : b.func.blocks.get? c = some block) (inst : Inst) :
    Gives (append c inst) b b.func.insts.next { b with func := b.func.withInst c block inst none } := by
  let b₁ : Body := { b with func := { b.func with insts := b.func.insts.push { inst, result := none } } }
  have hc : b₁.func.blocks.get? c = some block := h
  unfold append
  refine (gives_get b).bind ((gives_modifyFunc _ _).bind ?_)
  exact (gives_modifyBlock_of hc _).bind (gives_pure _ _)

/-- What is written by an instruction that names the type of its result. -/
theorem gives_emitTyped_iff {inst : Inst} {ty : Ty} {v : ValueId} :
    Gives (emitTyped inst ty) b v b' ↔
      ∃ c b₁ block, Gives insertionBlock b c b₁ ∧ b₁.func.blocks.get? c = some block ∧
        v = b₁.func.values.next ∧ b' = { b₁ with func := b₁.func.withInst c block inst (some ty) } := by
  constructor
  · intro h
    unfold emitTyped at h
    simp only [gives_bind_iff] at h
    obtain ⟨c, b₁, hblock, i, b₂, happend, hresult⟩ := h
    obtain ⟨block, hc, rfl, rfl⟩ := append_inv happend
    obtain ⟨rfl, rfl⟩ := addResult_inv hresult
    exact ⟨c, b₁, block, hblock, hc, rfl, rfl⟩
  · rintro ⟨c, b₁, block, hblock, hc, rfl, rfl⟩
    unfold emitTyped
    exact hblock.bind ((gives_append_of hc inst).bind (gives_addResult_last rfl ty))

theorem gives_iconst_iff {width : IntWidth} {bits : BitVec 64} :
    (∃ v b', Gives (iconst (.int width) bits) b v b') ↔ b.Insertable := by
  constructor
  · rintro ⟨v, b', h⟩
    obtain ⟨c, b₁, block, hblock, hc, -⟩ := gives_emitTyped_iff.mp h
    exact insertable_of_gives hblock hc
  · intro h
    obtain ⟨c, b₁, block, hblock, hc, -⟩ := exists_gives_insertionBlock h
    exact ⟨_, _, gives_emitTyped_iff.mpr ⟨c, b₁, block, hblock, hc, rfl, rfl⟩⟩

/-- An integer constant is the one instruction that is written, and its value is of the type. -/
theorem iconst_writes {width : IntWidth} {bits : BitVec 64} {v : ValueId}
    (h : Gives (iconst (.int width) bits) b v b') :
    b'.func.insts = b.func.insts.push ⟨.iconst (truncated width bits), some v⟩ ∧
      b'.func.values.get? v = some ⟨.int width, .result b.func.insts.next⟩ := by
  obtain ⟨c, b₁, block, hblock, hc, rfl, rfl⟩ := gives_emitTyped_iff.mp h
  have hinsts : b₁.func.insts = b.func.insts := by
    obtain ⟨c', b₁', block', hblock', -, hinsts⟩ := exists_gives_insertionBlock (insertable_of_gives hblock hc)
    obtain ⟨rfl, rfl⟩ := hblock.unique hblock'
    exact hinsts
  rw [← hinsts]
  exact ⟨rfl, Table.get?_push_next _ _⟩

end Build

/-! ## Reading constants back -/

/-- The value of an integer constant is that constant. -/
theorem Function.constant?_eq {f : Function} {v : ValueId} {i : InstId} {width : IntWidth} {bits : BitVec 64}
    {result : Option ValueId} (hv : f.values.get? v = some ⟨.int width, .result i⟩)
    (hi : f.insts.get? i = some ⟨.iconst bits, result⟩) :
    f.constant? v = .ok (Constant.ofInt? (.int width) bits.toInt) := by
  unfold Function.constant? Function.definingInst Function.valueType
  rw [Table.get_eq_ok.mpr hv]
  simp only [pure, Except.pure, bind, Except.bind, Table.get_eq_ok.mpr hi]
  rfl

/-- The lowest bits of a number's pattern are the number's pattern in fewer bits. -/
theorem setWidth_ofInt {v w : Nat} (h : v ≤ w) (n : Int) : (BitVec.ofInt w n).setWidth v = BitVec.ofInt v n := by
  have hpos : ((2 ^ w : Nat) : Int) ≠ 0 := by
    have := Nat.two_pow_pos w
    omega
  have hdvd : ((2 ^ v : Nat) : Int) ∣ ((2 ^ w : Nat) : Int) := Int.natCast_dvd_natCast.mpr (Nat.pow_dvd_pow 2 h)
  apply BitVec.eq_of_toInt_eq
  rw [BitVec.toInt_setWidth, BitVec.toInt_ofInt, BitVec.toNat_ofInt, Int.toNat_of_nonneg (Int.emod_nonneg _ hpos),
    ← Int.emod_bmod, Int.emod_emod_of_dvd _ hdvd, Int.emod_bmod]

/-- The number of a constant's pattern, cut to a width, is that of the constant. -/
theorem Build.ofInt_toInt_truncated (width : IntWidth) (bits : BitVec 64) :
    BitVec.ofInt width.bits (truncated width bits).toInt = BitVec.ofInt width.bits bits.toInt := by
  unfold truncated
  by_cases hw : width.bits ≤ 64
  · rw [BitVec.toInt_signExtend_of_le hw, BitVec.ofInt_toInt, ← setWidth_ofInt hw, BitVec.ofInt_toInt]
  · have hle : 64 ≤ width.bits := by omega
    rw [BitVec.signExtend_eq_setWidth_of_le _ hle, BitVec.setWidth_setWidth_of_le _ hle, BitVec.setWidth_eq]

theorem Build.constant?_of_iconst {b b' : Body} {width : IntWidth} {bits : BitVec 64} {v : ValueId}
    (h : Gives (iconst (.int width) bits) b v b') :
    b'.func.constant? v = .ok (Constant.ofInt? (.int width) bits.toInt) := by
  obtain ⟨hinsts, hv⟩ := iconst_writes h
  have hi : b'.func.insts.get? b.func.insts.next = some ⟨.iconst (truncated width bits), some v⟩ := by
    rw [hinsts]
    exact Table.get?_push_next _ _
  rw [Function.constant?_eq hv hi]
  show Except.ok (some (Constant.int width _)) = Except.ok (some (Constant.int width _))
  rw [ofInt_toInt_truncated]

end SsaCompiler.Ir
