import SsaCompiler.Proofs.Ir.Ssa

/-!
# Bodies that grow

`b.Extends b'` says that the tables of a body, and of its module, stand within those of a later body; of
the module only the data may differ.  `b.Grows b'` says in more detail how `b'` comes from `b` while an
expression is computed: instructions that are admitted and neither store nor end the block are added at
the end, and data is interned.  What one such step keeps, a whole computation keeps:

    b.Grows b' → Ssa b.module s b.func → Ssa b'.module s b'.func                     (Grows.ssa)
    b.Grows b' → (b'.func.Stores slot ↔ b.func.Stores slot)                          (Grows.stores_iff)
-/

namespace SsaCompiler.Ir

namespace Body

/-- A body within a later one. -/
structure Extends (b b' : Body) : Prop where
  module : ∃ data, b'.module = { b.module with data } ∧ b.module.data.Within data
  func : b.func.Within b'.func
  linkage : b'.func.linkage = b.func.linkage
  current : b'.current = b.current

namespace Extends

theorem refl (b : Body) : b.Extends b :=
  ⟨⟨b.module.data, rfl, .refl _⟩, .refl _, rfl, rfl⟩

theorem trans {b c e : Body} (h : b.Extends c) (h' : c.Extends e) : b.Extends e := by
  obtain ⟨data, hm, hd⟩ := h.module
  obtain ⟨data', hm', hd'⟩ := h'.module
  rw [hm] at hm' hd'
  exact ⟨⟨data', hm', hd.trans hd'⟩, h.func.trans h'.func, h'.linkage.trans h.linkage,
    h'.current.trans h.current⟩

theorem within {b b' : Body} (h : b.Extends b') : b.module.Within b'.module := by
  obtain ⟨data, hm, hd⟩ := h.module
  rw [hm]
  exact ⟨.refl _, .refl _, hd, fun _ f hf => ⟨f, hf, rfl, rfl⟩⟩

end Extends

theorem extends_snoc (b : Body) (inst : Inst) (ty : Option Ty) : b.Extends (b.snoc inst ty) :=
  ⟨⟨b.module.data, rfl, .refl _⟩, b.func.within_snoc inst ty, rfl, rfl⟩

theorem extends_withSlot (b : Body) (ty : Ty) (name : String) : b.Extends (b.withSlot ty name) :=
  ⟨⟨b.module.data, rfl, .refl _⟩, b.func.within_withSlot ty name, rfl, rfl⟩

theorem extends_withName (b : Body) (v : ValueId) (name : String) : b.Extends (b.withName v name) :=
  ⟨⟨b.module.data, rfl, .refl _⟩, b.func.within_withName v name, rfl, rfl⟩

theorem extends_withData (b : Body) (contents : List UInt8) : b.Extends (b.withData contents) := by
  obtain ⟨data, hm, hd, -⟩ := b.module.internData_eq contents
  exact ⟨⟨data, hm, hd⟩, .refl _, rfl, rfl⟩

end Body

/-- Whether an instruction neither stores into the frame nor ends the block. -/
def Inst.isPure : Inst → Bool
  | .stackStore .. => false
  | inst => !inst.isTerminator

theorem Inst.not_isTerminator_of_isPure {inst : Inst} (h : inst.isPure = true) : inst.isTerminator = false := by
  cases inst with
  | stackStore value slot => cases h
  | _ => simpa [Inst.isPure] using h

/-- How a body grows while an expression is computed. -/
inductive Body.Grows : Body → Body → Prop
  | refl (b : Body) : Grows b b
  | snoc {b b' : Body} {inst : Inst} {ty : Option Ty} (h : Grows b b') (hi : inst.isPure = true)
      (ha : Admits b'.module b'.func inst ty) : Grows b (b'.snoc inst ty)
  | data {b b' : Body} (h : Grows b b') (contents : List UInt8) : Grows b (b'.withData contents)

namespace Body.Grows

theorem trans {b c e : Body} (h : b.Grows c) (h' : c.Grows e) : b.Grows e := by
  induction h' with
  | refl => exact h
  | snoc _ hi ha ih => exact ih.snoc hi ha
  | data _ contents ih => exact ih.data contents

theorem toExtends {b b' : Body} (h : b.Grows b') : b.Extends b' := by
  induction h with
  | refl => exact .refl _
  | snoc _ hi ha ih => exact ih.trans (extends_snoc _ _ _)
  | data _ contents ih => exact ih.trans (extends_withData _ _)

theorem atEntry {b b' : Body} (h : b.Grows b') (hb : b.AtEntry) : b'.AtEntry := by
  induction h with
  | refl => exact hb
  | snoc _ hi ha ih => exact ih.snoc _ _
  | data _ contents ih => exact ih.withData _

theorem slots_eq {b b' : Body} (h : b.Grows b') : b'.func.slots = b.func.slots := by
  induction h with
  | refl => rfl
  | snoc _ hi ha ih => exact ih
  | data _ contents ih => exact ih

theorem ssa {b b' : Body} {s : Signature} (h : b.Grows b') (hs : Ssa b.module s b.func) :
    Ssa b'.module s b'.func := by
  induction h with
  | refl => exact hs
  | snoc _ hi ha ih => exact ih.snoc ha
  | data _ contents ih => exact ih.mono (Module.within_internData _ _)

theorem isOpen {b b' : Body} (h : b.Grows b') (ho : b.func.IsOpen) : b'.func.IsOpen := by
  induction h with
  | refl => exact ho
  | snoc _ hi ha ih => exact ih.snoc (Inst.not_isTerminator_of_isPure hi) _
  | data _ contents ih => exact ih

/-- Computing an expression stores into no slot. -/
theorem stores_iff {b b' : Body} (h : b.Grows b') (slot : SlotId) :
    b'.func.Stores slot ↔ b.func.Stores slot := by
  induction h with
  | refl => exact Iff.rfl
  | @snoc c inst ty _ hi ha ih =>
    rw [← ih]
    constructor
    · rintro ⟨i, v, hinst⟩
      rcases Function.inst?_snoc_cases hinst with ⟨-, rfl⟩ | hinst
      · cases hi
      · exact ⟨i, v, hinst⟩
    · exact fun hstores => hstores.mono (c.func.within_snoc inst ty)
  | data _ contents ih => exact ih

theorem storesAll {b b' : Body} (h : b.Grows b') (hs : b.func.StoresAll) : b'.func.StoresAll := by
  intro slot data hslot
  rw [h.slots_eq] at hslot
  exact (h.stores_iff slot).mpr (hs slot data hslot)

end Body.Grows

end SsaCompiler.Ir
