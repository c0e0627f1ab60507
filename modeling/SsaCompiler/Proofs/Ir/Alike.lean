import Mathlib.Data.List.Forall2
import SsaCompiler.Proofs.Ir.StraightLine

/-!
# Functions up to data ids

Two functions of different modules are alike if they are the same but for the ids of data objects, and ids that
stand in the same place name objects with the same bytes.  Alike bodies stay alike when the same is added to
both, also where the data that is added gets different ids:

    b.Alike c  →  (b.snoc inst ty).Alike (c.snoc inst ty)             unless inst is the address of data
    b.Alike c  →  (b.withData x with its address).Alike (c.withData x with its address)
-/

namespace SsaCompiler.Ir

variable {data data' grown grown' : Table .data DataObject}

/-- An instruction that is the same but for the id of a data object. -/
inductive Inst.Alike (data data' : Table .data DataObject) : Inst → Inst → Prop
  | same {inst : Inst} (h : ∀ i, inst ≠ .dataAddr i) : Alike data data' inst inst
  | data {i j : DataId} {x y : DataObject} (hx : data.get? i = some x) (hy : data'.get? j = some y)
      (h : x.bytes = y.bytes) : Alike data data' (.dataAddr i) (.dataAddr j)

theorem Inst.Alike.mono {x y : Inst} (h : x.Alike data data' y) (hd : data.Within grown) (hd' : data'.Within grown') :
    x.Alike grown grown' y := by
  cases h with
  | same h => exact .same h
  | data hx hy h => exact .data (hd _ _ hx) (hd' _ _ hy) h

/-- Entries of the instruction table that have the same result. -/
def InstData.Alike (data data' : Table .data DataObject) (x y : InstData) : Prop :=
  Inst.Alike data data' x.inst y.inst ∧ x.result = y.result

/-- A function that is the same but for the ids of data objects. -/
structure Function.Alike (data data' : Table .data DataObject) (f g : Function) : Prop where
  name : f.name = g.name
  signature : f.signature = g.signature
  linkage : f.linkage = g.linkage
  insts : List.Forall₂ (InstData.Alike data data') f.insts.toList g.insts.toList
  values : f.values = g.values
  names : f.names = g.names
  blocks : f.blocks = g.blocks
  order : f.order = g.order
  slots : f.slots = g.slots
  entry : f.entry = g.entry

namespace Function.Alike

variable {f g : Function}

theorem mono (h : f.Alike data data' g) (hd : data.Within grown) (hd' : data'.Within grown') :
    f.Alike grown grown' g :=
  { h with insts := h.insts.imp fun _ _ hx => ⟨hx.1.mono hd hd', hx.2⟩ }

/-- A function without instructions is like itself. -/
theorem of_empty (data data' : Table .data DataObject) (h : f.insts = .empty) : f.Alike data data' f where
  name := rfl
  signature := rfl
  linkage := rfl
  insts := by
    rw [h]
    exact .nil
  values := rfl
  names := rfl
  blocks := rfl
  order := rfl
  slots := rfl
  entry := rfl

theorem withLinkage (h : f.Alike data data' g) {linkage linkage' : Linkage} (hl : linkage = linkage') :
    { f with linkage }.Alike data data' { g with linkage := linkage' } :=
  { h with linkage := hl }

/-- The next instruction has the same id in both. -/
theorem next_insts (h : f.Alike data data' g) : f.insts.next = g.insts.next := by
  have hlength := h.insts.length_eq
  have hsize : f.insts.size = g.insts.size := by simpa [Table.size, Table.toList] using hlength
  simp [Table.next, hsize]

theorem snoc (h : f.Alike data data' g) {x y : Inst} (hinst : x.Alike data data' y) (ty : Option Ty) :
    (f.snoc x ty).Alike data data' (g.snoc y ty) where
  name := h.name
  signature := h.signature
  linkage := h.linkage
  insts := by
    rw [snoc_insts, snoc_insts, Table.toList_push, Table.toList_push]
    have hresult : (ty.map fun _ => f.values.next) = ty.map fun _ => g.values.next := by rw [h.values]
    exact List.rel_append h.insts (.cons ⟨hinst, hresult⟩ .nil)
  values := by simp only [Function.snoc, h.values, h.next_insts]
  names := h.names
  blocks := by simp only [Function.snoc, h.blocks, h.next_insts]
  order := h.order
  slots := h.slots
  entry := h.entry

theorem withSlot (h : f.Alike data data' g) (ty : Ty) (name : String) :
    (f.withSlot ty name).Alike data data' (g.withSlot ty name) :=
  { h with slots := by simp only [Function.withSlot, h.slots] }

theorem withName (h : f.Alike data data' g) (v : ValueId) (name : String) :
    (f.withName v name).Alike data data' (g.withName v name) :=
  { h with names := by simp only [Function.withName, h.names] }

end Function.Alike

/-- Bodies of functions that are alike, in modules with the same globals. -/
structure Body.Alike (b c : Body) : Prop where
  globals : b.module.globals = c.module.globals
  func : b.func.Alike b.module.data c.module.data c.func

namespace Body.Alike

variable {b c : Body}

theorem next_values (h : b.Alike c) : b.func.values.next = c.func.values.next := by
  rw [h.func.values]

theorem next_slots (h : b.Alike c) : b.func.slots.next = c.func.slots.next := by
  rw [h.func.slots]

theorem snoc (h : b.Alike c) {x y : Inst} (hinst : x.Alike b.module.data c.module.data y) (ty : Option Ty) :
    (b.snoc x ty).Alike (c.snoc y ty) :=
  ⟨h.globals, h.func.snoc hinst ty⟩

theorem withSlot (h : b.Alike c) (ty : Ty) (name : String) : (b.withSlot ty name).Alike (c.withSlot ty name) :=
  ⟨h.globals, h.func.withSlot ty name⟩

theorem withName (h : b.Alike c) (v : ValueId) (name : String) : (b.withName v name).Alike (c.withName v name) :=
  ⟨h.globals, h.func.withName v name⟩

/-- Data may get different ids in the two modules, but what is there keeps its own. -/
theorem withData (h : b.Alike c) (contents : List UInt8) :
    (b.withData contents).Alike (c.withData contents) ∧
      Inst.Alike (b.withData contents).module.data (c.withData contents).module.data
        (.dataAddr (b.module.internData contents).1) (.dataAddr (c.module.internData contents).1) := by
  obtain ⟨data, hm, hd, x, hx, hbytes⟩ := b.module.internData_eq contents
  obtain ⟨data', hm', hd', y, hy, hbytes'⟩ := c.module.internData_eq contents
  have hdata : (b.withData contents).module.data = data := by rw [Body.withData, hm]
  have hdata' : (c.withData contents).module.data = data' := by rw [Body.withData, hm']
  refine ⟨⟨?_, ?_⟩, ?_⟩
  · simp only [Body.withData, hm, hm', h.globals]
  · rw [hdata, hdata']
    exact h.func.mono hd hd'
  · rw [hdata, hdata']
    exact .data hx hy (hbytes.trans hbytes'.symm)

end Body.Alike

/-- Functions that are declared alike. -/
structure Function.SameHead (f g : Function) : Prop where
  name : f.name = g.name
  signature : f.signature = g.signature
  linkage : f.linkage = g.linkage

/-- Modules with the same globals, signatures and declared functions, of which all are alike but those with a
given name. -/
structure Module.AlikeBut (n : String) (m m' : Module) : Prop where
  globals : m.globals = m'.globals
  signatures : m.signatures = m'.signatures
  size : m.functions.size = m'.functions.size
  heads : ∀ i f g, m.functions.get? i = some f → m'.functions.get? i = some g → f.SameHead g
  alike : ∀ i f g, m.functions.get? i = some f → m'.functions.get? i = some g → f.name ≠ n →
    f.Alike m.data m'.data g

namespace Module.AlikeBut

variable {n : String} {m m' : Module}

theorem empty (n name : String) : (Module.empty name).AlikeBut n (.empty name) where
  globals := rfl
  signatures := rfl
  size := rfl
  heads := fun _ _ _ hf => absurd (Table.index_lt_of_get? hf) (Nat.not_lt_zero _)
  alike := fun _ _ _ hf => absurd (Table.index_lt_of_get? hf) (Nat.not_lt_zero _)

theorem next (h : m.AlikeBut n m') : m.functions.next = m'.functions.next := by
  simp [Table.next, h.size]

/-- A function of one module has one beside it in the other. -/
theorem exists_beside (h : m.AlikeBut n m') {i : FuncId} {f : Function} (hf : m.functions.get? i = some f) :
    ∃ g, m'.functions.get? i = some g := by
  have hlt := Table.index_lt_of_get? hf
  rw [h.size] at hlt
  exact Table.exists_get?_of_lt hlt

/-- The same global is added to both. -/
theorem pushGlobal (h : m.AlikeBut n m') (g : Global) :
    { m with globals := m.globals.push g }.AlikeBut n { m' with globals := m'.globals.push g } where
  globals := by rw [h.globals]
  signatures := h.signatures
  size := h.size
  heads := h.heads
  alike := h.alike

/-- The same function is declared in both. -/
theorem pushFunction (h : m.AlikeBut n m') (signatures : Table .signature Signature) {f : Function}
    (hf : f.insts = .empty) :
    { m with signatures, functions := m.functions.push f }.AlikeBut n
      { m' with signatures, functions := m'.functions.push f } where
  globals := h.globals
  signatures := rfl
  size := by rw [Table.size_push, Table.size_push, h.size]
  heads := by
    intro i g g' hg hg'
    rw [Table.get?_push] at hg hg'
    rw [← h.next] at hg'
    by_cases hi : i = m.functions.next
    · rw [if_pos hi] at hg hg'
      cases hg
      cases hg'
      exact ⟨rfl, rfl, rfl⟩
    · rw [if_neg hi] at hg hg'
      exact h.heads i g g' hg hg'
  alike := by
    intro i g g' hg hg' hn
    rw [Table.get?_push] at hg hg'
    rw [← h.next] at hg'
    by_cases hi : i = m.functions.next
    · rw [if_pos hi] at hg hg'
      cases hg
      cases hg'
      exact .of_empty _ _ hf
    · rw [if_neg hi] at hg hg'
      exact h.alike i g g' hg hg' hn

/-- A function of both is changed, and data may be added. -/
theorem setFunction (h : m.AlikeBut n m') (hd : m.data.Within grown) (hd' : m'.data.Within grown') {id : FuncId}
    {f f' g g' : Function} (hf : m.functions.get? id = some f) (hg : m'.functions.get? id = some g)
    (hhead : f'.SameHead g') (halike : f'.name ≠ n → f'.Alike grown grown' g') :
    { m with data := grown, functions := m.functions.set id f' }.AlikeBut n
      { m' with data := grown', functions := m'.functions.set id g' } where
  globals := h.globals
  signatures := h.signatures
  size := by simpa [Table.size, Table.set] using h.size
  heads := by
    intro i k k' hk hk'
    by_cases hi : i = id
    · subst hi
      rw [Table.get?_set_self f' hf] at hk
      rw [Table.get?_set_self g' hg] at hk'
      cases hk
      cases hk'
      exact hhead
    · rw [Table.get?_set_of_ne f' hi] at hk
      rw [Table.get?_set_of_ne g' hi] at hk'
      exact h.heads i k k' hk hk'
  alike := by
    intro i k k' hk hk' hn
    by_cases hi : i = id
    · subst hi
      rw [Table.get?_set_self f' hf] at hk
      rw [Table.get?_set_self g' hg] at hk'
      cases hk
      cases hk'
      exact halike hn
    · rw [Table.get?_set_of_ne f' hi] at hk
      rw [Table.get?_set_of_ne g' hi] at hk'
      exact (h.alike i k k' hk hk' hn).mono hd hd'

/-- A signature gets the same id in both. -/
theorem internSignature (h : m.AlikeBut n m') {s : Signature} {i i' : SigId}
    {signatures signatures' : Table .signature Signature}
    (hm : m.internSignature s = (i, { m with signatures }))
    (hm' : m'.internSignature s = (i', { m' with signatures := signatures' })) : i = i' ∧ signatures = signatures' := by
  unfold Module.internSignature at hm hm'
  rw [← h.signatures] at hm'
  cases hfind : m.signatures.findId? (· = s) with
  | some j =>
    simp only [hfind, Prod.mk.injEq] at hm hm'
    have hs := congrArg Module.signatures hm.2
    have hs' := congrArg Module.signatures hm'.2
    exact ⟨hm.1.symm.trans hm'.1, hs.symm.trans (h.signatures.trans hs')⟩
  | none =>
    simp only [hfind, Prod.mk.injEq] at hm hm'
    have hs := congrArg Module.signatures hm.2
    have hs' := congrArg Module.signatures hm'.2
    exact ⟨hm.1.symm.trans hm'.1, hs.symm.trans hs'⟩

end Module.AlikeBut

end SsaCompiler.Ir
