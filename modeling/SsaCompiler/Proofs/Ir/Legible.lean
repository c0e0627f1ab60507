import SsaCompiler.Proofs.Ir.Outline

/-!
# Legible modules

A module is legible if its names are words, its numbers are numbers, the type of each result follows from what
the listing shows, and names and signatures are told apart by where they stand.  A legible module has lines
(`Module.Legible.exists_outline`), and they are written with words (`Function.Legible.isWritten`).
-/

namespace SsaCompiler.Ir

open Numeral (IntWidth FloatWidth)
open Text (IsWord)

/-- Instructions that are listed with what decides the type of their result. -/
inductive Inst.Legible (m : Module) : Inst → Option Ty → Prop
  | unary {op : Opcode} (arg : ValueId) (ty : Ty) (h : op.isConversion = true) : Legible m (.unary op arg) (some ty)
  | binary {op : Opcode} (lhs rhs : ValueId) (ty : Ty) (h : op.isArithmetic = true) :
      Legible m (.binary op lhs rhs) (some ty)
  | iconst (width : IntWidth) (bits : BitVec 64) : Legible m (.iconst bits) (some (.int width))
  | fconst {width : FloatWidth} {bits : BitVec 64} (h : width.IsNumber bits.toNat) :
      Legible m (.fconst bits) (some (.float width))
  | stackLoad (slot : SlotId) (ty : Ty) : Legible m (.stackLoad slot) (some ty)
  | stackStore (value : ValueId) (slot : SlotId) : Legible m (.stackStore value slot) none
  | globalLoad {i : GlobalId} {g : Global} (h : m.globals.get? i = some g) : Legible m (.globalLoad i) (some g.ty)
  | dataAddr (i : DataId) : Legible m (.dataAddr i) (some .ptr)
  | call {i : FuncId} {s : Signature} (args : List ValueId) (h : m.signatureOf i = .ok s) :
      Legible m (.call i args) s.ret.result?
  | ret (value : Option ValueId) : Legible m (.ret value) none

theorem Inst.Legible.mono {m n : Module} {inst : Inst} {ty : Option Ty} (h : inst.Legible m ty) (hm : m.Within n) :
    inst.Legible n ty := by
  cases h with
  | unary arg ty h => exact .unary arg ty h
  | binary lhs rhs ty h => exact .binary lhs rhs ty h
  | iconst width bits => exact .iconst width bits
  | fconst h => exact .fconst h
  | stackLoad slot ty => exact .stackLoad slot ty
  | stackStore value slot => exact .stackStore value slot
  | globalLoad h => exact .globalLoad (hm.globals _ _ h)
  | dataAddr i => exact .dataAddr i
  | call args h => exact .call args (hm.signatureOf h)
  | ret value => exact .ret value

/-! ## Functions -/

theorem Table.exists_get?_of_mem {e : Entity} {α : Type} {t : Table e α} {a : α} (h : a ∈ t.toList) :
    ∃ i, t.get? i = some a := by
  obtain ⟨k, hk⟩ := List.getElem?_of_mem h
  exact ⟨⟨k⟩, get?_eq_some_iff.mpr hk⟩

namespace Function

/-- The parameters of a function have names, in the order of their values. -/
structure Named (f : Function) (names : List String) : Prop where
  eq : f.names = (names.zipIdx.map fun (name, k) => (⟨k⟩, name)).reverse
  isWord : ∀ name ∈ names, IsWord name

/-- The instructions of a function are legible, and its slots have names. -/
structure Listable (m : Module) (f : Function) : Prop where
  insts : ∀ i data, f.insts.get? i = some data → ∃ ty, data.inst.Legible m ty ∧ f.HasResult data ty
  slots : ∀ i slot, f.slots.get? i = some slot → IsWord slot.name

/-- A finished function that its listing tells. -/
structure Legible (m : Module) (s : Signature) (f : Function) : Prop extends Finished m s f, Listable m f where
  named : ∃ names, f.Named names ∧ names.length = s.params.length

variable {m : Module} {f : Function} {s : Signature} {names : List String}

theorem lookup_names (names : List String) (k : Nat) :
    ((names.zipIdx.map fun (name, k) => ((⟨k⟩ : ValueId), name)).reverse).lookup ⟨k⟩ = names[k]? := by
  induction names using List.reverseRecOn with
  | nil => rfl
  | append_singleton names name ih =>
    rw [List.zipIdx_append, List.map_append, List.reverse_append, List.zipIdx_singleton, List.map_singleton,
      List.reverse_singleton, List.singleton_append, List.lookup_cons, ih, Nat.zero_add]
    by_cases hk : k = names.length
    · subst hk
      simp
    · have hne : ((⟨k⟩ : ValueId) == ⟨names.length⟩) = false := by simpa using hk
      rw [hne]
      rcases Nat.lt_or_gt_of_ne hk with hlt | hlt
      · exact (List.getElem?_append_left hlt).symm
      · rw [List.getElem?_eq_none (by omega), List.getElem?_eq_none (by simp; omega)]

theorem Named.name_shown (h : f.Named names) (k : Nat) : (f.shown ⟨k⟩).name = names[k]? := by
  show (f.names.lookup ⟨k⟩).filter (· ≠ "") = _
  rw [h.eq, lookup_names]
  cases hk : names[k]? with
  | none => rfl
  | some name =>
    have hname : name ≠ "" := by
      rintro rfl
      exact (h.isWord "" (List.mem_of_getElem? hk)).ne_nil rfl
    simp [Option.filter, hname]

theorem Named.isWritten (h : f.Named names) (v : ValueId) : (f.shown v).IsWritten := by
  intro name hname
  rw [show (f.shown v).name = names[v.index]? from h.name_shown v.index] at hname
  exact h.isWord name (List.mem_of_getElem? hname)

theorem Legible.exists_says (h : f.Legible m s) {i : InstId} {data : InstData} (hi : f.insts.get? i = some data) :
    ∃ ty o, f.Says m data.inst ty o ∧ f.HasResult data ty := by
  obtain ⟨inst, result⟩ := data
  obtain ⟨ty, hlegible, hresult⟩ := h.insts i _ hi
  have hinst : f.inst? i = some inst := inst?_eq_some.mpr ⟨_, hi, rfl⟩
  obtain ⟨t, ht, htyped⟩ := h.typed i inst hinst
  have hids := h.ids i inst hinst
  rw [hresult.resultType_eq hi] at ht
  cases ht
  cases hlegible with
  | unary arg ty h => exact ⟨_, _, .unary arg ty h, hresult⟩
  | binary lhs rhs ty h =>
    cases htyped with
    | binary hl hr hop => exact ⟨_, _, .binary rhs h hl, hresult⟩
  | iconst width bits => exact ⟨_, _, .iconst width bits, hresult⟩
  | fconst h => exact ⟨_, _, .fconst h, hresult⟩
  | stackLoad slot ty => 
    generalize hst : (some ty).getD .void = st at htyped
    cases htyped with
    | stackLoad hs => 
      cases hst
      exact ⟨_, _, .stackLoad hs, hresult⟩
  | stackStore value slot => exact ⟨_, _, .stackStore value slot, hresult⟩
  | globalLoad h => exact ⟨_, _, .globalLoad h, hresult⟩
  | dataAddr i =>
    obtain ⟨d, hd⟩ := Table.exists_get?_of_lt hids
    exact ⟨_, _, .dataAddr hd, hresult⟩
  | call args h =>
    obtain ⟨g, hg, hs⟩ := Module.signatureOf_eq_ok.mp h
    exact ⟨_, _, .call args hg hs, hresult⟩
  | ret value => exact ⟨_, _, .ret value, hresult⟩

theorem exists_forall₂ {α β : Type} {R : α → β → Prop} {as : List α} (h : ∀ a ∈ as, ∃ b, R a b) :
    ∃ bs, List.Forall₂ R as bs := by
  induction as with
  | nil => exact ⟨[], .nil⟩
  | cons a as ih =>
    obtain ⟨⟨b, hb⟩, hrest⟩ := List.forall_mem_cons.mp h
    obtain ⟨bs, hbs⟩ := ih hrest
    exact ⟨b :: bs, .cons hb hbs⟩

/-- A legible function has lines. -/
theorem Legible.exists_outline (h : f.Legible m s) : ∃ ls, f.Outlines m ls := by
  have hlines : ∀ data ∈ f.insts.toList, ∃ l, f.InstLine m data l := by
    intro data hdata
    obtain ⟨i, hi⟩ := Table.exists_get?_of_mem hdata
    obtain ⟨ty, o, htold, hresult⟩ := h.exists_says hi
    exact ⟨_, htold, hresult⟩
  obtain ⟨insts, hi⟩ := exists_forall₂ hlines
  exact ⟨_, .finished h.toFinished hi⟩

/-- Whether a function is only declared, or legible. -/
def IsTold (m : Module) (f : Function) : Prop :=
  f = .declared f.name f.signature f.linkage ∨ ∃ s, f.Legible m s

theorem IsTold.legible (h : f.IsTold m) (hf : Finished m s f) : f.Legible m s := by
  rcases h with hdeclared | ⟨s', hlegible⟩
  · have hentry := hf.entry
    rw [hdeclared] at hentry
    cases hentry
  · cases hf.signature.symm.trans hlegible.signature
    exact hlegible

theorem IsTold.eq_declared (h : f.IsTold m) (hf : f.isDefined = false) : f = .declared f.name f.signature f.linkage := by
  rcases h with hdeclared | ⟨s', hlegible⟩
  · exact hdeclared
  · unfold isDefined at hf
    rw [hlegible.entry] at hf
    cases hf

end Function

/-! ## Modules -/

/-- The signatures of some functions in the order in which they come first. -/
def Signature.interned (ss : List Signature) : List Signature :=
  ss.foldl (fun known s => if s ∈ known then known else known ++ [s]) []

namespace Module

/-- The names that a module lists are words. -/
structure Worded (m : Module) : Prop where
  globals : ∀ i g, m.globals.get? i = some g → IsWord g.name
  data : ∀ i d, m.data.get? i = some d → IsWord d.name
  functions : ∀ i f, m.functions.get? i = some f → IsWord f.name

/-- The signatures stand in the order in which functions use them first. -/
def Interned (m : Module) : Prop :=
  ∃ ss, (m.functions.toList.map fun f => m.signatures.get? f.signature) = ss.map some ∧
    m.signatures.toList = Signature.interned ss

/-- A module that its listing tells. -/
structure Legible (m : Module) : Prop extends Worded m where
  inits : ∀ i g, m.globals.get? i = some g → ∀ c ∈ g.init, c.ty = g.ty ∧ c.IsWritten
  bodies : ∀ i f, m.functions.get? i = some f → f.IsTold m
  globalNames : (m.globals.toList.map (·.name)).Nodup
  dataNames : (m.data.toList.map (·.name)).Nodup
  functionNames : (m.functions.toList.map (·.name)).Nodup
  signatures : m.Interned

end Module

/-! ## Words -/

theorem forall_mem_right {α β : Type} {R : α → β → Prop} {P : β → Prop} {as : List α} {bs : List β}
    (h : List.Forall₂ R as bs) (hP : ∀ a ∈ as, ∀ b, R a b → P b) : ∀ b ∈ bs, P b := by
  induction h with
  | nil => nofun
  | cons hab _ ih =>
    obtain ⟨ha, hrest⟩ := List.forall_mem_cons.mp hP
    exact List.forall_mem_cons.mpr ⟨ha _ hab, ih hrest⟩

namespace Function

variable {m : Module} {f : Function} {names : List String}

theorem Says.isWritten {inst : Inst} {ty : Option Ty} {o : Operation} (h : f.Says m inst ty o) (hm : m.Worded)
    (hf : f.Named names) : o.IsWritten := by
  cases h with
  | unary arg ty h => exact ⟨h, hf.isWritten arg⟩
  | @binary op lhs rhs ty h hty => exact ⟨h, hf.isWritten lhs, hf.isWritten rhs⟩
  | iconst width bits => trivial
  | fconst h => exact h
  | stackLoad h => trivial
  | stackStore v i => exact hf.isWritten v
  | globalLoad h => exact hm.globals _ _ h
  | dataAddr h => exact hm.data _ _ h
  | call args h hs => exact ⟨hm.functions _ _ h, by simp [hf.isWritten]⟩
  | ret v =>
    show ∀ w ∈ v.map f.shown, w.IsWritten
    simp [hf.isWritten]

theorem InstLine.isWritten {data : InstData} {l : Line} (h : f.InstLine m data l) (hm : m.Worded) (hf : f.Named names) :
    l.IsWritten := by
  obtain ⟨htold, -⟩ := h
  refine ⟨?_, htold.isWritten hm hf⟩
  simp [hf.isWritten]

theorem Legible.isWritten_slotLines {s : Signature} (h : f.Legible m s) : ∀ l ∈ f.slotLines, l.IsWritten := by
  intro l hl
  obtain ⟨⟨i, slot⟩, hslot, rfl⟩ := List.mem_map.mp hl
  obtain ⟨⟨slot, k⟩, hmem, heq⟩ := List.mem_map.mp hslot
  cases heq
  have hget : f.slots.get? ⟨k⟩ = some slot := Table.get?_eq_some_iff.mpr (List.mem_zipIdx_iff_getElem?.mp hmem)
  exact h.slots _ _ hget

theorem Outlines.isWritten {i : FuncId} {ls : List Line} (h : f.Outlines m ls) (hm : m.Worded)
    (hi : m.functions.get? i = some f) (hf : f.IsTold m) : ∀ l ∈ ls, l.IsWritten := by
  cases h with
  | declared hs h =>
    intro l hl
    rw [List.mem_singleton.mp hl]
    exact hm.functions _ _ hi
  | @finished s insts h hinsts =>
    have hlegible := hf.legible h
    obtain ⟨names, hnamed, -⟩ := hlegible.named
    simp only [List.mem_append, List.mem_singleton]
    rintro l ((((rfl | hl) | rfl) | hl) | rfl)
    · exact hm.functions _ _ hi
    · exact hlegible.isWritten_slotLines l hl
    · intro p hp
      obtain ⟨⟨ty, k⟩, -, rfl⟩ := List.mem_map.mp hp
      exact hnamed.isWritten _
    · exact forall_mem_right hinsts (fun data _ l hl => hl.isWritten hm hnamed) l hl
    · trivial

end Function

namespace Module.Legible

variable {m : Module}

theorem exists_outline (h : m.Legible) : ∃ fls, List.Forall₂ (·.Outlines m) m.functions.toList fls := by
  refine Function.exists_forall₂ fun f hf => ?_
  obtain ⟨i, hi⟩ := Table.exists_get?_of_mem hf
  rcases h.bodies i f hi with hdeclared | ⟨s, hlegible⟩
  · obtain ⟨ss, hss, -⟩ := h.signatures
    obtain ⟨s, -, hs⟩ := List.mem_map.mp (hss ▸ List.mem_map_of_mem hf)
    have hbody : f.isDefined = false := by
      rw [hdeclared]
      rfl
    exact ⟨_, .declared hs.symm hbody⟩
  · exact hlegible.exists_outline

theorem isWritten (h : m.Legible) {fls : List (List Line)} (hls : List.Forall₂ (·.Outlines m) m.functions.toList fls) :
    ∀ l ∈ m.tableLines ++ m.functionLines fls, l.IsWritten := by
  have hwritten : ∀ ls ∈ fls, ∀ l ∈ ls, l.IsWritten := by
    refine forall_mem_right hls fun f hf ls hlines => ?_
    obtain ⟨i, hi⟩ := Table.exists_get?_of_mem hf
    exact hlines.isWritten h.toWorded hi (h.bodies i f hi)
  simp only [tableLines, List.mem_append, List.mem_map]
  rintro l ((⟨g, hg, rfl⟩ | ⟨d, hd, rfl⟩) | hl)
  · obtain ⟨i, hi⟩ := Table.exists_get?_of_mem hg
    exact ⟨h.globals i g hi, h.inits i g hi⟩
  · obtain ⟨i, hi⟩ := Table.exists_get?_of_mem hd
    exact h.data i d hi
  · rcases mem_functionLines hl with rfl | ⟨ls, hls, hl⟩
    · trivial
    · exact hwritten ls hls l hl

end Module.Legible

end SsaCompiler.Ir
