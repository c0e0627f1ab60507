import Mathlib.Logic.Relation
import SsaCompiler.Ir.Script
import SsaCompiler.Proofs.Ir.StraightLine

/-!
# What building does to a body

A body that is built may have any number of blocks, and instructions go to any of them.  `b.Edit b'` lists
what one change of the builder can be; every action of a script that does not write to the tables directly
is a row of such changes, and so is every body that is put back for a module:

    a.isDirect = false → Gives a.run b answer b' → b.Edits b'                    (edits_of_gives)
    actions by the builder alone → runAll actions m gives m' → m.Edits m'        (edits_of_runAll)

What holds of a new module and survives each change therefore holds of all that is built.
-/

namespace SsaCompiler.Ir

namespace Function

/-- The function with another block, which is not entered yet. -/
def withBlock (f : Function) : Function :=
  { f with blocks := f.blocks.push { params := #[], insts := #[] } }

/-- The function with a block entered; the first that is becomes the entry block. -/
def entering (f : Function) (c : BlockId) : Function :=
  { f with
    order := if f.order.contains c then f.order else f.order.push c
    entry := f.entry.or (some c) }

/-- The function with another parameter of the block `c`, whose data is `block`. -/
def withParam (f : Function) (c : BlockId) (block : BlockData) (ty : Ty) : Function :=
  { f with
    values := f.values.push { ty, definition := .param c }
    blocks := f.blocks.set c { block with params := block.params.push f.values.next } }

/-- The function with an instruction at the end of the block `c`, whose data is `block`. -/
def withInst (f : Function) (c : BlockId) (block : BlockData) (inst : Inst) (ty : Option Ty) : Function :=
  { f with
    insts := f.insts.push { inst, result := ty.map fun _ => f.values.next }
    values := ty.elim f.values fun ty => f.values.push { ty, definition := .result f.insts.next }
    blocks := f.blocks.set c { block with insts := block.insts.push f.insts.next } }

end Function

/-- The type of the result of an instruction, if it has one: constants and conversions name it, and for
the others it follows from the tables. -/
inductive Module.ResultType (m : Module) (f : Function) : Inst → Option Ty → Prop
  | unary (op : Opcode) (arg : ValueId) (ty : Ty) : ResultType m f (.unary op arg) (some ty)
  | binary {op : Opcode} {lhs rhs : ValueId} {ty : Ty} (h : f.valueType lhs = .ok ty) :
      ResultType m f (.binary op lhs rhs) (some ty)
  | iconst (bits : BitVec 64) (ty : Ty) : ResultType m f (.iconst bits) (some ty)
  | fconst (bits : BitVec 64) (ty : Ty) : ResultType m f (.fconst bits) (some ty)
  | stackLoad {slot : SlotId} {data : SlotData} (h : f.slots.get? slot = some data) :
      ResultType m f (.stackLoad slot) (some data.ty)
  | stackStore (value : ValueId) (slot : SlotId) : ResultType m f (.stackStore value slot) none
  | globalLoad {global : GlobalId} {data : Global} (h : m.globals.get? global = some data) :
      ResultType m f (.globalLoad global) (some data.ty)
  | dataAddr (data : DataId) : ResultType m f (.dataAddr data) (some .ptr)
  | call {callee : FuncId} {s : Signature} (args : List ValueId) (h : m.signatureOf callee = .ok s) :
      ResultType m f (.call callee args) s.ret.result?
  | ret (value : Option ValueId) : ResultType m f (.ret value) none

/-! ## Changes of a body -/

namespace Body

/-- One change of a body by the builder. -/
inductive Edit (b : Body) : Body → Prop
  | block : Edit b { b with func := b.func.withBlock }
  | enter (c : BlockId) : Edit b { b with func := b.func.entering c, current := some c }
  | param {c : BlockId} {block : BlockData} (ty : Ty) (h : b.func.blocks.get? c = some block) :
      Edit b { b with func := b.func.withParam c block ty }
  | inst {c : BlockId} {block : BlockData} {inst : Inst} {ty : Option Ty}
      (h : b.func.blocks.get? c = some block) (hty : b.module.ResultType b.func inst ty) :
      Edit b { b with func := b.func.withInst c block inst ty }
  | slot (ty : Ty) (name : String) : Edit b (b.withSlot ty name)
  | name (v : ValueId) (name : String) : Edit b (b.withName v name)
  | linkage (linkage : Linkage) : Edit b { b with func := { b.func with linkage } }
  | data (contents : List UInt8) : Edit b (b.withData contents)

/-- Any number of changes. -/
abbrev Edits : Body → Body → Prop :=
  Relation.ReflTransGen Edit

/-- Of the module a change touches nothing but the data, and of the function it takes nothing away. -/
theorem Edit.frame {b b' : Body} (h : b.Edit b') :
    (∃ data, b'.module = { b.module with data } ∧ b.module.data.Within data) ∧ b.func.Within b'.func := by
  have same : ∃ data, b.module = { b.module with data } ∧ b.module.data.Within data :=
    ⟨b.module.data, rfl, .refl _⟩
  cases h with
  | block => exact ⟨same, rfl, rfl, .refl _, .refl _, .refl _⟩
  | enter c => exact ⟨same, rfl, rfl, .refl _, .refl _, .refl _⟩
  | param ty h => exact ⟨same, rfl, rfl, .refl _, Table.within_push _ _, .refl _⟩
  | @inst c block inst ty h hty =>
    refine ⟨same, rfl, rfl, Table.within_push _ _, ?_, .refl _⟩
    cases ty with
    | none => exact .refl _
    | some ty => exact Table.within_push _ _
  | slot ty name => exact ⟨same, rfl, rfl, .refl _, .refl _, Table.within_push _ _⟩
  | name v name => exact ⟨same, rfl, rfl, .refl _, .refl _, .refl _⟩
  | linkage linkage => exact ⟨same, rfl, rfl, .refl _, .refl _, .refl _⟩
  | data contents =>
    obtain ⟨data, hm, hd, -⟩ := b.module.internData_eq contents
    exact ⟨⟨data, hm, hd⟩, .refl _⟩

theorem Edits.frame {b b' : Body} (h : b.Edits b') :
    (∃ data, b'.module = { b.module with data } ∧ b.module.data.Within data) ∧ b.func.Within b'.func := by
  induction h with
  | refl => exact ⟨⟨b.module.data, rfl, .refl _⟩, .refl _⟩
  | tail _ hstep ih =>
    obtain ⟨⟨data, hm, hd⟩, hf⟩ := ih
    obtain ⟨⟨data', hm', hd'⟩, hf'⟩ := hstep.frame
    rw [hm] at hm' hd'
    exact ⟨⟨data', hm', hd.trans hd'⟩, hf.trans hf'⟩

theorem Edits.module_within {b b' : Body} (h : b.Edits b') : b.module.Within b'.module := by
  obtain ⟨⟨data, hm, hd⟩, -⟩ := h.frame
  rw [hm]
  exact ⟨.refl _, .refl _, hd, fun _ f hf => ⟨f, hf, rfl, rfl⟩⟩

/-- An instruction that is emitted ends some block, which may be the entry block made for it. -/
def Emits (b : Body) (inst : Inst) (i : InstId) (result : Option ValueId) (b' : Body) : Prop :=
  ∃ b₁ c block ty, b.Edits b₁ ∧ b₁.func.blocks.get? c = some block ∧ b₁.module.ResultType b₁.func inst ty ∧
    i = b₁.func.insts.next ∧ result = ty.map (fun _ => b₁.func.values.next) ∧
    b' = { b₁ with func := b₁.func.withInst c block inst ty }

namespace Emits

variable {b b' : Body} {inst : Inst} {i : InstId} {result : Option ValueId}

theorem edits (h : b.Emits inst i result b') : b.Edits b' := by
  obtain ⟨b₁, c, block, ty, hedits, hc, hty, -, -, rfl⟩ := h
  exact hedits.tail (.inst hc hty)

/-- The instruction stands under its id as it was given. -/
theorem get? (h : b.Emits inst i result b') : b'.func.insts.get? i = some { inst, result } := by
  obtain ⟨b₁, c, block, ty, -, -, -, rfl, rfl, rfl⟩ := h
  exact Table.get?_push_next _ _

end Emits

end Body

/-! ## Calls on a body -/

namespace Build

variable {b b' : Body}

theorem gives_fromFunc_iff {α : Type} {f : Function → Except Fault α} {a : α} :
    Gives (fromFunc f) b a b' ↔ f b.func = .ok a ∧ b' = b := by
  unfold fromFunc
  rw [gives_bind_iff]
  constructor
  · rintro ⟨s, b₁, hget, h⟩
    obtain ⟨rfl, rfl⟩ := gives_get_iff.mp hget
    exact gives_liftM_iff.mp h
  · rintro ⟨h, rfl⟩
    exact ⟨b', b', gives_get _, gives_liftM_iff.mpr ⟨h, rfl⟩⟩

theorem gives_modifyFunc_iff {f : Function → Function} {u : Unit} :
    Gives (modifyFunc f) b u b' ↔ b' = { b with func := f b.func } :=
  gives_modify_iff

theorem createBlock_inv {c : BlockId} (h : Gives createBlock b c b') : b.Edits b' := by
  cases h
  exact .single .block

theorem switchTo_inv {c : BlockId} {u : Unit} (h : Gives (switchTo c) b u b') : b.Edits b' := by
  cases h
  exact .single (.enter c)

theorem modifyBlock_inv {c : BlockId} {f : BlockData → BlockData} {u : Unit}
    (h : Gives (modifyBlock c f) b u b') :
    ∃ block, b.func.blocks.get? c = some block ∧
      b' = { b with func := { b.func with blocks := b.func.blocks.set c (f block) } } := by
  unfold modifyBlock at h
  simp only [gives_bind_iff, gives_fromFunc_iff, gives_modifyFunc_iff] at h
  obtain ⟨blocks, b₁, ⟨hmodify, rfl⟩, rfl⟩ := h
  obtain ⟨block, hc, rfl⟩ := Table.modify_eq_ok.mp hmodify
  exact ⟨block, hc, rfl⟩

theorem addBlockParam_inv {c : BlockId} {ty : Ty} {v : ValueId} (h : Gives (addBlockParam c ty) b v b') :
    b.Edits b' := by
  unfold addBlockParam at h
  simp only [gives_bind_iff, gives_pure_iff] at h
  obtain ⟨w, b₁, hvalue, u, b₂, hblock, rfl, rfl⟩ := h
  cases hvalue
  obtain ⟨block, hc, rfl⟩ := modifyBlock_inv hblock
  exact .single (.param ty hc)

theorem addBlockParams_inv {c : BlockId} {tys : List Ty} {u : PUnit}
    (h : Gives (tys.forM fun ty => discard (addBlockParam c ty)) b u b') : b.Edits b' := by
  induction tys generalizing b with
  | nil =>
    obtain ⟨-, rfl⟩ := gives_pure_iff.mp h
    exact .refl
  | cons ty tys ih =>
    obtain ⟨u₁, b₁, hone, hrest⟩ := gives_bind_iff.mp h
    obtain ⟨v, hone⟩ := gives_discard_iff.mp hone
    exact (addBlockParam_inv hone).trans (ih hrest)

theorem initEntry_inv {c : BlockId} (h : Gives initEntry b c b') : b.Edits b' := by
  unfold initEntry at h
  simp only [gives_bind_iff, gives_get_iff, gives_liftM_iff, gives_pure_iff] at h
  obtain ⟨c₁, b₁, hcreate, u, b₂, hswitch, b₃, b₄, ⟨rfl, rfl⟩, s, b₅, ⟨-, rfl⟩, u', b₆, hparams, rfl, rfl⟩ := h
  exact ((createBlock_inv hcreate).trans (switchTo_inv hswitch)).trans (addBlockParams_inv hparams)

theorem insertionBlock_inv {c : BlockId} (h : Gives insertionBlock b c b') : b.Edits b' := by
  unfold insertionBlock at h
  simp only [gives_bind_iff, gives_get_iff] at h
  obtain ⟨b₁, b₂, ⟨rfl, rfl⟩, h⟩ := h
  cases hcurrent : b₂.current with
  | some c₁ =>
    rw [hcurrent] at h
    obtain ⟨-, rfl⟩ := gives_pure_iff.mp h
    exact .refl
  | none =>
    rw [hcurrent] at h
    exact initEntry_inv h

theorem append_inv {c : BlockId} {inst : Inst} {i : InstId} (h : Gives (append c inst) b i b') :
    ∃ block, b.func.blocks.get? c = some block ∧ i = b.func.insts.next ∧
      b' = { b with func := b.func.withInst c block inst none } := by
  unfold append at h
  simp only [gives_bind_iff, gives_get_iff, gives_modifyFunc_iff, gives_pure_iff] at h
  obtain ⟨b₁, b₂, ⟨rfl, rfl⟩, u, b₃, rfl, u', b₄, hblock, rfl, rfl⟩ := h
  obtain ⟨block, hc, rfl⟩ := modifyBlock_inv hblock
  exact ⟨block, hc, rfl, rfl⟩

/-- The result of the instruction that came last is as good as one it was made with. -/
theorem addResult_inv {c : BlockId} {block : BlockData} {inst : Inst} {ty : Ty} {v : ValueId}
    (h : Gives (addResult b.func.insts.next ty) { b with func := b.func.withInst c block inst none } v b') :
    v = b.func.values.next ∧ b' = { b with func := b.func.withInst c block inst (some ty) } :=
  h.unique (gives_addResult_last rfl ty)

end Build

/-- Whether an instruction names the type of its result. -/
def Inst.namesType : Inst → Bool
  | .unary .. | .iconst _ | .fconst _ => true
  | _ => false

theorem Module.resultType_of_namesType {inst : Inst} (h : inst.namesType = true) (m : Module) (f : Function) (ty : Ty) :
    m.ResultType f inst (some ty) := by
  cases inst with
  | unary op arg => exact .unary op arg ty
  | iconst bits => exact .iconst bits ty
  | fconst bits => exact .fconst bits ty
  | _ => cases h

namespace Build

variable {b b' : Body} {inst : Inst}

/-- The type that an instruction is given is that of its result. -/
theorem impliedType_inv (hn : inst.namesType = false) {ty : Option Ty} (h : Gives (impliedType inst) b ty b') :
    b' = b ∧ b.module.ResultType b.func inst ty := by
  unfold impliedType at h
  simp only [gives_bind_iff, gives_get_iff] at h
  obtain ⟨b₁, b₂, ⟨rfl, rfl⟩, h⟩ := h
  cases inst with
  | unary op arg => cases hn
  | iconst bits => cases hn
  | fconst bits => cases hn
  | binary op lhs rhs =>
    simp only [gives_bind_iff, gives_liftM_iff, gives_pure_iff] at h
    obtain ⟨t, b₃, ⟨hl, rfl⟩, rfl, rfl⟩ := h
    exact ⟨rfl, .binary hl⟩
  | stackLoad slot =>
    simp only [gives_bind_iff, gives_liftM_iff, gives_pure_iff] at h
    obtain ⟨data, b₃, ⟨hs, rfl⟩, rfl, rfl⟩ := h
    exact ⟨rfl, .stackLoad (Table.get_eq_ok.mp hs)⟩
  | globalLoad global =>
    simp only [gives_bind_iff, gives_liftM_iff, gives_pure_iff] at h
    obtain ⟨data, b₃, ⟨hg, rfl⟩, rfl, rfl⟩ := h
    exact ⟨rfl, .globalLoad (Table.get_eq_ok.mp hg)⟩
  | call callee args =>
    simp only [gives_bind_iff, gives_liftM_iff, gives_pure_iff] at h
    obtain ⟨s, b₃, ⟨hs, rfl⟩, rfl, rfl⟩ := h
    exact ⟨rfl, .call args hs⟩
  | dataAddr data =>
    obtain ⟨rfl, rfl⟩ := gives_pure_iff.mp h
    exact ⟨rfl, .dataAddr data⟩
  | stackStore value slot =>
    obtain ⟨rfl, rfl⟩ := gives_pure_iff.mp h
    exact ⟨rfl, .stackStore value slot⟩
  | ret value =>
    obtain ⟨rfl, rfl⟩ := gives_pure_iff.mp h
    exact ⟨rfl, .ret value⟩

theorem emit_inv (hn : inst.namesType = false) {p : InstId × Option ValueId} (h : Gives (emit inst) b p b') :
    b.Emits inst p.1 p.2 b' := by
  unfold emit at h
  simp only [gives_bind_iff] at h
  obtain ⟨c, b₁, hblock, ty, b₂, himplied, i, b₃, happend, h⟩ := h
  obtain ⟨rfl, hty⟩ := impliedType_inv hn himplied
  obtain ⟨block, hc, rfl, rfl⟩ := append_inv happend
  refine ⟨b₂, c, block, ty, insertionBlock_inv hblock, hc, hty, ?_⟩
  cases ty with
  | none =>
    obtain ⟨rfl, rfl⟩ := gives_pure_iff.mp h
    exact ⟨rfl, rfl, rfl⟩
  | some ty =>
    simp only [gives_bind_iff, gives_pure_iff] at h
    obtain ⟨v, b₄, hresult, rfl, rfl⟩ := h
    obtain ⟨rfl, rfl⟩ := addResult_inv hresult
    exact ⟨rfl, rfl, rfl⟩

theorem emitValue_inv (hn : inst.namesType = false) {v : ValueId} (h : Gives (emitValue inst) b v b') :
    ∃ i, b.Emits inst i (some v) b' := by
  unfold emitValue at h
  simp only [gives_bind_iff] at h
  obtain ⟨⟨i, result⟩, b₁, hemit, h⟩ := h
  cases result with
  | none => exact absurd h not_gives_throw
  | some w =>
    obtain ⟨rfl, rfl⟩ := gives_pure_iff.mp h
    exact ⟨i, emit_inv hn hemit⟩

theorem emitTyped_inv (hn : inst.namesType = true) {ty : Ty} {v : ValueId} (h : Gives (emitTyped inst ty) b v b') :
    ∃ i, b.Emits inst i (some v) b' := by
  unfold emitTyped at h
  simp only [gives_bind_iff] at h
  obtain ⟨c, b₁, hblock, i, b₂, happend, hresult⟩ := h
  obtain ⟨block, hc, rfl, rfl⟩ := append_inv happend
  obtain ⟨rfl, rfl⟩ := addResult_inv hresult
  exact ⟨_, b₁, c, block, some ty, insertionBlock_inv hblock, hc, Module.resultType_of_namesType hn _ _ ty,
    rfl, rfl, rfl⟩

theorem iconst_inv {ty : Ty} {bits : BitVec 64} {v : ValueId} (h : Gives (iconst ty bits) b v b') : b.Edits b' := by
  unfold iconst at h
  cases ty with
  | int width =>
    obtain ⟨i, hemits⟩ := emitTyped_inv rfl h
    exact hemits.edits
  | _ => exact absurd h not_gives_throw

theorem fconst_inv {ty : Ty} {bits : BitVec 64} {v : ValueId} (h : Gives (fconst ty bits) b v b') : b.Edits b' := by
  unfold fconst at h
  cases ty with
  | float width =>
    obtain ⟨i, hemits⟩ := emitTyped_inv rfl h
    exact hemits.edits
  | _ => exact absurd h not_gives_throw

theorem internData_inv {contents : List UInt8} {d : DataId} (h : Gives (internData contents) b d b') : b.Edits b' := by
  cases h
  exact .single (.data contents)

/-! ## Reading -/

/-- A computation that leaves the body as it is. -/
def Reads {α : Type} (x : Build α) : Prop :=
  ∀ b a b', Gives x b a b' → b' = b

section Reads

variable {α β : Type}

theorem reads_pure (a : α) : Reads (pure a) :=
  fun _ _ _ h => (gives_pure_iff.mp h).2

theorem reads_get : Reads get :=
  fun _ _ _ h => (gives_get_iff.mp h).2

theorem reads_throw (fault : Fault) : Reads (throw fault : Build α) :=
  fun _ _ _ h => absurd h not_gives_throw

theorem reads_liftM (x : Except Fault α) : Reads (liftM x) :=
  fun _ _ _ h => (gives_liftM_iff.mp h).2

theorem reads_fromFunc (f : Function → Except Fault α) : Reads (fromFunc f) :=
  fun _ _ _ h => (gives_fromFunc_iff.mp h).2

theorem Reads.bind {x : Build α} {f : α → Build β} (hx : Reads x) (hf : ∀ a, Reads (f a)) : Reads (x >>= f) := by
  intro b c b' h
  obtain ⟨a, b₁, h₁, h₂⟩ := gives_bind_iff.mp h
  obtain rfl := hx b a b₁ h₁
  exact hf a b₁ c b' h₂

theorem reads_funcParam (index : Nat) : Reads (funcParam index) := by
  refine (reads_fromFunc _).bind fun vs => ?_
  split
  · exact reads_pure _
  · exact reads_throw _

theorem reads_isTerminated : Reads isTerminated := by
  refine reads_get.bind fun b => ?_
  split
  · exact reads_pure _
  · refine (reads_fromFunc _).bind fun i => ?_
    split
    · exact reads_pure _
    · exact (reads_fromFunc _).bind fun data => reads_pure _

theorem reads_impliedType (inst : Inst) : Reads (impliedType inst) := by
  refine reads_get.bind fun b => ?_
  cases inst with
  | unary | binary | stackLoad | globalLoad | call => exact (reads_liftM _).bind fun _ => reads_pure _
  | dataAddr | iconst | fconst | stackStore | ret => exact reads_pure _

end Reads

end Build

/-! ## Actions -/

section Actions

open Build

variable {b b' : Body}

/-- The run of an action that answers with what a computation gives. -/
theorem BodyAction.gives_answer_iff {α : Type} {x : Build α} {f : α → BodyAnswer} {answer : BodyAnswer} :
    Gives (x >>= fun a => pure (f a)) b answer b' ↔ ∃ a, Gives x b a b' ∧ answer = f a := by
  rw [gives_bind_iff]
  constructor
  · rintro ⟨a, b₁, hx, h⟩
    obtain ⟨rfl, rfl⟩ := gives_pure_iff.mp h
    exact ⟨a, hx, rfl⟩
  · rintro ⟨a, hx, rfl⟩
    exact ⟨a, b', hx, gives_pure _ _⟩

/-- An action that writes by the builder alone is a row of changes. -/
theorem BodyAction.edits_of_gives {a : BodyAction} (ha : a.isDirect = false) {answer : BodyAnswer}
    (h : Gives a.run b answer b') : b.Edits b' := by
  have of_reads {x : Build BodyAnswer} (hx : Reads x) (hg : Gives x b answer b') : b.Edits b' := by
    obtain rfl := hx _ _ _ hg
    exact .refl
  cases a with
  | addInst inst c ty => cases ha
  | listInst c i => cases ha
  -- what is only read
  | position => exact of_reads (reads_get.bind fun _ => reads_get.bind fun _ => reads_pure _) h
  | blockParams c => exact of_reads ((reads_fromFunc _).bind fun _ => reads_pure _) h
  | funcParams => exact of_reads ((reads_fromFunc _).bind fun _ => reads_pure _) h
  | funcParam index => exact of_reads ((reads_funcParam index).bind fun _ => reads_pure _) h
  | signatureOf f =>
    exact of_reads (reads_get.bind fun _ => (reads_liftM _).bind fun _ => (reads_liftM _).bind fun _ => reads_pure _) h
  | slotType s => exact of_reads ((reads_fromFunc _).bind fun _ => reads_pure _) h
  | describeValue v =>
    exact of_reads (reads_get.bind fun _ => (reads_liftM _).bind fun _ => (reads_liftM _).bind fun _ =>
      (reads_liftM _).bind fun _ => reads_pure _) h
  | describeInst i => exact of_reads ((reads_fromFunc _).bind fun _ => reads_pure _) h
  | isTerminated => exact of_reads (reads_isTerminated.bind fun _ => reads_pure _) h
  | listing => exact of_reads ((reads_fromFunc _).bind fun _ => reads_pure _) h
  -- blocks
  | initEntry =>
    obtain ⟨c, hx, -⟩ := gives_answer_iff.mp h
    exact initEntry_inv hx
  | createBlock =>
    obtain ⟨c, hx, -⟩ := gives_answer_iff.mp h
    exact createBlock_inv hx
  | switchTo c =>
    obtain ⟨u, b₁, hx, hrest⟩ := gives_bind_iff.mp h
    obtain rfl := (reads_get.bind fun _ => reads_pure _ : Reads _) _ _ _ hrest
    exact switchTo_inv hx
  | insertionBlock =>
    obtain ⟨c, hx, -⟩ := gives_answer_iff.mp h
    exact insertionBlock_inv hx
  | blockParam c ty =>
    obtain ⟨v, hx, -⟩ := gives_answer_iff.mp h
    exact addBlockParam_inv hx
  -- slots, names and data
  | slot ty name =>
    obtain ⟨s, hx, -⟩ := gives_answer_iff.mp h
    cases hx
    exact .single (.slot ty name)
  | setName v name =>
    cases h
    exact .single (.name v name)
  | setLinkage linkage =>
    cases h
    exact .single (.linkage linkage)
  | internData contents =>
    obtain ⟨d, hx, -⟩ := gives_answer_iff.mp h
    exact internData_inv hx
  -- instructions
  | iconst ty bits =>
    obtain ⟨v, hx, -⟩ := gives_answer_iff.mp h
    exact iconst_inv hx
  | fconst ty bits =>
    obtain ⟨v, hx, -⟩ := gives_answer_iff.mp h
    exact fconst_inv hx
  | convert op arg ty =>
    obtain ⟨v, hx, -⟩ := gives_answer_iff.mp h
    obtain ⟨i, hemits⟩ := emitTyped_inv rfl hx
    exact hemits.edits
  | binary | stackLoad | globalLoad | dataAddr =>
    obtain ⟨v, hx, -⟩ := gives_answer_iff.mp h
    obtain ⟨i, hemits⟩ := emitValue_inv rfl hx
    exact hemits.edits
  | stackStore | ret =>
    obtain ⟨u, hx, -⟩ := gives_answer_iff.mp h
    obtain ⟨p, hx⟩ := gives_discard_iff.mp hx
    exact (emit_inv rfl hx).edits
  | call callee args =>
    obtain ⟨p, hx, -⟩ := gives_answer_iff.mp h
    exact (emit_inv rfl hx).edits

/-- A call is listed with the arguments it was given, and its result is the one that is answered. -/
theorem BodyAction.emits_of_call {callee : FuncId} {args : List ValueId} {answer : BodyAnswer}
    (h : Gives (BodyAction.call callee args).run b answer b') :
    ∃ i result, answer = .call i result ∧ b.Emits (.call callee args) i result b' := by
  obtain ⟨p, hx, rfl⟩ := gives_answer_iff.mp h
  exact ⟨p.1, p.2, rfl, emit_inv rfl hx⟩

namespace BodyAction

variable {actions : List BodyAction} {answers : List BodyAnswer}

/-- A row of actions that came to its end, by its first action. -/
theorem runAll_cons_ok {a : BodyAction} (h : runAll (a :: actions) b = (answers, .ok b')) :
    ∃ answer b₁ rest, Gives a.run b answer b₁ ∧ runAll actions b₁ = (rest, .ok b') ∧ answers = answer :: rest := by
  unfold runAll at h
  rcases hrun : ExceptT.run a.run b with ⟨_ | answer, b₁⟩
  · rw [hrun] at h
    cases h
  · rw [hrun] at h
    rcases hrest : runAll actions b₁ with ⟨rest, result⟩
    simp only [hrest] at h
    cases h
    exact ⟨answer, b₁, rest, hrun, hrest, rfl⟩

theorem edits_of_runAll (ha : ∀ a ∈ actions, a.isDirect = false) (h : runAll actions b = (answers, .ok b')) :
    b.Edits b' := by
  induction actions generalizing b answers with
  | nil =>
    cases h
    exact .refl
  | cons a actions ih =>
    obtain ⟨answer, b₁, rest, hone, hrest, -⟩ := runAll_cons_ok h
    exact (edits_of_gives (ha a List.mem_cons_self) hone).trans
      (ih (fun a' h' => ha a' (List.mem_cons_of_mem _ h')) hrest)

end BodyAction

end Actions

/-! ## Changes of a module -/

/-- Whether an action writes to the tables by the rules of the builder alone. -/
def ModuleAction.ByBuilder : ModuleAction → Prop
  | .body _ actions => ∀ a ∈ actions, a.isDirect = false
  | _ => True

/-- One change of a module by the builder. -/
inductive Module.Edit (m : Module) : Module → Prop
  | signature (s : Signature) : Edit m (m.internSignature s).2
  | declare (name : String) (s : SigId) (linkage : Linkage) : Edit m (m.declareFunction name s linkage).2
  | global {name : String} {ty : Ty} {linkage : Linkage} {init : Option Constant} {g : GlobalId} {m' : Module}
      (h : m.addGlobal name ty linkage init = .ok (g, m')) : Edit m m'
  | data (contents : List UInt8) : Edit m (m.internData contents).2
  | body {f : FuncId} {b b' : Body} (hopen : m.open f = .ok b) (hb : b.Edits b') : Edit m (b'.close f)

/-- Any number of changes. -/
abbrev Module.Edits : Module → Module → Prop :=
  Relation.ReflTransGen Module.Edit

namespace Module

variable {m m' : Module}

/-- Writing to a function goes on at its entry block. -/
theorem open_eq_ok {f : FuncId} {b : Body} :
    m.open f = .ok b ↔ ∃ func, m.functions.get? f = some func ∧ b = { module := m, func, current := func.entry } := by
  unfold Module.open
  constructor
  · intro h
    cases hf : m.functions.get f with
    | error e =>
      rw [hf] at h
      cases h
    | ok func =>
      rw [hf] at h
      cases h
      exact ⟨func, Table.get_eq_ok.mp hf, rfl⟩
  · rintro ⟨func, hf, rfl⟩
    rw [Table.get_eq_ok.mpr hf]
    rfl

/-- What is put back into a module: the function of the body, and data. -/
theorem close_eq {f : FuncId} {b b' : Body} (hopen : m.open f = .ok b) (hb : b.Edits b') :
    ∃ data, b'.close f = { m with functions := m.functions.set f b'.func, data } ∧ m.data.Within data := by
  obtain ⟨func, hf, rfl⟩ := open_eq_ok.mp hopen
  obtain ⟨⟨data, hm, hd⟩, -⟩ := hb.frame
  refine ⟨data, ?_, hd⟩
  unfold Body.close
  rw [hm]

/-- The functions of a module to which a body was put back. -/
theorem close_get? {f g : FuncId} {b b' : Body} (hopen : m.open f = .ok b) (hb : b.Edits b') :
    (b'.close f).functions.get? g = if g = f then some b'.func else m.functions.get? g := by
  obtain ⟨func, hf, -⟩ := open_eq_ok.mp hopen
  obtain ⟨data, hclose, -⟩ := close_eq hopen hb
  rw [hclose]
  split
  · next hg =>
    subst hg
    exact Table.get?_set_self _ hf
  · next hg => exact Table.get?_set_of_ne _ hg

theorem within_close {f : FuncId} {b b' : Body} (hopen : m.open f = .ok b) (hb : b.Edits b') :
    b'.module.Within (b'.close f) := by
  obtain ⟨func, hf, rfl⟩ := open_eq_ok.mp hopen
  obtain ⟨⟨data, hm, hd⟩, hfunc⟩ := hb.frame
  have hf' : b'.module.functions.get? f = some func := by
    rw [hm]
    exact hf
  exact b'.module.within_setFunction hf' hfunc.name hfunc.signature

/-- A change takes nothing away from a module. -/
theorem Edit.within (h : m.Edit m') : m.Within m' := by
  cases h with
  | signature s =>
    obtain ⟨signatures, hm, hw, -⟩ := m.internSignature_eq s
    rw [hm]
    exact ⟨.refl _, hw, .refl _, fun _ f hf => ⟨f, hf, rfl, rfl⟩⟩
  | declare name s linkage =>
    exact ⟨.refl _, .refl _, .refl _, fun _ f hf => ⟨f, Table.within_push _ _ _ _ hf, rfl, rfl⟩⟩
  | global hadd =>
    rw [(addGlobal_inv hadd).2]
    exact ⟨Table.within_push _ _, .refl _, .refl _, fun _ f hf => ⟨f, hf, rfl, rfl⟩⟩
  | data contents => exact m.within_internData contents
  | body hopen hb =>
    obtain ⟨func, -, rfl⟩ := open_eq_ok.mp hopen
    exact hb.module_within.trans (within_close hopen hb)

/-- A function is only added to. -/
theorem Edit.function {i : FuncId} {f : Function} (h : m.Edit m') (hf : m.functions.get? i = some f) :
    ∃ g, m'.functions.get? i = some g ∧ f.Within g := by
  cases h with
  | signature s =>
    obtain ⟨signatures, hm, -⟩ := m.internSignature_eq s
    rw [hm]
    exact ⟨f, hf, .refl f⟩
  | declare name s linkage => exact ⟨f, Table.within_push _ _ _ _ hf, .refl f⟩
  | global hadd =>
    rw [(addGlobal_inv hadd).2]
    exact ⟨f, hf, .refl f⟩
  | data contents =>
    obtain ⟨data, hm, -⟩ := m.internData_eq contents
    rw [hm]
    exact ⟨f, hf, .refl f⟩
  | @body j b b' hopen hb =>
    rw [close_get? hopen hb]
    obtain ⟨func, hj, rfl⟩ := open_eq_ok.mp hopen
    split
    · next hi =>
      rw [hi, hj] at hf
      cases hf
      exact ⟨b'.func, rfl, hb.frame.2⟩
    · exact ⟨f, hf, .refl f⟩

/-- A function of a changed module was there before, or is only declared, or is the one that was written to. -/
theorem Edit.function_cases {i : FuncId} {f : Function} (h : m.Edit m') (hf : m'.functions.get? i = some f) :
    m.functions.get? i = some f ∨ (∃ name s linkage, f = .declared name s linkage) ∨
      ∃ b b', m.open i = .ok b ∧ b.Edits b' ∧ m' = b'.close i ∧ f = b'.func := by
  cases h with
  | signature s =>
    obtain ⟨signatures, hm, -⟩ := m.internSignature_eq s
    rw [hm] at hf
    exact .inl hf
  | declare name s linkage =>
    have hf : (m.functions.push _).get? i = some f := hf
    rw [Table.get?_push] at hf
    split at hf
    · cases hf
      exact .inr (.inl ⟨name, s, linkage, rfl⟩)
    · exact .inl hf
  | global hadd =>
    rw [(addGlobal_inv hadd).2] at hf
    exact .inl hf
  | data contents =>
    obtain ⟨data, hm, -⟩ := m.internData_eq contents
    rw [hm] at hf
    exact .inl hf
  | @body j b b' hopen hb =>
    rw [close_get? hopen hb] at hf
    split at hf
    · next hi =>
      cases hi
      cases hf
      exact .inr (.inr ⟨b, b', hopen, hb, rfl, rfl⟩)
    · exact .inl hf

theorem Edits.function {i : FuncId} {f : Function} (h : m.Edits m') (hf : m.functions.get? i = some f) :
    ∃ g, m'.functions.get? i = some g ∧ f.Within g := by
  induction h with
  | refl => exact ⟨f, hf, .refl f⟩
  | tail _ hstep ih =>
    obtain ⟨g, hg, hfg⟩ := ih
    obtain ⟨k, hk, hgk⟩ := hstep.function hg
    exact ⟨k, hk, hfg.trans hgk⟩

end Module

namespace ModuleAction

variable {m m' : Module}

/-- An answer to a question leaves the module. -/
theorem answer_ok {x : Except Fault ModuleAnswer} {given : ModuleAnswer} (h : answer m x = (given, .ok m')) :
    m' = m := by
  cases x <;> cases h
  rfl

/-- A body that was run to its end, and put back. -/
theorem run_body_ok {f : FuncId} {actions : List BodyAction} {given : ModuleAnswer}
    (h : (ModuleAction.body f actions).run m = (given, .ok m')) :
    ∃ b answers b', m.open f = .ok b ∧ BodyAction.runAll actions b = (answers, .ok b') ∧ given = .body answers ∧
      m' = b'.close f := by
  simp only [ModuleAction.run] at h
  cases hopen : m.open f with
  | error fault =>
    rw [hopen] at h
    cases h
  | ok b =>
    rw [hopen] at h
    rcases hrun : BodyAction.runAll actions b with ⟨answers, _ | b'⟩
    · simp only [hrun] at h
      cases h
    · simp only [hrun] at h
      cases h
      exact ⟨b, answers, b', rfl, hrun, rfl, rfl⟩

theorem edits_of_run {a : ModuleAction} (ha : a.ByBuilder) {given : ModuleAnswer} (h : a.run m = (given, .ok m')) :
    m.Edits m' := by
  cases a with
  | signature s =>
    cases h
    exact .single (.signature s)
  | declare name s linkage =>
    cases h
    exact .single (.declare name s linkage)
  | global name ty linkage init =>
    simp only [run] at h
    cases hadd : m.addGlobal name ty linkage init.constant? with
    | error e =>
      rw [hadd] at h
      cases h
      exact .refl
    | ok p =>
      rw [hadd] at h
      cases h
      exact .single (.global hadd)
  | data contents =>
    cases h
    exact .single (.data contents)
  | findFunction | findGlobal =>
    cases h
    exact .refl
  | signatureOf | function | listing =>
    obtain rfl := answer_ok h
    exact .refl
  | check =>
    simp only [run] at h
    split at h <;> cases h <;> exact .refl
  | body f actions =>
    obtain ⟨b, answers, b', hopen, hrun, -, rfl⟩ := run_body_ok h
    exact .single (.body hopen (BodyAction.edits_of_runAll ha hrun))

variable {actions : List ModuleAction} {answers : List ModuleAnswer}

/-- A script that came to its end, by its first action. -/
theorem runAll_cons_ok {a : ModuleAction} (h : runAll (a :: actions) m = (answers, .ok m')) :
    ∃ given m₁ rest, a.run m = (given, .ok m₁) ∧ runAll actions m₁ = (rest, .ok m') ∧ answers = given :: rest := by
  unfold runAll at h
  rcases hrun : a.run m with ⟨given, _ | m₁⟩
  · rw [hrun] at h
    cases h
  · rw [hrun] at h
    rcases hrest : runAll actions m₁ with ⟨rest, result⟩
    simp only [hrest] at h
    cases h
    exact ⟨given, m₁, rest, rfl, hrest, rfl⟩

/-- Whether a script comes to its end can be computed. -/
theorem exists_runAll_ok (h : (runAll actions m).2.toBool = true) :
    ∃ answers m', runAll actions m = (answers, .ok m') := by
  rcases hrun : runAll actions m with ⟨answers, _ | m'⟩
  · rw [hrun] at h
    cases h
  · exact ⟨answers, m', rfl⟩

theorem edits_of_runAll (ha : ∀ a ∈ actions, a.ByBuilder) (h : runAll actions m = (answers, .ok m')) :
    m.Edits m' := by
  induction actions generalizing m answers with
  | nil =>
    cases h
    exact .refl
  | cons a actions ih =>
    obtain ⟨given, m₁, rest, hone, hrest, -⟩ := runAll_cons_ok h
    exact (edits_of_run (ha a List.mem_cons_self) hone).trans
      (ih (fun a' h' => ha a' (List.mem_cons_of_mem _ h')) hrest)

end ModuleAction

end SsaCompiler.Ir
