import SsaCompiler.Proofs.Ir.StraightLine
import SsaCompiler.Proofs.Semantics.World

/-!
# Running functions

A function is run by executing the instructions of its entry block one after the other.  Registers hold
the values that have been computed, and the slots of the frame are memory of the call.

    step I O m f data st       an instruction that is no return
    exec I O m f is st         instructions up to a return: what is returned, and the world then
    runFunction I O m f args w the function with its parameters in registers
-/

namespace SsaCompiler.Semantics

open Ir (Ty Module Function Inst InstData InstId ValueId SlotId)

variable {V σ : Type}

/-- The state between two instructions. -/
structure Machine (V σ : Type) where
  regs : ValueId → Option (Datum V)
  slots : SlotId → Option (Datum V)
  world : World V σ

/-- A table with another entry. -/
def update {e : Ir.Entity} {α : Type} (t : Ir.Id e → Option α) (i : Ir.Id e) (a : α) : Ir.Id e → Option α :=
  fun j => if j = i then some a else t j

@[simp] theorem update_self {e : Ir.Entity} {α : Type} (t : Ir.Id e → Option α) (i : Ir.Id e) (a : α) :
    update t i a i = some a := if_pos rfl

theorem update_of_ne {e : Ir.Entity} {α : Type} (t : Ir.Id e → Option α) {i j : Ir.Id e} (a : α) (h : j ≠ i) :
    update t i a j = t j := if_neg h

section

variable (I : Interpretation V) (O : Oracle V σ) (m : Module) (f : Function)

/-- What an instruction with a result of a type computes, and the world after it. -/
def compute (st : Machine V σ) (ty : Ty) : Inst → Option (V × World V σ)
  | .unary op arg => (st.regs arg).map fun x => (I.unary op x ty, st.world)
  | .binary op lhs rhs =>
    (st.regs lhs).bind fun x => (st.regs rhs).map fun y => (I.binary op x y, st.world)
  | .iconst bits =>
    match ty with
    | .int width => some (I.integer width (BitVec.ofInt width.bits bits.toInt), st.world)
    | _ => none
  | .fconst bits =>
    match ty with
    | .float width => some (I.floating width (bits.setWidth width.bits), st.world)
    | _ => none
  | .stackLoad slot => (st.slots slot).map fun x => (x.val, st.world)
  | .globalLoad global => (m.globals.get? global).map fun g => (O.global st.world.state g.name, st.world)
  | .dataAddr data => (m.data.get? data).map fun object => (I.address object.bytes, st.world)
  | .call callee args =>
    (m.functions.get? callee).bind fun g => (args.mapM st.regs).map fun xs => st.world.ask O g.name xs
  | .stackStore .. | .ret _ => none

/-- An instruction that is no return. -/
def step (data : InstData) (st : Machine V σ) : Option (Machine V σ) :=
  match data.inst with
  | .stackStore value slot => (st.regs value).map fun x => { st with slots := update st.slots slot x }
  | inst =>
    match data.result with
    | none => (compute I O m st .void inst).map fun (_, world) => { st with world }
    | some v =>
      (f.values.get? v).bind fun value =>
        (compute I O m st value.ty inst).map fun (x, world) =>
          { st with regs := update st.regs v ⟨value.ty, x⟩, world }

/-- Instructions up to a return: what is returned, and the world then. -/
def exec : List InstId → Machine V σ → Option (Option (Datum V) × World V σ)
  | [], _ => none
  | i :: is, st =>
    (f.insts.get? i).bind fun data =>
      match data.inst with
      | .ret none => some (none, st.world)
      | .ret (some v) => (st.regs v).map fun x => (some x, st.world)
      | _ => (step I O m f data st).bind (exec is)

/-- The registers that hold the parameters. -/
def enter : List ValueId → List V → Option (ValueId → Option (Datum V))
  | [], [] => some fun _ => none
  | v :: vs, x :: xs =>
    (f.values.get? v).bind fun value => (enter vs xs).map fun regs => update regs v ⟨value.ty, x⟩
  | _, _ => none

/-- What a function returns for some arguments, and the world then. -/
def runFunction (args : List V) (w : World V σ) : Option (Option (Datum V) × World V σ) :=
  f.entry.bind fun entry =>
    (f.blocks.get? entry).bind fun block =>
      (enter f block.params.toList args).bind fun regs =>
        exec I O m f block.insts.toList { regs, slots := fun _ => none, world := w }

/-! ## One instruction at a time -/

/-- The run from an instruction on. -/
def resume (n : Nat) (st : Machine V σ) : Option (Option (Datum V) × World V σ) :=
  exec I O m f ((List.range' n (f.insts.size - n)).map (⟨·⟩)) st

end

variable {I : Interpretation V} {O : Oracle V σ} {m : Module} {f : Function}

theorem resume_eq {n : Nat} {data : InstData} (h : f.insts.get? ⟨n⟩ = some data) (st : Machine V σ) :
    resume I O m f n st =
      match data.inst with
      | .ret none => some (none, st.world)
      | .ret (some v) => (st.regs v).map fun x => (some x, st.world)
      | _ => (step I O m f data st).bind (resume I O m f (n + 1)) := by
  have hlt : n < f.insts.size := Ir.Table.index_lt_of_get? h
  have hrange : (List.range' n (f.insts.size - n)).map Ir.Id.mk =
      (⟨n⟩ : InstId) :: (List.range' (n + 1) (f.insts.size - (n + 1))).map Ir.Id.mk := by
    rw [show f.insts.size - n = (f.insts.size - (n + 1)) + 1 by omega, List.range'_succ, List.map_cons]
  show exec I O m f ((List.range' n (f.insts.size - n)).map Ir.Id.mk) st = _
  rw [hrange]
  show (f.insts.get? ⟨n⟩).bind _ = _
  rw [h]
  rfl

variable {g : Function} {st : Machine V σ}

/-- The instruction that a stage of the function was extended with. -/
theorem get?_of_snoc {inst : Inst} {ty : Option Ty} (hg : (g.snoc inst ty).Within f) :
    f.insts.get? ⟨g.insts.size⟩ = some ⟨inst, ty.map fun _ => g.values.next⟩ :=
  hg.insts _ _ (Ir.Table.get?_push_next g.insts _)

/-- An instruction with a result. -/
theorem resume_value {inst : Inst} {ty : Ty} {x : V} {world : World V σ} (hg : (g.snoc inst (some ty)).Within f)
    (hx : compute I O m st ty inst = some (x, world)) :
    resume I O m f g.insts.size st =
      resume I O m f (g.snoc inst (some ty)).insts.size
        { st with regs := update st.regs g.values.next ⟨ty, x⟩, world } := by
  have hv : f.valueType g.values.next = .ok ty := hg.valueType (g.snoc_valueType_next inst ty)
  obtain ⟨value, hget, rfl⟩ := Function.valueType_eq_ok.mp hv
  rw [resume_eq (get?_of_snoc hg), Function.snoc_insts, Ir.Table.size_push]
  cases inst with
  | stackStore value slot => cases hx
  | ret value => cases hx
  | _ => simp only [step, Option.map_some, hget, hx, Option.bind_some]

/-- A store. -/
theorem resume_store {v : ValueId} {slot : SlotId} {x : Datum V} (hg : (g.snoc (.stackStore v slot) none).Within f)
    (hx : st.regs v = some x) :
    resume I O m f g.insts.size st =
      resume I O m f (g.snoc (.stackStore v slot) none).insts.size
        { st with slots := update st.slots slot x } := by
  rw [resume_eq (get?_of_snoc hg), Function.snoc_insts, Ir.Table.size_push]
  simp only [step, hx, Option.bind_some, Option.map_some]

/-- A call without a result. -/
theorem resume_call {callee : Ir.FuncId} {args : List ValueId} {r : V × World V σ}
    (hg : (g.snoc (.call callee args) none).Within f)
    (hx : compute I O m st .void (.call callee args) = some r) :
    resume I O m f g.insts.size st =
      resume I O m f (g.snoc (.call callee args) none).insts.size { st with world := r.2 } := by
  rw [resume_eq (get?_of_snoc hg), Function.snoc_insts, Ir.Table.size_push]
  simp only [step, hx, Option.bind_some, Option.map_some, Option.map_none]

/-- A return ends the run. -/
theorem resume_ret_none (hg : (g.snoc (.ret none) none).Within f) :
    resume I O m f g.insts.size st = some (none, st.world) := by
  rw [resume_eq (get?_of_snoc hg)]

theorem resume_ret_some {v : ValueId} {x : Datum V} (hg : (g.snoc (.ret (some v)) none).Within f)
    (hx : st.regs v = some x) : resume I O m f g.insts.size st = some (some x, st.world) := by
  rw [resume_eq (get?_of_snoc hg)]
  simp only [hx, Option.map_some]

end SsaCompiler.Semantics
