import SsaCompiler.Proofs.Semantics.Machine

/-!
# Stretches of a run

A function is written in stages, each of which extends the one before it.  What was written between two
stages is a stretch of instructions, which can be run on its own from any machine:

    advance I O m f n k st      the machine after `k` instructions from the `n`-th on
    stretch I O m f g g' st     the machine after the instructions that `g'` has beyond `g`
-/

namespace SsaCompiler.Semantics

open Ir (Ty Module Function Inst ValueId SlotId)

variable {V σ : Type}

section

variable (I : Interpretation V) (O : Oracle V σ) (m : Module) (f : Function)

/-- The machine after a number of instructions from one on, none of which may be a return. -/
def advance (n : Nat) : Nat → Machine V σ → Option (Machine V σ)
  | 0, st => some st
  | k + 1, st => (advance n k st).bind fun st' => (f.insts.get? ⟨n + k⟩).bind fun data => step I O m f data st'

/-- The machine after the instructions that one stage of a function has beyond another. -/
def stretch (g g' : Function) (st : Machine V σ) : Option (Machine V σ) :=
  advance I O m f g.insts.size (g'.insts.size - g.insts.size) st

end

variable {I : Interpretation V} {O : Oracle V σ} {m : Module} {f : Function}

theorem advance_add (n k l : Nat) (st : Machine V σ) :
    advance I O m f n (k + l) st = (advance I O m f n k st).bind (advance I O m f (n + k) l) := by
  induction l with
  | zero =>
    show advance I O m f n k st = (advance I O m f n k st).bind some
    cases advance I O m f n k st <;> rfl
  | succ l ih =>
    have hplace : n + (k + l) = n + k + l := (Nat.add_assoc n k l).symm
    show (advance I O m f n (k + l) st).bind
      (fun st' => (f.insts.get? ⟨n + (k + l)⟩).bind fun data => step I O m f data st') = _
    rw [ih, Option.bind_assoc, hplace]
    rfl

theorem stretch_refl (g : Function) (st : Machine V σ) : stretch I O m f g g st = some st := by
  unfold stretch
  rw [Nat.sub_self]
  rfl

theorem stretch_trans {g g' g'' : Function} (h : g.Within g') (h' : g'.Within g'') (st : Machine V σ) :
    stretch I O m f g g'' st = (stretch I O m f g g' st).bind (stretch I O m f g' g'') := by
  have hle := h.insts.size_le
  have hle' := h'.insts.size_le
  unfold stretch
  rw [show g''.insts.size - g.insts.size =
      (g'.insts.size - g.insts.size) + (g''.insts.size - g'.insts.size) by omega, advance_add,
    show g.insts.size + (g'.insts.size - g.insts.size) = g'.insts.size by omega]

variable {g : Function} {st : Machine V σ}

theorem stretch_snoc {inst : Inst} {ty : Option Ty} (hg : (g.snoc inst ty).Within f) :
    stretch I O m f g (g.snoc inst ty) st = step I O m f ⟨inst, ty.map fun _ => g.values.next⟩ st := by
  unfold stretch
  rw [Function.snoc_insts, Ir.Table.size_push, Nat.add_sub_cancel_left]
  show (some st).bind (fun st' => (f.insts.get? ⟨g.insts.size + 0⟩).bind fun data => step I O m f data st') = _
  rw [Option.bind_some, Nat.add_zero, get?_of_snoc hg, Option.bind_some]

/-- An instruction with a result. -/
theorem stretch_value {inst : Inst} {ty : Ty} {x : V} {world : World V σ} (hg : (g.snoc inst (some ty)).Within f)
    (hx : compute I O m st ty inst = some (x, world)) :
    stretch I O m f g (g.snoc inst (some ty)) st =
      some { st with regs := update st.regs g.values.next ⟨ty, x⟩, world } := by
  have hv : f.valueType g.values.next = .ok ty := hg.valueType (g.snoc_valueType_next inst ty)
  obtain ⟨value, hget, rfl⟩ := Function.valueType_eq_ok.mp hv
  rw [stretch_snoc hg]
  cases inst with
  | stackStore value slot => cases hx
  | ret value => cases hx
  | _ => simp only [step, Option.map_some, hget, hx, Option.bind_some]

/-- A store. -/
theorem stretch_store {v : ValueId} {slot : SlotId} {x : Datum V} (hg : (g.snoc (.stackStore v slot) none).Within f)
    (hx : st.regs v = some x) :
    stretch I O m f g (g.snoc (.stackStore v slot) none) st = some { st with slots := update st.slots slot x } := by
  rw [stretch_snoc hg]
  simp only [step, hx, Option.map_some]

end SsaCompiler.Semantics
