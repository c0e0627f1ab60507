import SsaCompiler.Proofs.Lowering.Conversions
import SsaCompiler.Proofs.Lowering.Emission
import SsaCompiler.Proofs.Lowering.Literals
import SsaCompiler.Proofs.Semantics.Source

/-!
# What the chosen operations do

Lowering chooses operations by the types of the language, direct evaluation by the representations of
values.  They choose the same, and a constant holds the number that its literal writes:

    conversion? a b = some (.apply op) → a.repr? = some s → b.repr? = some t → conversion a.isSigned s t = some op
    literalFits width.bits n → the constant for `n` is the pattern of `n`
-/

namespace SsaCompiler.Semantics

open Lang (Prim BinaryOp)
open Ir (Ty Opcode)
open Numeral (IntWidth FloatWidth)
open Lowering (conversion? arithmetic? literalFits repr?_of_keep)

variable {V : Type}

/-! ## Constants -/

theorem setWidth_ofNat (width : FloatWidth) (bits : Nat) :
    (BitVec.ofNat 64 bits).setWidth width.bits = BitVec.ofNat width.bits bits := by
  have hle : width.bits ≤ 64 := by cases width <;> decide
  apply BitVec.eq_of_toNat_eq
  rw [BitVec.toNat_setWidth, BitVec.toNat_ofNat, BitVec.toNat_ofNat, Nat.mod_mod_of_dvd _ (Nat.pow_dvd_pow 2 hle)]

/-! ## Conversions and arithmetic -/

theorem conversion_of_apply {source target : Prim} {op : Opcode} {s t : Ty} (hne : source ≠ target)
    (h : conversion? source target = some (.apply op)) (hs : source.repr? = some s)
    (ht : target.repr? = some t) : s ≠ t ∧ conversion source.isSigned s t = some op := by
  cases source <;> cases target <;>
    simp [conversion?, Prim.isPointer, Prim.isInt, Prim.repr?] at h hs ht <;> subst hs ht
  case int.int sign width sign' width' =>
    by_cases hlt : width.bits < width'.bits
    · rw [if_pos hlt] at h
      cases h
      constructor
      · rintro ⟨⟩
        omega
      · have hle : ¬ width'.bits < width.bits := by omega
        show some (if width'.bits < width.bits then _ else _) = _
        rw [if_neg hle]
        cases sign <;> rfl
    · rw [if_neg hlt] at h
      split at h
      · next hgt =>
        cases h
        constructor
        · rintro ⟨⟩
          omega
        · show some (if width'.bits < width.bits then _ else _) = _
          rw [if_pos hgt]
      · cases h
  case float.float width width' =>
    revert h
    cases width <;> cases width' <;> simp [FloatWidth.bits] at hne ⊢ <;> rintro rfl <;> rfl
  all_goals
    subst h
    exact ⟨by rintro ⟨⟩, rfl⟩

theorem arithmetic_of_arithmetic? {op : BinaryOp} {ty : Prim} {opcode : Opcode} {t : Ty}
    (h : arithmetic? op ty = some opcode) (ht : ty.repr? = some t) : arithmetic op t = some opcode := by
  cases op <;> cases ty <;> simp [arithmetic?, Prim.repr?] at h ht <;> subst h ht <;> rfl

/-! ## Values -/

/-- Whether a value is of a type of the language, and held as the values of that type are. -/
structure Value.Of (x : Value V) (a : Prim) : Prop where
  ty : x.ty = a
  repr : a.repr? = some x.datum.ty

/-- A representation that two types share is left alone. -/
theorem convert_of_repr? (I : Interpretation V) {x : Value V} {target : Prim} (h : target.repr? = some x.datum.ty) :
    convert I x target = some ⟨target, x.datum⟩ := by
  unfold convert
  rw [h, Option.bind_some, if_pos rfl]

theorem convert_of_apply (I : Interpretation V) {x : Value V} {source target : Prim} {op : Opcode} {t : Ty}
    (hx : x.Of source) (hne : source ≠ target) (hc : conversion? source target = some (.apply op))
    (ht : target.repr? = some t) : convert I x target = some ⟨target, ⟨t, I.unary op x.datum t⟩⟩ := by
  obtain ⟨hs, hconv⟩ := conversion_of_apply hne hc hx.repr ht
  unfold convert
  rw [ht, Option.bind_some, if_neg hs, hx.ty, hconv, Option.map_some]

theorem declared_eq {ty : Prim} {t : Ty} (h : ty.repr? = some t) (v : V) : declared ty v = some ⟨ty, ⟨t, v⟩⟩ := by
  unfold declared
  rw [h, Option.map_some]

end SsaCompiler.Semantics
