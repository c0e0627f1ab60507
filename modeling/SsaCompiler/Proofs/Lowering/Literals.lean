import Mathlib.Algebra.Ring.Int.Defs
import Mathlib.Algebra.Ring.Nat
import SsaCompiler.Proofs.Ir.Constants
import SsaCompiler.Proofs.Lowering.Expression

/-!
# Integer literals

A literal goes through a range check, a cut to 64 bits, a cut to the width of its type in `iconst`, and
the reading of the constant.  For a literal that passes the check they all agree on one number, the
signed one of the lowest bits:

    literalFits width.bits n → (truncated width (.ofInt 64 n)).toInt = (.ofInt width.bits n : BitVec _).toInt
                                                                                   (toInt_truncated)
-/

namespace SsaCompiler.Lowering

open Ir (Build Constant)
open Numeral (IntWidth)

/-! ## Ranges -/

/-- The numbers that a literal may be: below 64 bits those of the width with or without a sign, and from
there on those that constants are held in. -/
theorem literalFits_iff {width : IntWidth} {n : Int} :
    literalFits width.bits n = true ↔
      if width.bits < 64 then -2 ^ (width.bits - 1) ≤ n ∧ n < 2 ^ width.bits else -2 ^ 63 ≤ n ∧ n < 2 ^ 63 := by
  unfold literalFits Numeral.fitsSigned
  split <;> rw [Bool.and_eq_true, decide_eq_true_iff, decide_eq_true_iff] <;>
    cases width <;> simp_all [IntWidth.bits, Numeral.twoTo]

/-- A wide literal is held as it is. -/
theorem toInt_ofInt_of_fits {width : IntWidth} {n : Int} (hw : ¬ width.bits < 64)
    (h : literalFits width.bits n = true) :
    (BitVec.ofInt 64 n).toInt = n ∧ (BitVec.ofInt width.bits n).toInt = n := by
  rw [literalFits_iff, if_neg hw] at h
  have hpow : (2 : Int) ^ 63 ≤ 2 ^ (width.bits - 1) := by
    have : (2 : Nat) ^ 63 ≤ 2 ^ (width.bits - 1) := Nat.pow_le_pow_right (by decide) (by omega)
    exact_mod_cast this
  exact ⟨BitVec.toInt_ofInt_eq_self (by decide) h.1 h.2,
    BitVec.toInt_ofInt_eq_self (by omega) (by omega) (by omega)⟩

/-- A constant holds the signed number of the lowest bits of its literal. -/
theorem toInt_truncated {width : IntWidth} {n : Int} (h : literalFits width.bits n = true) :
    (Build.truncated width (.ofInt 64 n)).toInt = (BitVec.ofInt width.bits n).toInt := by
  unfold Build.truncated
  by_cases hw : width.bits ≤ 64
  · rw [BitVec.toInt_signExtend_of_le hw, Ir.setWidth_ofInt hw]
  · obtain ⟨hheld, hwide⟩ := toInt_ofInt_of_fits (by omega) h
    have hle : 64 ≤ width.bits := by omega
    rw [BitVec.signExtend_eq_setWidth_of_le _ hle, BitVec.setWidth_setWidth_of_le _ hle, BitVec.setWidth_eq,
      hheld, hwide]

/-- A constant holds the number of its literal. -/
theorem ofInt_truncated {width : IntWidth} {n : Int} (h : literalFits width.bits n = true) :
    BitVec.ofInt width.bits (Build.truncated width (.ofInt 64 n)).toInt = BitVec.ofInt width.bits n := by
  rw [toInt_truncated h, BitVec.ofInt_toInt]

theorem toInt_ofInt_literal {width : IntWidth} {n : Int} (h : literalFits width.bits n = true) :
    (BitVec.ofInt width.bits n).toInt = if width.bits < 64 then n.bmod (2 ^ width.bits) else n := by
  split
  · exact BitVec.toInt_ofInt _
  · next hw => exact (toInt_ofInt_of_fits hw h).2

/-- What 64 bits hold fits them. -/
theorem fitsSigned_toInt (x : BitVec 64) : Numeral.fitsSigned 64 x.toInt = true := by
  have hlo := BitVec.le_toInt x
  have hhi := BitVec.toInt_lt (x := x)
  exact Numeral.fitsSigned_iff.mpr ⟨hlo, hhi⟩

/-- The constant of a literal is held in 64 bits. -/
theorem toInt64?_ofInt {width : IntWidth} {n : Int} (h : literalFits width.bits n = true) :
    Constant.toInt64? (.int width (.ofInt width.bits n)) = some (Build.truncated width (.ofInt 64 n)).toInt := by
  unfold Constant.toInt64?
  rw [toInt_truncated h]
  refine if_pos ?_
  rw [← toInt_truncated h]
  exact fitsSigned_toInt _

/-! ## Lowering -/

namespace Lower

theorem gives_build_iff {α : Type} {x : Build α} {s s' : BodyState} {a : α} :
    Gives (build x) s a s' ↔ ∃ b, Gives x s.body a b ∧ s' = { s with body := b } := by
  constructor
  · intro h
    obtain ⟨body, scope, line⟩ := s
    have hrun : build x ⟨body, scope, line⟩ = (.ok a, s') := h
    unfold build at hrun
    rcases hx : ExceptT.run x body with ⟨_ | value, b⟩
    · simp only [hx] at hrun
      cases hrun
    · simp only [hx] at hrun
      cases hrun
      exact ⟨b, hx, rfl⟩
  · rintro ⟨b, hx, rfl⟩
    exact gives_build hx

/-- An integer literal is lowered to the constant of its number, if that passes the check. -/
theorem gives_literal_iff {sign : Lang.Sign} {width : IntWidth} {text : String} {s s' : BodyState} {v : Typed} :
    Gives (literal (.int sign width) text) s v s' ↔
      ∃ n, Numeral.readSigned? 128 text = some n ∧ literalFits width.bits n = true ∧ v.ty = .int sign width ∧
        ∃ b, Gives (Build.iconst (.int width) (.ofInt 64 n)) s.body v.value b ∧ s' = { s with body := b } := by
  unfold literal
  simp only
  cases hread : (Numeral.readSigned? 128 text).filter (literalFits width.bits) with
  | none =>
    have hnone := Option.filter_eq_none_iff.mp hread
    constructor
    · intro h
      exact absurd h (by rintro ⟨⟩)
    · rintro ⟨n, hn, hfits, -⟩
      exact absurd hfits (hnone n hn)
  | some n =>
    obtain ⟨hn, hfits⟩ := Option.filter_eq_some_iff.mp hread
    simp only [gives_bind_iff, gives_pure_iff, gives_build_iff]
    constructor
    · rintro ⟨value, s₁, ⟨b, hb, rfl⟩, rfl, rfl⟩
      exact ⟨n, hn, hfits, rfl, b, hb, rfl⟩
    · rintro ⟨n', hn', -, hty, b, hb, rfl⟩
      obtain rfl : n = n' := Option.some.inj (hn.symm.trans hn')
      obtain ⟨value, ty⟩ := v
      cases hty
      exact ⟨value, _, ⟨b, hb, rfl⟩, rfl, rfl⟩

end Lower

/-- **Integer literals are checked, cut and read alike.**  A literal of an integer type is lowered exactly
if it is a number in the range of its width; the one instruction that is written holds the signed number
of its lowest bits, and the constant that is read from it is the one that the number makes.  So does every
integer constant that is written, and it is wherever there is a block to write to. -/
theorem literal_consistent (sign : Lang.Sign) (width : IntWidth) (text : String) :
    (∀ s : BodyState, s.body.Insertable →
      ((∃ v s', Gives (Lower.literal (.int sign width) text) s v s') ↔
        ∃ n, Numeral.readSigned? 128 text = some n ∧
          if width.bits < 64 then -2 ^ (width.bits - 1) ≤ n ∧ n < 2 ^ width.bits
          else -2 ^ 63 ≤ n ∧ n < 2 ^ 63)) ∧
      (∀ s v s', Gives (Lower.literal (.int sign width) text) s v s' →
        ∃ n bits c, Numeral.readSigned? 128 text = some n ∧ v.ty = .int sign width ∧
          s'.body.func.insts = s.body.func.insts.push ⟨.iconst bits, some v.value⟩ ∧
          bits.toInt = (if width.bits < 64 then n.bmod (2 ^ width.bits) else n) ∧
          Constant.ofInt? (.int width) n = some c ∧ s'.body.func.constant? v.value = .ok (some c) ∧
          c.toInt64? = some bits.toInt) ∧
      (∀ (b : Ir.Body) (bits : BitVec 64),
        (b.Insertable → ∃ v b', Gives (Build.iconst (.int width) bits) b v b') ∧
          ∀ v b', Gives (Build.iconst (.int width) bits) b v b' →
            b'.func.constant? v = .ok (Constant.ofInt? (.int width) bits.toInt)) := by
  refine ⟨?range, ?stored, ?constants⟩
  case range =>
    intro s hs
    constructor
    · rintro ⟨v, s', h⟩
      obtain ⟨n, hn, hfits, -⟩ := Lower.gives_literal_iff.mp h
      exact ⟨n, hn, literalFits_iff.mp hfits⟩
    · rintro ⟨n, hn, hrange⟩
      obtain ⟨v, b, hb⟩ := Build.gives_iconst_iff.mpr hs
      refine ⟨⟨v, .int sign width⟩, { s with body := b }, Lower.gives_literal_iff.mpr ?_⟩
      exact ⟨n, hn, literalFits_iff.mpr hrange, rfl, b, hb, rfl⟩
  case stored =>
    intro s v s' h
    obtain ⟨n, hn, hfits, hty, b, hb, rfl⟩ := Lower.gives_literal_iff.mp h
    refine ⟨n, _, .int width (.ofInt width.bits n), hn, hty, (Build.iconst_writes hb).1, ?_, rfl, ?_,
      toInt64?_ofInt hfits⟩
    · rw [toInt_truncated hfits, toInt_ofInt_literal hfits]
    · rw [Build.constant?_of_iconst hb]
      show Except.ok (some (Constant.int width _)) = _
      rw [← Build.ofInt_toInt_truncated, ofInt_truncated hfits]
  case constants =>
    intro b bits
    exact ⟨Build.gives_iconst_iff.mpr, fun v b' h => Build.constant?_of_iconst h⟩

/-- The largest literal of eight bits is held as the number of the same pattern with a sign. -/
theorem literal_consistent_largestByte :
    let s : BodyState := ⟨⟨.empty "m", (Ir.Function.declared "f" ⟨0⟩ .exported).opened [], some Ir.entryId⟩, [], 1⟩
    ∃ v s' bits, Gives (Lower.literal (.int .unsigned .w8) "255") s v s' ∧
      s'.body.func.insts.get? ⟨0⟩ = some ⟨.iconst bits, some v.value⟩ ∧ bits.toInt = -1 ∧
      s'.body.func.constant? v.value = .ok (some (.int .w8 255)) := by
  intro s
  obtain ⟨hrange, hstored, -⟩ := literal_consistent .unsigned .w8 "255"
  have hread : Numeral.readSigned? 128 "255" = some 255 := by decide +kernel
  have hs : s.body.Insertable := Ir.Body.AtEntry.insertable ⟨rfl, _, rfl⟩
  obtain ⟨v, s', h⟩ := (hrange s hs).mpr ⟨255, hread, by decide⟩
  obtain ⟨n, bits, c, hn, -, hinsts, hbits, hc, hconstant, -⟩ := hstored s v s' h
  obtain rfl : n = 255 := Option.some.inj (hn.symm.trans hread)
  obtain rfl : c = .int .w8 255 := Option.some.inj (hc.symm.trans (by decide))
  refine ⟨v, s', bits, h, ?_, hbits.trans (by decide), hconstant⟩
  rw [hinsts]
  rfl

end SsaCompiler.Lowering
