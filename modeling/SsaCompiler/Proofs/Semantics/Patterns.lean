import SsaCompiler.Proofs.Semantics.Operations

/-!
# Integers as bit patterns

A pattern stands for one number with a sign and for another without, and an integer type holds the
numbers that its patterns stand for.  An interpretation is in two's complement if the operations between
integers act on patterns: extension repeats the sign bit or puts zeros, and wrapping keeps the lowest bits.
The operation that lowering chooses by the types then keeps the number as far as the width goes:

    conversion? (.int σ₁ w₁) (.int σ₂ w₂) = some (.apply op) →
      I.unary op x (.int w₂) = the pattern of `number σ₁ x`                       (unary_of_conversion)
-/

namespace SsaCompiler.Semantics

open Lang (Sign)
open Ir (Opcode setWidth_ofInt)
open Numeral (IntWidth)
open Lowering (Conversion conversion? extension)

/-! ## Numbers -/

/-- The number that a pattern stands for. -/
def number (sign : Sign) {w : Nat} (x : BitVec w) : Int :=
  match sign with
  | .signed => x.toInt
  | .unsigned => x.toNat

/-- Whether an integer type has a number. -/
def Represents (sign : Sign) (width : IntWidth) (n : Int) : Prop :=
  match sign with
  | .signed => -2 ^ (width.bits - 1) ≤ n ∧ n < 2 ^ (width.bits - 1)
  | .unsigned => 0 ≤ n ∧ n < 2 ^ width.bits

theorem represents_number (sign : Sign) {width : IntWidth} (x : BitVec width.bits) :
    Represents sign width (number sign x) := by
  cases sign with
  | signed => exact ⟨BitVec.le_toInt x, BitVec.toInt_lt⟩
  | unsigned =>
    have h : ((x.toNat : Nat) : Int) < ((2 ^ width.bits : Nat) : Int) := Int.ofNat_lt.mpr x.isLt
    push_cast at h
    exact ⟨Int.natCast_nonneg _, h⟩

/-- A pattern is that of its number. -/
@[simp] theorem ofInt_number (sign : Sign) {w : Nat} (x : BitVec w) : BitVec.ofInt w (number sign x) = x := by
  cases sign with
  | signed => exact BitVec.ofInt_toInt
  | unsigned =>
    show BitVec.ofInt w (x.toNat : Int) = x
    rw [BitVec.ofInt_natCast, BitVec.ofNat_toNat, BitVec.setWidth_eq]

/-- A number of a type is that of its pattern. -/
theorem number_ofInt {sign : Sign} {width : IntWidth} {n : Int} (h : Represents sign width n) :
    number sign (BitVec.ofInt width.bits n) = n := by
  cases sign with
  | signed => exact BitVec.toInt_ofInt_eq_self (by cases width <;> decide) h.1 h.2
  | unsigned =>
    show ((BitVec.ofInt width.bits n).toNat : Int) = n
    have hmod : n % ((2 ^ width.bits : Nat) : Int) = n := Int.emod_eq_of_lt h.1 (by push_cast; exact h.2)
    rw [BitVec.toNat_ofInt, hmod, Int.toNat_of_nonneg h.1]

/-- A pattern read without a sign is the number modulo the number of patterns. -/
theorem toNat_ofInt_emod (w : Nat) (n : Int) : ((BitVec.ofInt w n).toNat : Int) = n % 2 ^ w := by
  have hpos : ((2 ^ w : Nat) : Int) ≠ 0 := by
    have := Nat.two_pow_pos w
    omega
  rw [BitVec.toNat_ofInt, Int.toNat_of_nonneg (Int.emod_nonneg _ hpos)]
  push_cast
  rfl

/-- The lowest bits of a pattern are a pattern of the same number. -/
theorem setWidth_eq_ofInt {v w : Nat} (h : v ≤ w) (sign : Sign) (x : BitVec w) :
    x.setWidth v = BitVec.ofInt v (number sign x) := by
  rw [← setWidth_ofInt h, ofInt_number]

/-- A number that went through a pattern has kept the bits of any narrower one. -/
theorem ofInt_number_ofInt {v w : Nat} (h : v ≤ w) (sign : Sign) (n : Int) :
    BitVec.ofInt v (number sign (BitVec.ofInt w n)) = BitVec.ofInt v n := by
  rw [← setWidth_eq_ofInt h, setWidth_ofInt h]

/-! ## Operations -/

variable {V : Type}

/-- A pattern with the type that holds it. -/
def Interpretation.pattern (I : Interpretation V) {width : IntWidth} (x : BitVec width.bits) : Datum V :=
  ⟨.int width, I.integer width x⟩

/-- Whether the operations between integers are those on patterns. -/
structure Interpretation.TwosComplement (I : Interpretation V) : Prop where
  extendS : ∀ {v w : IntWidth} (x : BitVec v.bits), v.bits < w.bits →
    I.unary .extendS (I.pattern x) (.int w) = I.integer w (x.signExtend w.bits)
  extendU : ∀ {v w : IntWidth} (x : BitVec v.bits), v.bits < w.bits →
    I.unary .extendU (I.pattern x) (.int w) = I.integer w (x.zeroExtend w.bits)
  wrap : ∀ {v w : IntWidth} (x : BitVec v.bits), w.bits < v.bits →
    I.unary .wrap (I.pattern x) (.int w) = I.integer w (x.truncate w.bits)

/-- The operation of a conversion gives the pattern of the number. -/
theorem unary_of_conversion {I : Interpretation V} (hI : I.TwosComplement) {σ₁ σ₂ : Sign} {w₁ w₂ : IntWidth}
    {op : Opcode} (h : conversion? (.int σ₁ w₁) (.int σ₂ w₂) = some (.apply op)) (x : BitVec w₁.bits) :
    I.unary op (I.pattern x) (.int w₂) = I.integer w₂ (BitVec.ofInt w₂.bits (number σ₁ x)) := by
  change (if w₁.bits < w₂.bits then some (.apply (extension σ₁))
    else if w₂.bits < w₁.bits then some (.apply .wrap) else some .keep) = some (Conversion.apply op) at h
  by_cases hwider : w₁.bits < w₂.bits
  · rw [if_pos hwider] at h
    cases h
    cases σ₁ with
    | signed => exact hI.extendS x hwider
    | unsigned =>
      show I.unary .extendU (I.pattern x) (.int w₂) = _
      rw [hI.extendU x hwider]
      congr 1
      show x.setWidth w₂.bits = BitVec.ofInt w₂.bits (x.toNat : Int)
      rw [BitVec.ofInt_natCast, BitVec.ofNat_toNat]
  · by_cases hnarrower : w₂.bits < w₁.bits
    · rw [if_neg hwider, if_pos hnarrower] at h
      cases h
      rw [hI.wrap x hnarrower]
      congr 1
      exact setWidth_eq_ofInt (Nat.le_of_lt hnarrower) σ₁ x
    · rw [if_neg hwider, if_neg hnarrower] at h
      cases h

/-- The interpretation by patterns, each held as the number that it is without a sign. -/
def patterns : Interpretation Nat where
  integer _ x := x.toNat
  floating _ x := x.toNat
  address _ := 0
  unary op x ty :=
    match op, x.ty, ty with
    | .extendS, .int v, .int w => ((BitVec.ofNat v.bits x.val).signExtend w.bits).toNat
    | .extendU, .int v, .int w => ((BitVec.ofNat v.bits x.val).zeroExtend w.bits).toNat
    | .wrap, .int v, .int w => ((BitVec.ofNat v.bits x.val).truncate w.bits).toNat
    | _, _, _ => x.val
  binary _ x _ := x.val

theorem twosComplement_patterns : patterns.TwosComplement where
  extendS {v w} x _ := by
    show ((BitVec.ofNat v.bits x.toNat).signExtend w.bits).toNat = (x.signExtend w.bits).toNat
    rw [BitVec.ofNat_toNat, BitVec.setWidth_eq]
  extendU {v w} x _ := by
    show ((BitVec.ofNat v.bits x.toNat).zeroExtend w.bits).toNat = (x.zeroExtend w.bits).toNat
    rw [BitVec.ofNat_toNat, BitVec.setWidth_eq]
  wrap {v w} x _ := by
    show ((BitVec.ofNat v.bits x.toNat).truncate w.bits).toNat = (x.truncate w.bits).toNat
    rw [BitVec.ofNat_toNat, BitVec.setWidth_eq]

end SsaCompiler.Semantics
