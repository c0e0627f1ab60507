import Mathlib.Algebra.Order.Field.Power
import Mathlib.Algebra.Order.Field.Rat
import Mathlib.Tactic.Linarith
import Mathlib.Tactic.Positivity
import Mathlib.Tactic.Ring
import SsaCompiler.Numeral.Width

/-!
# The interval of a shortest decimal

The shortest decimal of a finite magnitude lies in its interval, and no number lies in the intervals of two
magnitudes, so the decimal tells the magnitude:

    (f.interval m).Has (n * 10 ^ p)         where (n, p) = shortest f m                        (has_shortest)
    (f.interval m).Has q → (f.interval m').Has q → m = m'                                     (eq_of_has)

On a grid that is finer than the interval is wide one of the neighbours of the value lies in it, and the finest
grid that is tried is finer for up to 53 bits (`exists_neighbour?`).  The intervals follow each other without
gaps, and of two that meet only one holds the end they share, as their parities differ.
-/

namespace SsaCompiler.Numeral

theorem cast_twoTo (n : Nat) : (twoTo n : ℚ) = 2 ^ n := by
  simp [twoTo]

theorem cast_tenTo (n : Nat) : (tenTo n : ℚ) = 10 ^ n := by
  simp [tenTo]

/-- A power of ten as a quotient of two of which one is 1. -/
theorem tenTo_zpow (p : Int) : (10 : ℚ) ^ p * tenTo (-p).toNat = tenTo p.toNat := by
  rw [cast_tenTo, cast_tenTo, ← zpow_natCast, ← zpow_natCast, ← zpow_add₀ (by norm_num)]
  congr 1
  omega

theorem twoTo_zpow (p : Int) : (2 : ℚ) ^ p * twoTo (-p).toNat = twoTo p.toNat := by
  rw [cast_twoTo, cast_twoTo, ← zpow_natCast, ← zpow_natCast, ← zpow_add₀ (by norm_num)]
  congr 1
  omega

namespace Interval

/-! ## Points of an interval -/

/-- Whether a number lies in an interval. -/
def Has (i : Interval) (q : ℚ) : Prop :=
  (i.low < q * i.den ∨ i.closed = true ∧ i.low = q * i.den) ∧
    (q * i.den < i.high ∨ i.closed = true ∧ q * i.den = i.high)

theorem contains_iff (i : Interval) (n : Nat) : i.contains n = true ↔ i.Has n := by
  unfold contains Has
  cases i.closed with
  | true =>
    simp only [if_true, Bool.and_eq_true, decide_eq_true_eq, true_and, ← le_iff_lt_or_eq]
    exact_mod_cast Iff.rfl
  | false =>
    simp only [Bool.false_eq_true, if_false, Bool.and_eq_true, decide_eq_true_eq, false_and, or_false]
    exact_mod_cast Iff.rfl

/-- The points in units of a power of ten are the points. -/
theorem has_inUnits (i : Interval) (p : Int) (q : ℚ) : (i.inUnits p).Has q ↔ i.Has (q * 10 ^ p) := by
  have hup : (0 : ℚ) < tenTo (-p).toNat := by exact_mod_cast tenTo_pos _
  have hpoint : q * (i.den * tenTo p.toNat : Nat) = q * 10 ^ p * i.den * tenTo (-p).toNat := by
    rw [Nat.cast_mul, ← tenTo_zpow p]
    ring
  unfold Has inUnits
  simp only [hpoint]
  rw [Nat.cast_mul, Nat.cast_mul, mul_lt_mul_iff_left₀ hup, mul_lt_mul_iff_left₀ hup, mul_left_inj' hup.ne', mul_left_inj' hup.ne']

/-! ## The neighbours of the value -/

theorem contains_of_neighbour? {i : Interval} {n : Nat} (h : i.neighbour? = some n) : i.contains n = true := by
  unfold neighbour? at h
  dsimp only at h
  split at h
  · split at h <;> cases h <;> assumption
  · cases h
    assumption
  · cases h
    assumption
  · cases h

/-- An interval that is wider than a unit holds one of the integers around its value. -/
theorem exists_neighbour? {i : Interval} (hden : 0 < i.den) (hlow : i.low < i.value) (hhigh : i.value < i.high)
    (hwide : i.low + i.den < i.high) : ∃ n, i.neighbour? = some n := by
  have hdown : i.value / i.den * i.den ≤ i.value := Nat.div_mul_le_self _ _
  have hup : i.value < (i.value / i.den + 1) * i.den := Nat.lt_mul_of_div_lt (Nat.lt_succ_self _) hden
  have hstep : (i.value / i.den + 1) * i.den = i.value / i.den * i.den + i.den := Nat.succ_mul _ _
  have hone : i.contains (i.value / i.den) = true ∨ i.contains (i.value / i.den + 1) = true := by
    unfold contains
    cases i.closed with
    | true =>
      simp only [if_true, Bool.and_eq_true, decide_eq_true_eq]
      omega
    | false =>
      simp only [Bool.false_eq_true, if_false, Bool.and_eq_true, decide_eq_true_eq]
      omega
  unfold neighbour?
  dsimp only
  rcases hone with h | h
  · rw [h]
    cases i.contains (i.value / i.den + 1) <;> exact ⟨_, rfl⟩
  · rw [h]
    cases i.contains (i.value / i.den) <;> exact ⟨_, rfl⟩

/-- A positive number has no fewer digits than the powers of ten below it. -/
theorem tenTo_pred_length_le {n : Nat} (hn : 0 < n) : 10 ^ ((Nat.toDigits 10 n).length - 1) ≤ n := by
  rcases Nat.eq_or_lt_of_le (Nat.length_toDigits_pos (b := 10) (n := n)) with hone | hmore
  · rw [← hone]
    exact hn
  · refine Nat.not_lt.mp fun hlt => ?_
    have := (Nat.length_toDigits_le_iff (by decide) (by omega)).mpr hlt
    omega

/-- The leading digit of the value is at the power of ten below its decimal exponent. -/
theorem le_value {i : Interval} (hden : 0 < i.den) (hvalue : 0 < i.value) :
    (10 : ℚ) ^ (i.decimalExponent - 1) * i.den ≤ i.value := by
  unfold decimalExponent
  split
  · next hle =>
    have hdigits := tenTo_pred_length_le (Nat.div_pos hle hden)
    have hlength := Nat.length_toDigits_pos (b := 10) (n := i.value / i.den)
    have hexponent : ((Nat.toDigits 10 (i.value / i.den)).length : Int) - 1 =
        ((Nat.toDigits 10 (i.value / i.den)).length - 1 : Nat) := by omega
    rw [hexponent, zpow_natCast]
    have hmul : 10 ^ ((Nat.toDigits 10 (i.value / i.den)).length - 1) * i.den ≤ i.value :=
      (Nat.mul_le_mul_right _ hdigits).trans (Nat.div_mul_le_self _ _)
    exact_mod_cast hmul
  · have hlength := Nat.length_toDigits_pos (b := 10) (n := (i.den - 1) / i.value)
    have hlt := (Nat.length_toDigits_le_iff (by decide) hlength).mp (Nat.le_refl _)
    have hmul := Nat.lt_mul_of_div_lt hlt hvalue
    have hle : i.den ≤ 10 ^ (Nat.toDigits 10 ((i.den - 1) / i.value)).length * i.value := by omega
    rw [sub_sub_cancel_left, zpow_neg, zpow_natCast, inv_mul_le_iff₀ (by positivity)]
    exact_mod_cast hle

/-- On the finest grid that is tried an interval of some width holds a neighbour of the value. -/
theorem exists_neighbour?_finest {i : Interval} (hden : 0 < i.den) (hlow : i.low < i.value) (hhigh : i.value < i.high)
    (hwide : i.value + 10 ^ 16 * i.low < 10 ^ 16 * i.high) :
    ∃ n, (i.inUnits (i.decimalExponent - 17)).neighbour? = some n := by
  have hup := tenTo_pos (-(i.decimalExponent - 17)).toNat
  have hten := tenTo_pos (i.decimalExponent - 17).toNat
  refine exists_neighbour? (Nat.mul_pos hden hten) (Nat.mul_lt_mul_of_pos_right hlow hup)
    (Nat.mul_lt_mul_of_pos_right hhigh hup) ?_
  have hle := le_value hden (Nat.zero_lt_of_lt hlow)
  have hpower : (10 : ℚ) ^ (i.decimalExponent - 1) = 10 ^ (i.decimalExponent - 17) * 10 ^ 16 := by
    rw [← zpow_natCast, ← zpow_add₀ (by norm_num)]
    congr 1
    omega
  have hwide' : (i.value : ℚ) + 10 ^ 16 * i.low < 10 ^ 16 * i.high := by exact_mod_cast hwide
  have hunit : (i.low : ℚ) + i.den * 10 ^ (i.decimalExponent - 17) < i.high := by
    rw [hpower] at hle
    linarith
  have hscaled := mul_lt_mul_of_pos_right hunit (Nat.cast_pos.mpr hup)
  rw [add_mul, mul_assoc, tenTo_zpow] at hscaled
  show i.low * _ + i.den * _ < i.high * _
  exact_mod_cast hscaled

end Interval

/-! ## Finite magnitudes -/

namespace BinaryFormat

variable (f : BinaryFormat)

/-- The distance from a magnitude down to the end of its interval, in quarters of its unit. -/
def below (m : Nat) : Nat :=
  if f.fractionField m = 0 ∧ 1 < f.exponentField m then 1 else 2

/-- A quarter of the unit of a magnitude. -/
def quarter (m : Nat) : ℚ :=
  2 ^ ((f.decode m).2 - 2)

theorem quarter_pos (m : Nat) : 0 < f.quarter m := by
  unfold quarter
  positivity

/-- The upper end of the interval of a magnitude. -/
def upper (m : Nat) : ℚ :=
  (4 * (f.decode m).1 + 2 : Nat) * f.quarter m

theorem den_interval_pos (m : Nat) : 0 < (f.interval m).den :=
  twoTo_pos _

theorem quarter_mul_den (m : Nat) : f.quarter m * (f.interval m).den = twoTo ((f.decode m).2 - 2).toNat :=
  twoTo_zpow _

theorem low_interval (m : Nat) :
    ((f.interval m).low : ℚ) = (4 * (f.decode m).1 - f.below m : Nat) * f.quarter m * (f.interval m).den := by
  rw [mul_assoc, quarter_mul_den]
  exact Nat.cast_mul _ _

theorem high_interval (m : Nat) : ((f.interval m).high : ℚ) = f.upper m * (f.interval m).den := by
  rw [upper, mul_assoc, quarter_mul_den]
  exact Nat.cast_mul _ _

theorem decode_of_zero {m : Nat} (h : f.exponentField m = 0) : f.decode m = (f.fractionField m, f.leastExponent) :=
  if_pos h

theorem decode_of_pos {m : Nat} (h : 0 < f.exponentField m) : f.decode m =
    (f.fractionField m + twoTo f.fractionBits, f.leastExponent + f.exponentField m - 1) :=
  if_neg h.ne'

/-! ### Neighbouring magnitudes -/

/-- The fields of the next magnitude: the fraction goes on, or wraps around into the exponent. -/
theorem fields_succ (m : Nat) :
    (f.fractionField (m + 1) = f.fractionField m + 1 ∧ f.exponentField (m + 1) = f.exponentField m) ∨
      (f.fractionField m + 1 = twoTo f.fractionBits ∧ f.fractionField (m + 1) = 0 ∧
        f.exponentField (m + 1) = f.exponentField m + 1) := by
  unfold fractionField exponentField
  have hpos := twoTo_pos f.fractionBits
  have hlt := Nat.mod_lt m hpos
  have hm := Nat.div_add_mod m (twoTo f.fractionBits)
  rcases Nat.lt_or_ge (m % twoTo f.fractionBits + 1) (twoTo f.fractionBits) with h | h
  · have hsucc : m + 1 = twoTo f.fractionBits * (m / twoTo f.fractionBits) + (m % twoTo f.fractionBits + 1) := by omega
    refine .inl ⟨?_, ?_⟩
    · rw [hsucc, Nat.mul_add_mod, Nat.mod_eq_of_lt h]
    · rw [hsucc, Nat.mul_add_div hpos, Nat.div_eq_of_lt h, Nat.add_zero]
  · have hsucc : m + 1 = twoTo f.fractionBits * (m / twoTo f.fractionBits + 1) := by
      rw [Nat.mul_succ]
      omega
    refine .inr ⟨by omega, ?_, ?_⟩
    · rw [hsucc, Nat.mul_mod_right]
    · rw [hsucc, Nat.mul_div_cancel_left _ hpos]

/-- The lower end of the interval of the next magnitude, in quarters of the next unit, is the upper end of this one. -/
theorem lower_succ (m : Nat) :
    (4 * (f.decode (m + 1)).1 - f.below (m + 1) : Nat) * f.quarter (m + 1) = f.upper m := by
  unfold upper quarter below
  rcases f.fields_succ m with ⟨hfraction, hexponent⟩ | ⟨hwrap, hfraction, hexponent⟩
  · rw [hfraction, if_neg fun h => Nat.succ_ne_zero _ h.1]
    rcases Nat.eq_zero_or_pos (f.exponentField m) with hzero | hpos
    · rw [f.decode_of_zero hzero, f.decode_of_zero (hexponent.trans hzero), hfraction]
      congr 2
    · rw [f.decode_of_pos hpos, f.decode_of_pos (hexponent ▸ hpos), hfraction, hexponent]
      congr 2
      simp only
      omega
  · have hpos : 0 < f.exponentField (m + 1) := by omega
    rw [f.decode_of_pos hpos, hfraction, hexponent]
    rcases Nat.eq_zero_or_pos (f.exponentField m) with hzero | hpos
    · rw [f.decode_of_zero hzero, hzero, if_neg (by omega), ← hwrap]
      simp only
      congr 2
      · omega
      · omega
    · -- the unit of the next magnitude is twice as large, and its interval begins one quarter below
      rw [f.decode_of_pos hpos, if_pos ⟨rfl, by omega⟩, ← hwrap]
      simp only
      rw [show f.leastExponent + ((f.exponentField m + 1 : Nat) : Int) - 1 - 2 =
        f.leastExponent + f.exponentField m - 1 - 2 + 1 by omega, zpow_add_one₀ (by norm_num)]
      rw [show 4 * (0 + (f.fractionField m + 1)) - 1 = 4 * f.fractionField m + 3 by omega]
      push_cast
      ring

/-- The interval of the next magnitude begins where this one ends. -/
theorem low_interval_succ (m : Nat) : ((f.interval (m + 1)).low : ℚ) = f.upper m * (f.interval (m + 1)).den := by
  rw [low_interval, lower_succ]

theorem below_pos (m : Nat) : 0 < f.below m := by
  unfold below
  split <;> decide

theorem upper_lt_succ (m : Nat) : f.upper m < f.upper (m + 1) := by
  rw [← f.lower_succ m]
  refine mul_lt_mul_of_pos_right ?_ (f.quarter_pos _)
  exact_mod_cast (by omega : 4 * (f.decode (m + 1)).1 - f.below (m + 1) < 4 * (f.decode (m + 1)).1 + 2)

theorem upper_strictMono : StrictMono f.upper :=
  strictMono_nat_of_lt_succ f.upper_lt_succ

/-- Exactly the intervals of the even magnitudes hold their ends. -/
theorem closed_interval_iff (hf : 0 < f.fractionBits) (m : Nat) : (f.interval m).closed = true ↔ m % 2 = 0 := by
  obtain ⟨k, hk⟩ : ∃ k, twoTo f.fractionBits = 2 * k := by
    obtain ⟨n, hn⟩ := Nat.exists_eq_add_one_of_ne_zero hf.ne'
    exact ⟨twoTo n, by rw [hn, twoTo_succ, Nat.mul_comm]⟩
  have hfraction : f.fractionField m % 2 = m % 2 := by
    unfold fractionField
    rw [hk, Nat.mod_mul_right_mod]
  have hparity : (f.decode m).1 % 2 = m % 2 := by
    rcases Nat.eq_zero_or_pos (f.exponentField m) with hzero | hpos
    · rw [f.decode_of_zero hzero]
      exact hfraction
    · rw [f.decode_of_pos hpos]
      simp only
      omega
  show decide ((f.decode m).1 % 2 = 0) = true ↔ _
  rw [decide_eq_true_iff, hparity]

/-- No number lies in the intervals of two magnitudes, one below the other. -/
theorem not_has_of_lt (hf : 0 < f.fractionBits) {m m' : Nat} {q : ℚ} (h : (f.interval m).Has q) (hlt : m < m') :
    ¬ (f.interval m').Has q := by
  intro h'
  obtain ⟨k, rfl⟩ : ∃ k, m' = k + 1 := ⟨m' - 1, by omega⟩
  have hden : (0 : ℚ) < (f.interval m).den := by exact_mod_cast f.den_interval_pos m
  have hden' : (0 : ℚ) < (f.interval (k + 1)).den := by exact_mod_cast f.den_interval_pos (k + 1)
  have habove := h.2
  have hbelow := h'.1
  rw [high_interval, mul_lt_mul_iff_left₀ hden, mul_left_inj' hden.ne'] at habove
  rw [low_interval_succ, mul_lt_mul_iff_left₀ hden', mul_left_inj' hden'.ne'] at hbelow
  have hle : f.upper m ≤ f.upper k := f.upper_strictMono.monotone (by omega)
  rcases habove with habove | ⟨hclosed, rfl⟩
  · rcases hbelow with hbelow | ⟨-, hbelow⟩ <;> linarith
  · rcases hbelow with hbelow | ⟨hclosed', hbelow⟩
    · linarith
    · have hk : k = m := f.upper_strictMono.injective hbelow
      rw [f.closed_interval_iff hf] at hclosed hclosed'
      omega

/-- A number that lies in the interval of a magnitude tells it. -/
theorem eq_of_has (hf : 0 < f.fractionBits) {m m' : Nat} {q : ℚ} (h : (f.interval m).Has q)
    (h' : (f.interval m').Has q) : m = m' := by
  rcases Nat.lt_trichotomy m m' with hlt | heq | hgt
  · exact absurd h' (f.not_has_of_lt hf h hlt)
  · exact heq
  · exact absurd h (f.not_has_of_lt hf h' hgt)

/-! ### The shortest decimal -/

theorem value_lt_high (m : Nat) : (f.interval m).value < (f.interval m).high :=
  Nat.mul_lt_mul_of_pos_right (by omega) (twoTo_pos _)

/-- The value nothing lies in its own interval. -/
theorem has_zero : (f.interval 0).Has 0 := by
  have hfields : f.decode 0 = (0, f.leastExponent) := by
    rw [f.decode_of_zero (by simp [exponentField]), fractionField, Nat.zero_mod]
  have hlow : (f.interval 0).low = 0 := by
    show (4 * (f.decode 0).1 - f.below 0) * _ = 0
    rw [hfields, Nat.mul_zero, Nat.zero_sub, Nat.zero_mul]
  have hclosed : (f.interval 0).closed = true := by
    show decide ((f.decode 0).1 % 2 = 0) = true
    rw [hfields]
    rfl
  unfold Interval.Has
  rw [hlow, hclosed, zero_mul]
  exact ⟨.inr ⟨rfl, Nat.cast_zero⟩, .inl (by exact_mod_cast Nat.zero_lt_of_lt (f.value_lt_high 0))⟩

theorem significand_pos {m : Nat} (hm : 0 < m) : 0 < (f.decode m).1 := by
  rcases Nat.eq_zero_or_pos (f.exponentField m) with hzero | hpos
  · rw [f.decode_of_zero hzero]
    show 0 < f.fractionField m
    unfold exponentField at hzero
    unfold fractionField
    have := Nat.div_add_mod m (twoTo f.fractionBits)
    rw [hzero] at this
    omega
  · rw [f.decode_of_pos hpos]
    exact Nat.add_pos_right _ (twoTo_pos _)

theorem low_lt_value {m : Nat} (hm : 0 < m) : (f.interval m).low < (f.interval m).value := by
  have := f.significand_pos hm
  have := f.below_pos m
  exact Nat.mul_lt_mul_of_pos_right (by omega : 4 * (f.decode m).1 - f.below m < 4 * (f.decode m).1) (twoTo_pos _)

/-- With at most 53 bits of significand, an interval is wider than the seventeenth digit of its value. -/
theorem wide_interval (hf : f.fractionBits ≤ 52) (m : Nat) :
    (f.interval m).value + 10 ^ 16 * (f.interval m).low < 10 ^ 16 * (f.interval m).high := by
  have hbits : twoTo f.fractionBits ≤ 2 ^ 52 := Nat.pow_le_pow_right (by decide) hf
  have hfraction : f.fractionField m < twoTo f.fractionBits := Nat.mod_lt _ (twoTo_pos _)
  have hquarters : 4 * (f.decode m).1 + 10 ^ 16 * (4 * (f.decode m).1 - f.below m) <
      10 ^ 16 * (4 * (f.decode m).1 + 2) := by
    unfold below
    rcases Nat.eq_zero_or_pos (f.exponentField m) with hzero | hpos
    · rw [f.decode_of_zero hzero, hzero]
      simp only
      omega
    · rw [f.decode_of_pos hpos]
      simp only
      split <;> omega
  have hscaled := Nat.mul_lt_mul_of_pos_right hquarters (twoTo_pos ((f.decode m).2 - 2).toNat)
  rw [Nat.add_mul, Nat.mul_assoc (10 ^ 16), Nat.mul_assoc (10 ^ 16)] at hscaled
  exact hscaled

/-- The shortest decimal of a positive magnitude lies in its interval. -/
theorem has_shortest (hf : f.fractionBits ≤ 52) {m : Nat} (hm : 0 < m) :
    (f.interval m).Has ((shortest f m).1 * 10 ^ (shortest f m).2) := by
  have hhas {n : Nat} {p : Int} (h : ((f.interval m).inUnits p).neighbour? = some n) : (f.interval m).Has (n * 10 ^ p) :=
    ((f.interval m).has_inUnits p n).mp ((Interval.contains_iff _ n).mp (Interval.contains_of_neighbour? h))
  obtain ⟨n, hn⟩ := Interval.exists_neighbour?_finest (f.den_interval_pos m) (f.low_lt_value hm) (f.value_lt_high m)
    (f.wide_interval hf m)
  let onGrid (p : Int) := ((f.interval m).inUnits p).neighbour?.map (·, p)
  let grids := (List.range mostDigits).map fun (n : Nat) => (f.interval m).decimalExponent - 1 - n
  have hsome : (grids.findSome? onGrid).isSome = true := by
    refine List.findSome?_isSome_iff.mpr ⟨(f.interval m).decimalExponent - 17, List.mem_map.mpr ⟨16, by decide, ?_⟩, ?_⟩
    · omega
    · show ((Interval.neighbour? _).map _).isSome = true
      rw [hn]
      rfl
  obtain ⟨⟨n, p⟩, hfound⟩ := Option.isSome_iff_exists.mp hsome
  obtain ⟨p', -, hp'⟩ := List.exists_of_findSome?_eq_some hfound
  obtain ⟨n', hneighbour, heq⟩ := Option.map_eq_some_iff.mp hp'
  cases heq
  have hpoint := hhas hneighbour
  unfold shortest
  dsimp only
  rw [show List.findSome? _ _ = some (n, p) from hfound]
  split
  · next hten =>
    cases hten
    rw [zpow_add_one₀ (by norm_num)]
    convert hpoint using 1
    push_cast
    ring
  · next hother =>
    cases hother
    exact hpoint
  · next hnone => cases hnone

end BinaryFormat

end SsaCompiler.Numeral
