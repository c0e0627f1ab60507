import SsaCompiler.Numeral.Reading
import SsaCompiler.Proofs.Numeral.FloatText

/-!
# Reading gives numbers

Rounding ends at infinity, so the number nearest to a decimal text is a number or an infinity.  Of the texts that
are read only the words stand for anything else, and a text that begins with a digit is no word:

    w.IsNumber (w.format.ofInt n)                                                          (isNumber_ofInt)
    w.format.read? text = some bits → w.IsNumber bits                                      (isNumber_of_read?)
-/

namespace SsaCompiler.Numeral

namespace BinaryFormat

theorem ofRatio_le (f : BinaryFormat) (num den : Nat) : f.ofRatio num den ≤ f.infinity := by
  unfold ofRatio
  split
  · exact Nat.zero_le _
  · exact Nat.min_le_left _ _

theorem ofDecimal_le (f : BinaryFormat) (n : Nat) (e : Int) : f.ofDecimal n e ≤ f.infinity := by
  unfold ofDecimal
  dsimp only
  split
  · exact Nat.zero_le _
  · split
    · exact Nat.le_refl _
    · split
      · exact Nat.zero_le _
      · split <;> exact f.ofRatio_le _ _

end BinaryFormat

namespace FloatWidth

variable {w : FloatWidth}

/-- A magnitude up to infinity is a number with either sign. -/
theorem isNumber_signed {magnitude : Nat} (h : magnitude ≤ w.format.infinity) (negative : Bool) :
    w.IsNumber (w.format.signed negative magnitude) := by
  have hlt : w.format.infinity < w.format.signWeight := by cases w <;> decide
  have hmagnitude : w.format.magnitude (w.format.signed negative magnitude) = magnitude := by
    unfold BinaryFormat.magnitude BinaryFormat.signed
    split
    · rw [Nat.add_mod_left, Nat.mod_eq_of_lt (by omega)]
    · exact Nat.mod_eq_of_lt (by omega)
  refine ⟨?_, hmagnitude.symm ▸ h⟩
  rw [twoTo_bits]
  unfold BinaryFormat.signed
  split <;> omega

theorem isNumber_ofInt (w : FloatWidth) (n : Int) : w.IsNumber (w.format.ofInt n) :=
  isNumber_signed (w.format.ofRatio_le _ _) _

theorem toLower_of_isDigit {c : Char} (h : c.isDigit = true) : c.toLower = c := by
  unfold Char.isDigit at h
  simp only [Bool.and_eq_true, decide_eq_true_eq, ge_iff_le, UInt32.le_iff_toNat_le] at h
  unfold Char.toLower
  refine dif_neg fun hupper => ?_
  simp only [ge_iff_le, UInt32.le_iff_toNat_le] at hupper
  have hnine : '9'.val.toNat < 'A'.val.toNat := by decide
  omega

/-- No word begins with a digit. -/
theorem readWord?_eq_none {f : BinaryFormat} {c : Char} (hc : c.isDigit = true) (cs : List Char) :
    f.readWord? (c :: cs) = none := by
  have hlower : c.toLower.isDigit = true := by
    rw [toLower_of_isDigit hc]
    exact hc
  have hne (word : String) (h : word.toList.head?.any Char.isDigit = false) :
      String.ofList ((c :: cs).map Char.toLower) ≠ word := by
    rintro rfl
    rw [String.toList_ofList] at h
    exact Bool.false_ne_true (h.symm.trans hlower)
  unfold BinaryFormat.readWord?
  split
  · next h => exact absurd h (hne "inf" (by decide))
  · next h => exact absurd h (hne "infinity" (by decide))
  · next h => exact absurd h (hne "nan" (by decide))
  · rfl

/-- **What is read of a text that begins with a digit is a number.** -/
theorem isNumber_of_read? {text : String} {bits : Nat} (htext : ∃ c cs, text.toList = c :: cs ∧ c.isDigit = true)
    (h : w.format.read? text = some bits) : w.IsNumber bits := by
  obtain ⟨c, cs, htext, hc⟩ := htext
  have hsign : readSign (c :: cs) = (false, c :: cs) := by
    unfold readSign
    split
    · next heq => cases heq; cases hc
    · next heq => cases heq; cases hc
    · rfl
  unfold BinaryFormat.read? at h
  rw [htext, hsign] at h
  obtain ⟨magnitude, hmagnitude, rfl⟩ := Option.map_eq_some_iff.mp h
  refine isNumber_signed ?_ false
  split at hmagnitude
  · cases hmagnitude
    exact w.format.ofDecimal_le _ _
  · rw [readWord?_eq_none hc] at hmagnitude
    cases hmagnitude

end FloatWidth

end SsaCompiler.Numeral
