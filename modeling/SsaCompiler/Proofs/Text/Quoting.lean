import SsaCompiler.Text.Escape

/-!
# Quoted bytes

The spelling of a byte says where it ends, so the quoted spelling of a row of bytes tells the bytes:

    byteSpelling b ++ rest = byteSpelling b' ++ rest' → b = b' ∧ rest = rest'            (byteSpelling_append_inj)
    quoteBytes bytes = quoteBytes bytes' → bytes = bytes'                                (quoteBytes_inj)
-/

namespace SsaCompiler.Text

/-- The spelling of a byte of a data object. -/
def byteSpelling (b : UInt8) : List Char :=
  data.char (Char.ofNat b.toNat)

theorem toList_quoteBytes (bytes : List UInt8) :
    (quoteBytes bytes).toList = '"' :: (bytes.flatMap byteSpelling ++ ['"']) := by
  unfold quoteBytes Style.quote Style.encode
  rw [String.toList_ofList, List.flatMap_map]
  rfl

theorem toNat_ofNat_of_lt : ∀ n < 256, (Char.ofNat n).toNat = n := by
  decide +kernel

theorem toNat_charOfByte (b : UInt8) : (Char.ofNat b.toNat).toNat = b.toNat :=
  toNat_ofNat_of_lt _ b.toNat_lt

theorem charOfByte_inj {b b' : UInt8} (h : Char.ofNat b.toNat = Char.ofNat b'.toNat) : b = b' := by
  rw [← UInt8.toNat_inj, ← toNat_charOfByte b, h, toNat_charOfByte]

/-- A byte has two hexadecimal digits. -/
theorem hexDigits_of_lt : ∀ n < 256, hexDigits 2 n = [Nat.digitChar (n / 16), Nat.digitChar (n % 16)] := by
  decide +kernel

theorem digitChar_inj : ∀ i < 16, ∀ j < 16, Nat.digitChar i = Nat.digitChar j → i = j := by
  decide

/-- How a byte is spelled: by a letter after a backslash, as itself, or by its digits. -/
inductive SpelledAs (b : UInt8) : List Char → Prop
  | letter {l : Char} (hx : l ≠ 'x') (h : unescape l = some (Char.ofNat b.toNat)) : SpelledAs b ['\\', l]
  | plain (h : Char.ofNat b.toNat ≠ '\\') : SpelledAs b [Char.ofNat b.toNat]
  | digits : SpelledAs b ['\\', 'x', Nat.digitChar (b.toNat / 16), Nat.digitChar (b.toNat % 16)]

theorem spelledAs_byteSpelling (b : UInt8) : SpelledAs b (byteSpelling b) := by
  unfold byteSpelling Style.char
  cases hletter : data.letter (Char.ofNat b.toNat) with
  | some l =>
    have hl := unescape_sourceLetter hletter
    exact .letter (by rintro rfl; cases hl) hl
  | none =>
    dsimp only
    split
    · exact .plain (by intro heq; rw [heq] at hletter; cases hletter)
    · have hcoded : data.coded (Char.ofNat b.toNat) = ['\\', 'x'] ++ hexDigits 2 (Char.ofNat b.toNat).toNat := rfl
      rw [hcoded, toNat_charOfByte, hexDigits_of_lt _ b.toNat_lt]
      exact .digits

theorem byteSpelling_append_inj {b b' : UInt8} {rest rest' : List Char}
    (h : byteSpelling b ++ rest = byteSpelling b' ++ rest') : b = b' ∧ rest = rest' := by
  have hb := spelledAs_byteSpelling b
  have hb' := spelledAs_byteSpelling b'
  generalize byteSpelling b = cs at h hb
  generalize byteSpelling b' = cs' at h hb'
  cases hb with
  | letter hx hl =>
    cases hb' with
    | letter hx' hl' =>
      cases h
      exact ⟨charOfByte_inj (Option.some.inj (hl.symm.trans hl')), rfl⟩
    | plain hc' => exact absurd (List.cons.inj h).1.symm hc'
    | digits => exact absurd (List.cons.inj (List.cons.inj h).2).1 hx
  | plain hc =>
    cases hb' with
    | letter hx' hl' => exact absurd (List.cons.inj h).1 hc
    | plain hc' => exact ⟨charOfByte_inj (List.cons.inj h).1, (List.cons.inj h).2⟩
    | digits => exact absurd (List.cons.inj h).1 hc
  | digits =>
    cases hb' with
    | letter hx' hl' => exact absurd (List.cons.inj (List.cons.inj h).2).1.symm hx'
    | plain hc' => exact absurd (List.cons.inj h).1.symm hc'
    | digits =>
      simp only [List.cons_append, List.nil_append, List.cons.injEq, true_and] at h
      have hlt := b.toNat_lt
      have hlt' := b'.toNat_lt
      have hhigh := digitChar_inj _ (by omega) _ (by omega) h.1
      have hlow := digitChar_inj _ (by omega) _ (by omega) h.2.1
      exact ⟨UInt8.toNat_inj.mp (by omega), h.2.2⟩

/-- **The quoted spelling of bytes tells the bytes.** -/
theorem quoteBytes_inj {bytes bytes' : List UInt8} (h : quoteBytes bytes = quoteBytes bytes') : bytes = bytes' := by
  have hquoted := congrArg String.toList h
  rw [toList_quoteBytes, toList_quoteBytes] at hquoted
  have hflat : bytes.flatMap byteSpelling = bytes'.flatMap byteSpelling :=
    List.append_cancel_right (List.cons.inj hquoted).2
  have hne (b : UInt8) : byteSpelling b ≠ [] := by
    have hb := spelledAs_byteSpelling b
    intro hnil
    rw [hnil] at hb
    cases hb
  clear h hquoted
  induction bytes generalizing bytes' with
  | nil =>
    cases bytes' with
    | nil => rfl
    | cons b' bytes' => exact absurd (List.append_eq_nil_iff.mp hflat.symm).1 (hne b')
  | cons b bytes ih =>
    cases bytes' with
    | nil => exact absurd (List.append_eq_nil_iff.mp hflat).1 (hne b)
    | cons b' bytes' =>
      rw [List.flatMap_cons, List.flatMap_cons] at hflat
      obtain ⟨rfl, hrest⟩ := byteSpelling_append_inj hflat
      rw [ih hrest]

/-- A quoted spelling stands on one line. -/
theorem newline_not_mem_quoteBytes (bytes : List UInt8) : '\n' ∉ (quoteBytes bytes).toList := by
  have hall : ∀ n < 256, '\n' ∉ data.char (Char.ofNat n) := by decide +kernel
  have hbyte (b : UInt8) : '\n' ∉ byteSpelling b := hall _ b.toNat_lt
  rw [toList_quoteBytes]
  simp only [List.mem_cons, List.mem_append, List.mem_flatMap, List.not_mem_nil, or_false, not_or, not_exists, not_and]
  exact ⟨by decide, fun b _ => hbyte b, by decide⟩

end SsaCompiler.Text
