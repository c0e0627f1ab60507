import SsaCompiler.Numeral.Reading
import SsaCompiler.Proofs.Numeral.Shortest
import SsaCompiler.Proofs.Text.Spans

/-!
# The text of a number tells the number

However the digits of a floating-point number are set out, reading them gives the value that the digits stand
for, and this value lies in the interval of the number alone:

    (constantLayout.magnitude f m) spells a number in (f.interval m)       for a finite m       (spells_magnitude)
    w.text bits = w.text bits' → bits = bits'                              for numbers          (FloatWidth.text_inj)
-/

namespace SsaCompiler.Numeral

open Text (takeWhile_span dropWhile_span)

/-! ## Rows of digits -/

def AreDigits (cs : List Char) : Prop :=
  ∀ c ∈ cs, c.isDigit = true

theorem areDigits_toDigits (n : Nat) : AreDigits (Nat.toDigits 10 n) :=
  fun _ => Nat.isDigit_of_mem_toDigits (by decide) (by decide)

theorem areDigits_zeros (k : Nat) : AreDigits (List.replicate k '0') := by
  intro c hc
  rw [(List.mem_replicate.mp hc).2]
  rfl

theorem AreDigits.append {cs ds : List Char} (h : AreDigits cs) (h' : AreDigits ds) : AreDigits (cs ++ ds) :=
  fun c hc => (List.mem_append.mp hc).elim (h c) (h' c)

theorem AreDigits.take {cs : List Char} (h : AreDigits cs) (k : Nat) : AreDigits (cs.take k) :=
  fun c hc => h c (List.mem_of_mem_take hc)

theorem AreDigits.drop {cs : List Char} (h : AreDigits cs) (k : Nat) : AreDigits (cs.drop k) :=
  fun c hc => h c (List.mem_of_mem_drop hc)

theorem digitsValue_toDigits (n : Nat) : digitsValue (Nat.toDigits 10 n) = n :=
  Nat.ofDigitChars_toDigits (by decide) (by decide)

/-- Zeros at the end are factors of ten. -/
theorem digitsValue_append_zeros (cs : List Char) (k : Nat) :
    digitsValue (cs ++ List.replicate k '0') = digitsValue cs * 10 ^ k := by
  induction k with
  | zero => simp
  | succ k ih =>
    rw [List.replicate_succ', ← List.append_assoc]
    unfold digitsValue at ih ⊢
    rw [List.foldl_append, ih, List.foldl_cons, List.foldl_nil, Nat.pow_succ]
    show 10 * _ + 0 = _
    ring

/-- Zeros at the beginning do not count. -/
theorem digitsValue_zeros_append (cs : List Char) (k : Nat) :
    digitsValue (List.replicate k '0' ++ cs) = digitsValue cs := by
  have hzero := digitsValue_append_zeros [] k
  rw [List.nil_append, show digitsValue [] = 0 from rfl, Nat.zero_mul] at hzero
  unfold digitsValue at hzero ⊢
  rw [List.foldl_append, hzero]

/-! ## Reading -/

/-- Whether a text is read as a decimal that stands for a number. -/
def Spells (text : List Char) (q : ℚ) : Prop :=
  ∃ n power, readDecimal? text = some (n, power) ∧ (n : ℚ) * 10 ^ power = q

section

variable {whole fraction rest : List Char} {power : Int}

/-- Digits with a point among them. -/
theorem spells_point (hwhole : AreDigits whole) (hne : whole ≠ []) (hfraction : AreDigits fraction)
    (hrest : ∀ c ∈ rest.head?, c.isDigit = false) (hpower : readExponent? rest = some power) :
    Spells (whole ++ '.' :: (fraction ++ rest)) (digitsValue (whole ++ fraction) * 10 ^ (power - fraction.length)) := by
  refine ⟨digitsValue (whole ++ fraction), power - fraction.length, ?_, rfl⟩
  have hpoint : ∀ c ∈ ('.' :: (fraction ++ rest)).head?, c.isDigit = false := by
    rintro c ⟨⟩
    rfl
  unfold readDecimal?
  simp only [takeWhile_span hwhole hpoint, dropWhile_span hwhole hpoint, takeWhile_span hfraction hrest,
    dropWhile_span hfraction hrest]
  rw [if_neg (by simp [hne]), hpower]
  rfl

/-- Digits without a point. -/
theorem spells_whole (hwhole : AreDigits whole) (hne : whole ≠ [])
    (hrest : ∀ c ∈ rest.head?, c.isDigit = false ∧ c ≠ '.') (hpower : readExponent? rest = some power) :
    Spells (whole ++ rest) (digitsValue whole * 10 ^ power) := by
  refine ⟨digitsValue whole, power, ?_, rfl⟩
  have hdigit : ∀ c ∈ rest.head?, c.isDigit = false := fun c hc => (hrest c hc).1
  unfold readDecimal?
  simp only [takeWhile_span hwhole hdigit, dropWhile_span hwhole hdigit]
  split
  · exact absurd rfl (hrest '.' rfl).2
  · simp [hne, hpower]

end

/-- Digits around the point, `place` of them before it. -/
theorem spells_positional {digits : List Char} (hdigits : AreDigits digits) (hne : digits ≠ []) (place : Int) :
    Spells (positional digits place).toList (digitsValue digits * 10 ^ (place - digits.length)) := by
  have hten : (10 : ℚ) ≠ 0 := by norm_num
  have hnil : ∀ c ∈ ([] : List Char).head?, c.isDigit = false := nofun
  unfold positional
  dsimp only
  split
  · next hplace =>
    have hzero : AreDigits ['0'] := areDigits_zeros 1
    have h := spells_point hzero (List.cons_ne_nil _ _) ((areDigits_zeros (-place).toNat).append hdigits) hnil rfl
    have hvalue : digitsValue (['0'] ++ (List.replicate (-place).toNat '0' ++ digits)) = digitsValue digits := by
      rw [← List.append_assoc]
      exact digitsValue_zeros_append digits ((-place).toNat + 1)
    have hpower : (0 : Int) - (List.replicate (-place).toNat '0' ++ digits).length = place - digits.length := by
      rw [List.length_append, List.length_replicate]
      omega
    rw [hvalue, hpower] at h
    simpa using h
  · split
    · next hplace hlong =>
      have h := spells_point (hdigits.append (areDigits_zeros (place.toNat - digits.length))) (by simp [hne])
        (areDigits_zeros 1) hnil rfl
      have hvalue : digitsValue (digits ++ List.replicate (place.toNat - digits.length) '0' ++ List.replicate 1 '0') =
          digitsValue digits * 10 ^ (place.toNat - digits.length + 1) := by
        rw [List.append_assoc, List.replicate_append_replicate, digitsValue_append_zeros]
      have hpower : place - digits.length = ((place.toNat - digits.length + 1 : Nat) : Int) + -1 := by omega
      rw [hvalue] at h
      rw [hpower, zpow_add₀ hten, zpow_natCast]
      convert h using 1
      · simp
      · push_cast
        rw [mul_assoc]
        rfl
    · next hplace hshort =>
      have h := spells_point (hdigits.take place.toNat) (by simp [hne]; omega) (hdigits.drop place.toNat) hnil rfl
      have hpower : (0 : Int) - (digits.drop place.toNat).length = place - digits.length := by
        rw [List.length_drop]
        omega
      rw [List.take_append_drop, hpower] at h
      simpa using h

/-! ## Integers and exponents -/

theorem readNat?_repr (n : Nat) : readNat? n.repr.toList = some n := by
  unfold readNat?
  rw [Nat.repr_eq_ofList_toDigits, String.toList_ofList, digitsValue_toDigits]
  exact if_pos ⟨Nat.toDigits_ne_nil, List.all_eq_true.mpr (areDigits_toDigits n)⟩

theorem readSign_of_isDigit {cs : List Char} (h : ∀ c ∈ cs.head?, c.isDigit = true) : readSign cs = (false, cs) := by
  unfold readSign
  split
  · exact absurd (h '-' rfl) (by decide)
  · exact absurd (h '+' rfl) (by decide)
  · rfl

/-- The text of an integer is read as it. -/
theorem readInt?_toString (n : Int) : readInt? (toString n) = some n := by
  have hread (negative : Bool) (k : Nat) :
      (readNat? k.repr.toList).map (applySign negative) = some (applySign negative k) := by
    rw [readNat?_repr, Option.map_some]
  show (readNat? (readSign (toString n).toList).2).map (applySign (readSign (toString n).toList).1) = some n
  rw [Int.toString_eq_repr, Int.repr_eq_if]
  split
  · next hnonneg =>
    have hsign : readSign n.toNat.repr.toList = (false, n.toNat.repr.toList) := by
      refine readSign_of_isDigit fun c hc => ?_
      rw [Nat.repr_eq_ofList_toDigits, String.toList_ofList] at hc
      exact areDigits_toDigits _ c (List.mem_of_mem_head? hc)
    rw [hsign, hread, applySign]
    simp [hnonneg]
  · next hneg =>
    rw [String.toList_append]
    show (readNat? (-n).toNat.repr.toList).map (applySign true) = some n
    rw [hread, applySign]
    simp
    omega

theorem readExponent?_toString (power : Int) : readExponent? ('e' :: (toString power).toList) = some power :=
  readInt?_toString power

/-- Digits with one before the point and a power of ten. -/
theorem spells_exponential {l : FloatLayout} (hmark : l.exponentMark = "e") {digits : List Char}
    (hdigits : AreDigits digits) (hne : digits ≠ []) (power : Int) :
    Spells (l.exponential digits power).toList (digitsValue digits * 10 ^ (power - digits.length + 1)) := by
  have hexponent := readExponent?_toString power
  have hrest : ∀ c ∈ ('e' :: (toString power).toList).head?, c.isDigit = false ∧ c ≠ '.' := by
    rintro c ⟨⟩
    decide
  unfold FloatLayout.exponential
  rw [hmark, String.toList_append, String.toList_append, String.toList_ofList]
  show Spells (_ ++ ['e'] ++ _) _
  rw [List.append_assoc, List.singleton_append]
  split
  · next d e rest =>
    have h := spells_point (hdigits.take 1) (List.cons_ne_nil d []) (hdigits.drop 1) (fun c hc => (hrest c hc).1) hexponent
    have hpower : power - (d :: e :: rest).length + 1 = power - (e :: rest).length := by
      simp only [List.length_cons]
      omega
    rw [hpower]
    simpa using h
  · next hshort =>
    obtain ⟨d, rfl⟩ : ∃ d, digits = [d] := by
      match digits, hne with
      | [d], _ => exact ⟨d, rfl⟩
      | d :: e :: rest, _ => exact absurd rfl (hshort d e rest)
    have h := spells_whole hdigits hne hrest hexponent
    simpa using h

/-! ## Characters -/

/-- Whether a character may stand in the text of a number. -/
def InNumeral (c : Char) : Prop :=
  c.isAlphanum = true ∨ c = '.' ∨ c = '-'

theorem AreDigits.inNumeral {cs : List Char} (h : AreDigits cs) : ∀ c ∈ cs, InNumeral c := by
  intro c hc
  left
  rw [Char.isAlphanum, h c hc, Bool.or_true]

theorem inNumeral_repr (n : Nat) : ∀ c ∈ n.repr.toList, InNumeral c := by
  rw [Nat.repr_eq_ofList_toDigits, String.toList_ofList]
  exact (areDigits_toDigits n).inNumeral

theorem inNumeral_toString (n : Int) : ∀ c ∈ (toString n).toList, InNumeral c := by
  rw [Int.toString_eq_repr, Int.repr_eq_if]
  split
  · exact inNumeral_repr _
  · rw [String.toList_append]
    exact List.forall_mem_cons.mpr ⟨.inr (.inr rfl), inNumeral_repr _⟩

theorem inNumeral_positional {digits : List Char} (hdigits : AreDigits digits) (place : Int) :
    ∀ c ∈ (positional digits place).toList, InNumeral c := by
  have hpoint : InNumeral '.' := .inr (.inl rfl)
  unfold positional
  dsimp only
  split
  · rw [String.toList_ofList, List.append_assoc]
    exact List.forall_mem_cons.mpr ⟨.inl rfl, List.forall_mem_cons.mpr
      ⟨hpoint, ((areDigits_zeros _).append hdigits).inNumeral⟩⟩
  · split
    · rw [String.toList_ofList]
      refine List.forall_mem_append.mpr ⟨(hdigits.append (areDigits_zeros _)).inNumeral, ?_⟩
      exact List.forall_mem_cons.mpr ⟨hpoint, (areDigits_zeros 1).inNumeral⟩
    · rw [String.toList_ofList]
      exact List.forall_mem_append.mpr
        ⟨(hdigits.take _).inNumeral, List.forall_mem_cons.mpr ⟨hpoint, (hdigits.drop _).inNumeral⟩⟩

theorem inNumeral_exponential {digits : List Char} (hdigits : AreDigits digits) (power : Int) :
    ∀ c ∈ (constantLayout.exponential digits power).toList, InNumeral c := by
  unfold FloatLayout.exponential
  rw [String.toList_append, String.toList_append, String.toList_ofList]
  refine List.forall_mem_append.mpr ⟨List.forall_mem_append.mpr ⟨?_, ?_⟩, inNumeral_toString power⟩
  · split
    · next d e rest =>
      exact List.forall_mem_cons.mpr ⟨(hdigits.take 1).inNumeral d List.mem_cons_self,
        List.forall_mem_cons.mpr ⟨.inr (.inl rfl), (hdigits.drop 1).inNumeral⟩⟩
    · exact hdigits.inNumeral
  · exact List.forall_mem_singleton.mpr (.inl rfl)

theorem inNumeral_text (w : FloatWidth) (bits : Nat) : ∀ c ∈ (w.text bits).toList, InNumeral c := by
  have hword {word : String} (h : word.toList.all Char.isAlphanum = true) : ∀ c ∈ word.toList, InNumeral c :=
    fun c hc => .inl (List.all_eq_true.mp h c hc)
  have hmagnitude (m : Nat) : ∀ c ∈ (constantLayout.magnitude w.format m).toList, InNumeral c := by
    unfold FloatLayout.magnitude
    split
    · exact hword rfl
    · split
      · exact inNumeral_positional (areDigits_zeros 1) 1
      · dsimp only
        split
        · exact inNumeral_positional (areDigits_toDigits _) _
        · exact inNumeral_exponential (areDigits_toDigits _) _
  unfold FloatWidth.text FloatLayout.text
  dsimp only
  split
  · exact hword rfl
  · split
    · rw [String.toList_append]
      exact List.forall_mem_cons.mpr ⟨.inr (.inr rfl), hmagnitude _⟩
    · exact hmagnitude _

/-! ## Magnitudes -/

/-- The text of a finite magnitude spells a number of its interval. -/
theorem spells_magnitude {f : BinaryFormat} (hf : f.fractionBits ≤ 52) {m : Nat} (hm : m < f.infinity) :
    ∃ q, Spells (constantLayout.magnitude f m).toList q ∧ (f.interval m).Has q := by
  unfold FloatLayout.magnitude
  rw [if_neg hm.ne]
  split
  · next hzero =>
    subst hzero
    have hdigit : AreDigits ['0'] := areDigits_zeros 1
    refine ⟨_, spells_positional hdigit (List.cons_ne_nil _ _) 1, ?_⟩
    convert f.has_zero using 1
    norm_num [digitsValue]
  · next hne =>
    have hhas := f.has_shortest hf (Nat.pos_of_ne_zero hne)
    generalize shortest f m = decimal at hhas ⊢
    obtain ⟨n, p⟩ := decimal
    have hdigits := areDigits_toDigits n
    refine ⟨_, ?_, hhas⟩
    dsimp only
    split
    · have h := spells_positional hdigits Nat.toDigits_ne_nil (p + (Nat.toDigits 10 n).length - 1 + 1)
      rw [digitsValue_toDigits] at h
      convert h using 3
      omega
    · have h := spells_exponential (l := constantLayout) rfl hdigits Nat.toDigits_ne_nil (p + (Nat.toDigits 10 n).length - 1)
      rw [digitsValue_toDigits] at h
      convert h using 3
      omega

/-- The text of a magnitude begins with no sign. -/
theorem magnitude_ne_cons_minus {f : BinaryFormat} (hf : f.fractionBits ≤ 52) {m : Nat} (hm : m ≤ f.infinity)
    (cs : List Char) : (constantLayout.magnitude f m).toList ≠ '-' :: cs := by
  intro h
  rcases Nat.lt_or_eq_of_le hm with hlt | rfl
  · obtain ⟨q, ⟨n, power, hread, -⟩, -⟩ := spells_magnitude hf hlt
    rw [h] at hread
    simp [readDecimal?] at hread
  · rw [FloatLayout.magnitude, if_pos rfl] at h
    cases h

theorem magnitude_ne_nil {f : BinaryFormat} (hf : f.fractionBits ≤ 52) {m : Nat} (hm : m ≤ f.infinity) :
    (constantLayout.magnitude f m).toList ≠ [] := by
  intro h
  rcases Nat.lt_or_eq_of_le hm with hlt | rfl
  · obtain ⟨q, ⟨n, power, hread, -⟩, -⟩ := spells_magnitude hf hlt
    rw [h] at hread
    cases hread
  · rw [FloatLayout.magnitude, if_pos rfl] at h
    cases h

theorem magnitude_inj {f : BinaryFormat} (hpos : 0 < f.fractionBits) (hf : f.fractionBits ≤ 52) {m m' : Nat}
    (hm : m ≤ f.infinity) (hm' : m' ≤ f.infinity) (h : constantLayout.magnitude f m = constantLayout.magnitude f m') :
    m = m' := by
  have hinfinity : constantLayout.magnitude f f.infinity = "inf" := if_pos rfl
  have hword (q : ℚ) : ¬ Spells "inf".toList q := by
    rintro ⟨n, power, hread, -⟩
    cases hread
  rcases Nat.lt_or_eq_of_le hm with hlt | rfl <;> rcases Nat.lt_or_eq_of_le hm' with hlt' | rfl
  · obtain ⟨q, ⟨n, power, hread, hq⟩, hhas⟩ := spells_magnitude hf hlt
    obtain ⟨q', ⟨n', power', hread', hq'⟩, hhas'⟩ := spells_magnitude hf hlt'
    rw [h, hread'] at hread
    cases hread
    exact f.eq_of_has hpos hhas (hq.symm.trans hq' ▸ hhas')
  · obtain ⟨q, hspells, -⟩ := spells_magnitude hf hlt
    rw [h, hinfinity] at hspells
    exact absurd hspells (hword q)
  · obtain ⟨q, hspells, -⟩ := spells_magnitude hf hlt'
    rw [← h, hinfinity] at hspells
    exact absurd hspells (hword q)
  · rfl

/-! ## Numbers -/

/-- A pattern of a width that stands for a number or an infinity. -/
structure FloatWidth.IsNumber (w : FloatWidth) (bits : Nat) : Prop where
  lt : bits < twoTo w.bits
  magnitude_le : w.format.magnitude bits ≤ w.format.infinity

namespace FloatWidth

variable {w : FloatWidth} {bits bits' : Nat}

theorem twoTo_bits (w : FloatWidth) : twoTo w.bits = 2 * w.format.signWeight := by
  cases w <;> rfl

theorem IsNumber.text_eq (h : w.IsNumber bits) : w.text bits =
    if w.format.isNegative bits then "-" ++ constantLayout.magnitude w.format (w.format.magnitude bits)
    else constantLayout.magnitude w.format (w.format.magnitude bits) := by
  unfold text FloatLayout.text
  exact if_neg (Nat.not_lt.mpr h.magnitude_le)

/-- A number is its sign and its magnitude. -/
theorem IsNumber.signed (h : w.IsNumber bits) :
    bits = w.format.signed (w.format.isNegative bits) (w.format.magnitude bits) := by
  have hlt := h.lt
  rw [twoTo_bits] at hlt
  unfold BinaryFormat.signed BinaryFormat.isNegative BinaryFormat.magnitude
  rw [Nat.mod_eq_of_lt hlt]
  by_cases hnegative : w.format.signWeight ≤ bits
  · rw [if_pos (decide_eq_true hnegative), Nat.mod_eq_sub_mod hnegative, Nat.mod_eq_of_lt (by omega)]
    omega
  · rw [if_neg (by simpa using hnegative), Nat.mod_eq_of_lt (by omega)]

theorem fractionBits_le (w : FloatWidth) : w.format.fractionBits ≤ 52 := by
  cases w <;> decide

theorem IsNumber.text_ne_nil (h : w.IsNumber bits) : (w.text bits).toList ≠ [] := by
  rw [h.text_eq]
  split
  · rw [String.toList_append]
    exact List.cons_ne_nil _ _
  · exact magnitude_ne_nil w.fractionBits_le h.magnitude_le

/-- **The text of a number tells the number.** -/
theorem text_inj (h : w.IsNumber bits) (h' : w.IsNumber bits') (heq : w.text bits = w.text bits') : bits = bits' := by
  have hpos : 0 < w.format.fractionBits := by cases w <;> decide
  have hf := w.fractionBits_le
  have hminus {m m' : Nat} (hm : m ≤ w.format.infinity) :
      constantLayout.magnitude w.format m ≠ "-" ++ constantLayout.magnitude w.format m' := by
    intro hcontra
    exact magnitude_ne_cons_minus hf hm _ (by rw [hcontra, String.toList_append]; rfl)
  rw [h.text_eq, h'.text_eq] at heq
  rw [h.signed, h'.signed]
  split at heq <;> split at heq
  · next hnegative hnegative' =>
    rw [hnegative, hnegative', magnitude_inj hpos hf h.magnitude_le h'.magnitude_le ((String.append_right_inj _).mp heq)]
  · exact absurd heq.symm (hminus h'.magnitude_le)
  · exact absurd heq (hminus h.magnitude_le)
  · next hnegative hnegative' =>
    rw [Bool.eq_false_iff.mpr hnegative, Bool.eq_false_iff.mpr hnegative',
      magnitude_inj hpos hf h.magnitude_le h'.magnitude_le heq]

end FloatWidth

end SsaCompiler.Numeral
