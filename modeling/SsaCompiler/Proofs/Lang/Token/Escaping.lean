import SsaCompiler.Proofs.Lang.Token.Scanning
import SsaCompiler.Proofs.Text.Quoting

/-!
# String literals and quoted data

A text spelled with the letters of the language, and bytes spelled as they are listed, are read back as the text of
one string literal.  The two spellings differ only in characters that a listing gives by their codes, for which the
language has no spelling:

    scan (source.quote text) = .ok (literalTokens text)                                       (scan_quote)
    bytes without a code in their spelling → data.quote bytes = source.quote bytes            (quote_eq_of_readable)

So each listed row of such bytes is a string literal of the language, and no two rows of bytes are listed alike.
-/

namespace SsaCompiler.Lang

open Text (source data sourceLetter unescape_sourceLetter quoteBytes quoteBytes_inj toNat_charOfByte)

/-- The tokens of a text that is one string literal on its first line. -/
def literalTokens (contents : String) : List Token :=
  [{ kind := .stringLiteral, lexeme := contents, line := 1, literalType := some .str }, .plain .endMark "" 1]

/-! ## Spelled with the letters of the language -/

/-- What has no letter after a backslash may stand for itself between quotes. -/
theorem plain_of_sourceLetter {c : Char} (h : sourceLetter c = none) : c ≠ '"' ∧ c ≠ '\\' ∧ c ≠ '\n' := by
  refine ⟨?_, ?_, ?_⟩
  all_goals
    rintro rfl
    cases h

theorem decodes_encode (cs : List Char) : Decodes (source.encode cs) cs := by
  induction cs with
  | nil => exact .nil
  | cons c cs ih =>
    show Decodes (source.char c ++ source.encode cs) (c :: cs)
    unfold Text.Style.char
    cases hletter : source.letter c with
    | some l => exact .escape (Source.unescape_eq_some_iff.mp (unescape_sourceLetter hletter)) ih
    | none =>
      obtain ⟨hquote, hbackslash, hnewline⟩ := plain_of_sourceLetter hletter
      exact .plain hquote hbackslash hnewline ih

/-- **A text spelled with the letters of the language is read back** as one string literal. -/
theorem scan_quote (cs : List Char) :
    scan (String.ofList (source.quote cs)) = .ok (literalTokens (String.ofList cs)) := by
  have hword : Spelling (source.quote cs) .stringLiteral (String.ofList cs) (some .str) := .string (decodes_encode cs)
  have hline : lineAt (source.quote cs) = 1 := by
    rw [lineAt, List.count_eq_zero.mpr (Source.newline_not_mem_spelling hword)]
  have hlexes : Lexes [] (source.quote cs) (literalTokens (String.ofList cs)) := by
    have hend : Lexes ([] ++ [] ++ source.quote cs) [] [.plain .endMark "" 1] := by
      have hdone := @Lexes.done (source.quote cs) [] (.nil [])
      rwa [List.append_nil, hline] at hdone
    have htoken := Lexes.token (.nil _) hword (by rintro _ ⟨⟩) hend
    rwa [List.nil_append, List.append_nil] at htoken
  unfold scan Source.ofText
  rw [String.toList_ofList]
  exact Source.tokens_of_lexes hlexes

/-! ## Listed bytes -/

/-- Whether a byte is listed as it may stand in a string literal: as itself or by a letter after a backslash. -/
def IsReadable (b : UInt8) : Prop :=
  (32 ≤ b.toNat ∧ b.toNat ≤ 126) ∨ b ∈ [(10 : UInt8), 9, 13, 0]

/-- A byte as the character of its code. -/
def charOf (b : UInt8) : Char :=
  Char.ofNat b.toNat

theorem char_eq_of_isReadable {b : UInt8} (h : IsReadable b) : data.char (charOf b) = source.char (charOf b) := by
  have hall : ∀ n < 256, (32 ≤ n ∧ n ≤ 126) ∨ n ∈ [10, 9, 13, 0] →
      data.char (Char.ofNat n) = source.char (Char.ofNat n) := by
    decide +kernel
  refine hall _ b.toNat_lt (h.imp_right fun hmem => ?_)
  simp only [List.mem_cons, List.not_mem_nil, or_false] at hmem ⊢
  rcases hmem with rfl | rfl | rfl | rfl <;> decide

/-- Bytes that are listed without codes are listed as string literals are spelled. -/
theorem quote_eq_of_readable {bytes : List UInt8} (h : ∀ b ∈ bytes, IsReadable b) :
    quoteBytes bytes = String.ofList (source.quote (bytes.map charOf)) := by
  have hencode : data.encode (bytes.map charOf) = source.encode (bytes.map charOf) := by
    unfold Text.Style.encode
    rw [List.flatMap_def, List.flatMap_def, List.map_map, List.map_map]
    exact congrArg List.flatten (List.map_congr_left fun b hb => char_eq_of_isReadable (h b hb))
  show String.ofList ('"' :: data.encode (bytes.map charOf) ++ ['"']) = _
  rw [hencode]
  rfl

/-- The bytes of a text of readable characters are those they were made of. -/
theorem toUTF8_of_readable {bytes : List UInt8} (h : ∀ b ∈ bytes, IsReadable b) :
    (String.ofList (bytes.map charOf)).toUTF8 = bytes.toByteArray := by
  have hone {b : UInt8} (hb : IsReadable b) : String.utf8EncodeChar (charOf b) = [b] := by
    have hval : (charOf b).val.toNat = b.toNat := toNat_charOfByte b
    have hle : b.toNat ≤ 127 := by
      rcases hb with hb | hb
      · omega
      · simp only [List.mem_cons, List.not_mem_nil, or_false] at hb
        rcases hb with rfl | rfl | rfl | rfl <;> decide
    unfold String.utf8EncodeChar
    simp only [hval, if_pos hle, UInt8.ofNat_toNat]
  have hflat : (bytes.map charOf).flatMap String.utf8EncodeChar = bytes := by
    rw [List.flatMap_map, List.flatMap_def, List.map_congr_left fun b hb => hone (h b hb), ← List.flatMap_def,
      List.flatMap_singleton']
  show ((bytes.map charOf).flatMap String.utf8EncodeChar).toByteArray = _
  rw [hflat]

/-- **The two spellings agree.**  Bytes are told by their listing; a listing without codes is a string literal of the
language with these bytes; and any text at all is read back from its spelling with the letters of the language. -/
theorem spellings_agree :
    (∀ bytes bytes', quoteBytes bytes = quoteBytes bytes' → bytes = bytes') ∧
      (∀ bytes, (∀ b ∈ bytes, IsReadable b) →
        ∃ contents : String, contents.toUTF8 = bytes.toByteArray ∧
          scan (quoteBytes bytes) = .ok (literalTokens contents)) ∧
      ∀ contents : String, scan (String.ofList (source.quote contents.toList)) = .ok (literalTokens contents) := by
  refine ⟨fun _ _ => quoteBytes_inj, ?_, ?_⟩
  · intro bytes h
    refine ⟨_, toUTF8_of_readable h, ?_⟩
    rw [quote_eq_of_readable h, scan_quote]
  · intro contents
    rw [scan_quote, String.ofList_toList]

/-- The four bytes `A`, tab, quote and NUL are listed as a literal of the same four characters. -/
theorem spellings_agree_fourBytes :
    (∀ b ∈ [(65 : UInt8), 9, 34, 0], IsReadable b) ∧
      ∃ contents : String, contents.toUTF8 = [(65 : UInt8), 9, 34, 0].toByteArray ∧
        scan "\"A\\t\\\"\\0\"" = .ok (literalTokens contents) := by
  have hread : ∀ b ∈ [(65 : UInt8), 9, 34, 0], IsReadable b := by
    intro b hb
    simp only [List.mem_cons, List.not_mem_nil, or_false] at hb
    rcases hb with rfl | rfl | rfl | rfl
    · exact .inl (by decide)
    · exact .inr (by simp)
    · exact .inl (by decide)
    · exact .inr (by simp)
  have hquote : quoteBytes [65, 9, 34, 0] = "\"A\\t\\\"\\0\"" := by decide +kernel
  rw [← hquote]
  exact ⟨hread, spellings_agree.2.1 _ hread⟩

end SsaCompiler.Lang
