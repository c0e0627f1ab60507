import SsaCompiler.Proofs.Lang.Token.Trivia
import SsaCompiler.Proofs.Text.Spans

/-!
# Reading spellings

A text that begins with no trivia is read as one spelling, the longest that stands there:

    Spelling word kind lexeme ty, and the rest does not continue it →
      spelling (word ++ rest) line = that token, with the rest left               (spelling_append)
    spelling text line = (.ok t, left) → text = word ++ left.rest with Spelling word t   (spelling_eq_ok)

An integer is told from a float by the character after its point, so it may stand before a point only
if another point follows; where a text is a row of spellings this holds by itself.
-/

namespace SsaCompiler.Lang.Source

open Text (blanks unescape takeWhile_span dropWhile_span exists_span)

/-- That a text begins with the longest spelling of a token, after which a source is left. -/
def Reads (text : List Char) (line : Nat) (t : Token) (left : Source) : Prop :=
  ∃ word, text = word ++ left.rest ∧ Spelling word t.kind t.lexeme t.literalType ∧
    (∀ c ∈ left.rest.head?, t.kind.endsBefore c) ∧ t.line = line ∧ left.line = line

/-! ## Symbols -/

theorem symbol?_append {text : String} {kind : TokenKind} {rest : List Char} (h : (text, kind) ∈ symbols)
    (hend : ∀ c ∈ rest.head?, kind.endsBefore c) : symbol? (text.toList ++ rest) = some (kind, text, rest) := by
  simp only [symbols, List.mem_cons, List.not_mem_nil, or_false, Prod.mk.injEq] at h
  rcases h with ⟨rfl, rfl⟩ | ⟨rfl, rfl⟩ | ⟨rfl, rfl⟩ | ⟨rfl, rfl⟩ | ⟨rfl, rfl⟩ | ⟨rfl, rfl⟩ | ⟨rfl, rfl⟩ | ⟨rfl, rfl⟩ |
    ⟨rfl, rfl⟩ | ⟨rfl, rfl⟩ | ⟨rfl, rfl⟩ | ⟨rfl, rfl⟩ | ⟨rfl, rfl⟩ | ⟨rfl, rfl⟩ | ⟨rfl, rfl⟩ | ⟨rfl, rfl⟩
  all_goals try rfl
  -- a minus and an equals sign are read by what follows them
  · cases rest with
    | nil => rfl
    | cons c rest =>
      have hc : c ≠ '>' := hend c rfl
      simp [symbol?, hc]
  · cases rest with
    | nil => rfl
    | cons c rest =>
      have hc : c ≠ '=' := hend c rfl
      simp [symbol?, hc]

theorem head?_ne {rest : List Char} {d : Char} (h : ∀ after, rest ≠ d :: after) : ∀ c ∈ rest.head?, c ≠ d := by
  rintro c hc rfl
  obtain ⟨after, rfl⟩ := List.head?_eq_some_iff.mp hc
  exact h after rfl

theorem symbol?_eq_some {text rest : List Char} {kind : TokenKind} {lexeme : String}
    (h : symbol? text = some (kind, lexeme, rest)) (hplain : Plain text) :
    text = lexeme.toList ++ rest ∧ (lexeme, kind) ∈ symbols ∧ ∀ c ∈ rest.head?, kind.endsBefore c := by
  unfold symbol? at h
  split at h
  case h_10 rest =>
    cases h
    have hline : ∀ after, rest ≠ '/' :: after := fun after hrest => hplain.lineComment after (by rw [hrest])
    have hblock : ∀ after, rest ≠ '*' :: after := fun after hrest => hplain.blockComment after (by rw [hrest])
    exact ⟨rfl, by decide, fun c hc => ⟨head?_ne hline c hc, head?_ne hblock c hc⟩⟩
  case h_13 rest hrest =>
    cases h
    exact ⟨rfl, by decide, head?_ne hrest⟩
  case h_15 rest hrest =>
    cases h
    exact ⟨rfl, by decide, head?_ne hrest⟩
  case h_17 => cases h
  all_goals
    cases h
    exact ⟨rfl, by decide, fun _ _ => trivial⟩

/-- The characters that symbols begin with. -/
def symbolStarts : List Char :=
  symbols.filterMap (·.1.toList.head?)

theorem symbol?_eq_none (p : Char → Bool) (hp : symbolStarts.any p = false) {c : Char} (hc : p c = true)
    (rest : List Char) : symbol? (c :: rest) = none := by
  have hstart : c ∉ symbolStarts := fun h => List.any_eq_false.mp hp c h hc
  generalize htext : c :: rest = text
  unfold symbol?
  split
  case h_17 => rfl
  all_goals
    cases htext
    exact absurd (by decide) hstart

/-! ## String literals -/

theorem unescape_eq_some_iff {letter c : Char} : unescape letter = some c ↔ (letter, c) ∈ escapes := by
  constructor
  · intro h
    unfold unescape at h
    split at h
    case h_7 => cases h
    all_goals
      cases h
      decide
  · intro h
    simp only [escapes, List.mem_cons, List.not_mem_nil, or_false, Prod.mk.injEq] at h
    rcases h with ⟨rfl, rfl⟩ | ⟨rfl, rfl⟩ | ⟨rfl, rfl⟩ | ⟨rfl, rfl⟩ | ⟨rfl, rfl⟩ | ⟨rfl, rfl⟩ <;> rfl

theorem newline_not_mem_body {body contents : List Char} (h : Decodes body contents) : '\n' ∉ body := by
  induction h with
  | nil => exact List.not_mem_nil
  | plain _ _ hn _ ih => exact List.not_mem_cons_of_ne_of_not_mem hn.symm ih
  | escape hc _ ih =>
    refine List.not_mem_cons_of_ne_of_not_mem (by decide) (List.not_mem_cons_of_ne_of_not_mem ?_ ih)
    rintro rfl
    simp [escapes] at hc

theorem stringContents_append {body contents : List Char} (h : Decodes body contents) (rest : List Char)
    (line : Nat) : stringContents (body ++ '"' :: rest) line = (.ok contents, ⟨rest, line⟩) := by
  induction h with
  | nil => rfl
  | @plain c body contents hq hb hn _ ih =>
    rw [List.cons_append, stringContents.eq_def]
    simp [hb, ih, Except.map]
  | @escape letter c body contents hc _ ih =>
    have hnewline : letter ≠ '\n' := by
      rintro rfl
      simp [escapes] at hc
    rw [List.cons_append, List.cons_append, stringContents.eq_def]
    simp [unescape_eq_some_iff.mpr hc, ih, Except.map]

theorem stringContents_eq_ok {text contents : List Char} {line : Nat} {left : Source}
    (h : stringContents text line = (.ok contents, left)) :
    ∃ body, text = body ++ '"' :: left.rest ∧ Decodes body contents ∧ left.line = line := by
  fun_induction stringContents text line generalizing contents left with
  | case2 rest line =>
    cases h
    exact ⟨[], rfl, .nil, rfl⟩
  | case6 letter rest line _ c hc inner after hinner ih =>
    cases inner with
    | error e => cases h
    | ok cs =>
      cases h
      obtain ⟨body, rfl, hbody, hline⟩ := ih hinner
      exact ⟨'\\' :: letter :: body, rfl, .escape (unescape_eq_some_iff.mp hc) hbody, hline⟩
  | case8 c rest line hquote hnewline hlast _ hescape inner after hinner ih =>
    cases inner with
    | error e => cases h
    | ok cs =>
      cases h
      obtain ⟨body, rfl, hbody, hline⟩ := ih hinner
      refine ⟨c :: body, rfl, .plain hquote (fun hc => ?_) hnewline hbody, hline⟩
      cases body with
      | nil => exact hescape _ _ hc rfl
      | cons d body => exact hescape _ _ hc rfl
  | _ => cases h

/-! ## Numbers -/

theorem number_int {digits rest : List Char} (hdigits : ∀ c ∈ digits, c.isDigit = true)
    (hend : ∀ c ∈ rest.head?, c.isDigit = false) (hpoint : ∀ after, rest = '.' :: after → after.head? = some '.')
    (line : Nat) :
    number (digits ++ rest) line = (.ok (.plain .intLiteral (String.ofList digits) line), ⟨rest, line⟩) := by
  unfold number
  simp only [takeWhile_span hdigits hend, dropWhile_span hdigits hend]
  split
  · rfl
  · rename_i after htwo
    obtain ⟨more, rfl⟩ := List.head?_eq_some_iff.mp (hpoint after rfl)
    exact absurd rfl (htwo more)
  · rfl

theorem number_float {whole fraction rest : List Char} (hwhole : ∀ c ∈ whole, c.isDigit = true)
    (hfraction : IsDigits fraction) (hend : ∀ c ∈ rest.head?, c.isDigit = false) (line : Nat) :
    number (whole ++ '.' :: fraction ++ rest) line =
      (.ok (.plain .floatLiteral (String.ofList (whole ++ '.' :: fraction)) line), ⟨rest, line⟩) := by
  obtain ⟨hnil, hfraction⟩ := hfraction
  have hpoint : ∀ c ∈ ('.' :: (fraction ++ rest)).head?, c.isDigit = false := by
    rintro c ⟨⟩
    decide
  unfold number
  rw [List.append_assoc, List.cons_append]
  simp only [takeWhile_span hwhole hpoint, dropWhile_span hwhole hpoint]
  split
  · rename_i after hafter
    cases fraction with
    | nil => exact absurd rfl hnil
    | cons c fraction =>
      cases hafter
      cases hfraction '.' List.mem_cons_self
  · rename_i after _ hafter
    cases hafter
    rw [takeWhile_span hfraction hend, dropWhile_span hfraction hend, if_neg hnil]
  · rename_i _ hone
    exact absurd rfl (hone _)

theorem number_eq_ok {c : Char} {text : List Char} {line : Nat} {t : Token} {left : Source} (hc : c.isDigit = true)
    (h : number (c :: text) line = (.ok t, left)) : Reads (c :: text) line t left := by
  obtain ⟨whole, rest, htext, hwhole, hrest⟩ := exists_span Char.isDigit (c :: text)
  have hnil : whole ≠ [] := by
    rintro rfl
    rw [List.nil_append] at htext
    subst htext
    simp [hrest c rfl] at hc
  unfold number at h
  simp only [htext, takeWhile_span hwhole hrest, dropWhile_span hwhole hrest] at h
  split at h
  · cases h
    exact ⟨whole, htext, .int ⟨hnil, hwhole⟩, hrest, rfl, rfl⟩
  · rename_i after _
    obtain ⟨fraction, rest, rfl, hfraction, hrest⟩ := exists_span Char.isDigit after
    rw [takeWhile_span hfraction hrest, dropWhile_span hfraction hrest] at h
    split at h
    · cases h
    · rename_i hfnil
      cases h
      exact ⟨whole ++ '.' :: fraction, by simp [htext], .float ⟨hnil, hwhole⟩ ⟨hfnil, hfraction⟩, hrest, rfl, rfl⟩
  · cases h
    exact ⟨whole, htext, .int ⟨hnil, hwhole⟩, hrest, rfl, rfl⟩

/-! ## Words -/

theorem isWordChar_iff {c : Char} : isWordChar c = true ↔ InWord c := by
  simp [isWordChar, InWord]

theorem isWordChar_of_isWordStart {c : Char} (h : isWordStart c = true) : isWordChar c = true := by
  simp only [isWordStart, isWordChar, Char.isAlphanum, Bool.or_eq_true] at h ⊢
  rcases h with h | h
  · exact .inl (.inl h)
  · exact .inr h

theorem isWord_iff {word : List Char} :
    IsWord word ↔ (word.head?.any isWordStart && word.all isWordChar) = true := by
  cases word with
  | nil => simp [IsWord]
  | cons c cs =>
    simp only [IsWord, List.cons.injEq, List.head?_cons, Option.any_some, List.all_cons, Bool.and_eq_true,
      List.all_eq_true, isWordChar_iff]
    constructor
    · rintro ⟨_, _, ⟨rfl, rfl⟩, hc, hcs⟩
      have hc : isWordStart c = true := by simpa [isWordStart] using hc
      exact ⟨hc, isWordChar_iff.mp (isWordChar_of_isWordStart hc), hcs⟩
    · rintro ⟨hc, _, hcs⟩
      exact ⟨c, cs, ⟨rfl, rfl⟩, by simpa [isWordStart] using hc, hcs⟩

theorem ofKeyword?_eq_some_iff {word : String} {ty : Prim} :
    Prim.ofKeyword? word = some ty ↔ (word, ty) ∈ typeKeywords := by
  have htable : typeKeywords = Prim.named.map fun ty => (ty.text, ty) := by decide
  have hfirst : ∀ ty ∈ Prim.named, Prim.ofKeyword? ty.text = some ty := by decide
  rw [htable]
  constructor
  · intro h
    refine List.mem_map.mpr ⟨ty, List.mem_of_find?_eq_some h, ?_⟩
    simpa using List.find?_some h
  · intro h
    obtain ⟨ty, hmem, ⟨⟩⟩ := List.mem_map.mp h
    exact hfirst ty hmem

theorem isWord_of_mem_keywords {text : String} {kind : TokenKind} (h : (text, kind) ∈ keywords) :
    IsWord text.toList := by
  have hall : ∀ s ∈ keywords, (s.1.toList.head?.any isWordStart && s.1.toList.all isWordChar) = true := by decide
  exact isWord_iff.mpr (hall _ h)

theorem isWord_of_mem_typeKeywords {text : String} {ty : Prim} (h : (text, ty) ∈ typeKeywords) :
    IsWord text.toList := by
  have hall : ∀ s ∈ typeKeywords, (s.1.toList.head?.any isWordStart && s.1.toList.all isWordChar) = true := by decide
  exact isWord_iff.mpr (hall _ h)

theorem endsBefore_keyword {text : String} {kind : TokenKind} (h : (text, kind) ∈ keywords) (c : Char) :
    kind.endsBefore c ↔ ¬ InWord c := by
  simp only [keywords, List.mem_cons, List.not_mem_nil, or_false, Prod.mk.injEq] at h
  rcases h with ⟨-, rfl⟩ | ⟨-, rfl⟩ | ⟨-, rfl⟩ | ⟨-, rfl⟩ <;> rfl

theorem wordToken_keyword {text : String} {kind : TokenKind} (h : (text, kind) ∈ keywords) (line : Nat) :
    wordToken text line = .plain kind text line := by
  simp only [keywords, List.mem_cons, List.not_mem_nil, or_false, Prod.mk.injEq] at h
  rcases h with ⟨rfl, rfl⟩ | ⟨rfl, rfl⟩ | ⟨rfl, rfl⟩ | ⟨rfl, rfl⟩ <;> rfl

theorem wordToken_typeName {text : String} {ty : Prim} (h : (text, ty) ∈ typeKeywords) (line : Nat) :
    wordToken text line = { kind := .typeName, lexeme := text, line, literalType := some ty } := by
  simp only [wordToken, ofKeyword?_eq_some_iff.mpr h]

theorem wordToken_ident {text : String} (hkeyword : ∀ kind, (text, kind) ∉ keywords)
    (htype : ∀ ty, (text, ty) ∉ typeKeywords) (line : Nat) : wordToken text line = .plain .ident text line := by
  have hnone : Prim.ofKeyword? text = none :=
    Option.eq_none_iff_forall_ne_some.mpr fun ty h => htype ty (ofKeyword?_eq_some_iff.mp h)
  have hkind : wordKind text = .ident := by
    unfold wordKind
    split
    · exact absurd (by decide) (hkeyword .returnWord)
    · exact absurd (by decide) (hkeyword .letWord)
    · exact absurd (by decide) (hkeyword .fnWord)
    · exact absurd (by decide) (hkeyword .externWord)
    · rfl
  simp only [wordToken, hnone, hkind]

/-- A word is spelled as its token says. -/
theorem spelling_wordToken {word : List Char} (hword : IsWord word) (line : Nat) :
    ∃ kind ty, wordToken (String.ofList word) line = { kind, lexeme := String.ofList word, line, literalType := ty } ∧
      Spelling word kind (String.ofList word) ty ∧ ∀ c, kind.endsBefore c ↔ ¬ InWord c := by
  by_cases hkeyword : ∃ kind, (String.ofList word, kind) ∈ keywords
  · obtain ⟨kind, hkeyword⟩ := hkeyword
    refine ⟨kind, none, wordToken_keyword hkeyword line, ?_, endsBefore_keyword hkeyword⟩
    simpa using Spelling.keyword hkeyword
  · by_cases htype : ∃ ty, (String.ofList word, ty) ∈ typeKeywords
    · obtain ⟨ty, htype⟩ := htype
      refine ⟨.typeName, some ty, wordToken_typeName htype line, ?_, fun c => Iff.rfl⟩
      simpa using Spelling.typeName htype
    · have hkeyword := not_exists.mp hkeyword
      have htype := not_exists.mp htype
      exact ⟨.ident, none, wordToken_ident hkeyword htype line, .ident hword hkeyword htype, fun c => Iff.rfl⟩

/-! ## Spellings -/

/-- The four ways a spelling begins. -/
theorem spelling_cons (c : Char) (text : List Char) (line : Nat) (hsymbol : symbol? (c :: text) = none) :
    spelling (c :: text) line =
      if c = '.' then (.error .loneDot, ⟨afterDots (c :: text), line⟩)
      else if c = '"' then
        ((stringContents text line).1.map fun cs =>
            { kind := .stringLiteral, lexeme := String.ofList cs, line, literalType := some .str },
          (stringContents text line).2)
      else if c.isDigit then number (c :: text) line
      else if isWordStart c then
        (.ok (wordToken (String.ofList ((c :: text).takeWhile isWordChar)) line),
          ⟨(c :: text).dropWhile isWordChar, line⟩)
      else (.error (.strayChar c), ⟨text, line⟩) := by
  unfold spelling
  rw [hsymbol]

theorem le_nine_of_isDigit {c : Char} (h : c.isDigit = true) : c.toNat ≤ 57 :=
  of_decide_eq_true (Bool.and_eq_true_iff.mp h).2

theorem le_of_isAlpha {c : Char} (h : c.isAlpha = true) : 65 ≤ c.toNat := by
  rcases Bool.or_eq_true_iff.mp h with hupper | hlower
  · exact (of_decide_eq_true hupper).1
  · exact Nat.le_trans (by decide) (UInt32.le_iff_toNat_le.mp (of_decide_eq_true (Bool.and_eq_true_iff.mp hlower).1))

theorem not_isDigit_of_isWordStart {c : Char} (h : isWordStart c = true) : c.isDigit = false := by
  refine Bool.eq_false_iff.mpr fun hdigit => ?_
  have hnine : c.toNat ≤ 57 := le_nine_of_isDigit hdigit
  rcases Bool.or_eq_true_iff.mp h with halpha | hunderscore
  · have := le_of_isAlpha halpha
    omega
  · cases of_decide_eq_true hunderscore
    exact absurd hnine (by decide)

theorem spelling_word {word rest : List Char} (hword : IsWord word) (hend : ∀ c ∈ rest.head?, ¬ InWord c) (line : Nat) :
    spelling (word ++ rest) line = (.ok (wordToken (String.ofList word) line), ⟨rest, line⟩) := by
  obtain ⟨hstart, hall⟩ := Bool.and_eq_true_iff.mp (isWord_iff.mp hword)
  have hend : ∀ c ∈ rest.head?, isWordChar c = false := fun c hc =>
    Bool.eq_false_iff.mpr fun h => hend c hc (isWordChar_iff.mp h)
  have htake := takeWhile_span (List.all_eq_true.mp hall) hend
  have hdrop := dropWhile_span (List.all_eq_true.mp hall) hend
  cases word with
  | nil => cases hstart
  | cons c cs =>
    have hc : isWordStart c = true := hstart
    have hpoint : c ≠ '.' := by rintro rfl; cases hc
    have hquote : c ≠ '"' := by rintro rfl; cases hc
    rw [List.cons_append] at htake hdrop ⊢
    rw [spelling_cons c _ line (symbol?_eq_none isWordStart (by decide) hc _), if_neg hpoint, if_neg hquote,
      if_neg (by simp [not_isDigit_of_isWordStart hc]), if_pos hc, htake, hdrop]

theorem spelling_digit {c : Char} (hc : c.isDigit = true) (text : List Char) (line : Nat) :
    spelling (c :: text) line = number (c :: text) line := by
  have hpoint : c ≠ '.' := by rintro rfl; cases hc
  have hquote : c ≠ '"' := by rintro rfl; cases hc
  rw [spelling_cons c _ line (symbol?_eq_none Char.isDigit (by decide) hc _), if_neg hpoint, if_neg hquote, if_pos hc]

theorem spelling_quote (text : List Char) (line : Nat) :
    spelling ('"' :: text) line =
      ((stringContents text line).1.map fun cs =>
          { kind := .stringLiteral, lexeme := String.ofList cs, line, literalType := some .str },
        (stringContents text line).2) := by
  have hsymbol := symbol?_eq_none (fun c => c = '"') (by decide) (decide_eq_true rfl) text
  rw [spelling_cons '"' text line hsymbol, if_neg (by decide), if_pos rfl]

theorem spelling_number {digits : List Char} (hdigits : IsDigits digits) (rest : List Char) (line : Nat) :
    spelling (digits ++ rest) line = number (digits ++ rest) line := by
  obtain ⟨hnil, hdigits⟩ := hdigits
  cases digits with
  | nil => exact absurd rfl hnil
  | cons c cs => exact spelling_digit (hdigits c List.mem_cons_self) _ line

/-- **A spelling is read whole** before a character that does not continue it. -/
theorem spelling_append {word rest : List Char} {kind : TokenKind} {lexeme : String} {ty : Option Prim}
    (h : Spelling word kind lexeme ty) (hend : ∀ c ∈ rest.head?, kind.endsBefore c)
    (hpoint : ∀ after, rest = '.' :: after → after.head? = some '.') (line : Nat) :
    spelling (word ++ rest) line = (.ok { kind, lexeme, line, literalType := ty }, ⟨rest, line⟩) := by
  cases h with
  | symbol h =>
    unfold spelling
    rw [symbol?_append h hend]
    rfl
  | keyword h =>
    have hend : ∀ c ∈ rest.head?, ¬ InWord c := fun c hc => (endsBefore_keyword h c).mp (hend c hc)
    rw [spelling_word (isWord_of_mem_keywords h) hend, String.ofList_toList, wordToken_keyword h]
    rfl
  | typeName h =>
    rw [spelling_word (isWord_of_mem_typeKeywords h) hend, String.ofList_toList, wordToken_typeName h]
  | ident hword hkeyword htype =>
    rw [spelling_word hword hend, wordToken_ident hkeyword htype]
    rfl
  | int hdigits => exact (spelling_number hdigits rest line).trans (number_int hdigits.2 hend hpoint line)
  | @float whole fraction hwhole hfraction =>
    rw [List.append_assoc, spelling_number hwhole, ← List.append_assoc]
    exact number_float hwhole.2 hfraction hend line
  | @string body contents h =>
    rw [List.cons_append, List.append_assoc, spelling_quote]
    simp [stringContents_append h, Except.map]

/-- **Nothing but a spelling is read**, and all of it. -/
theorem spelling_eq_ok {c : Char} {text : List Char} {line : Nat} {t : Token} {left : Source}
    (hplain : Plain (c :: text)) (h : spelling (c :: text) line = (.ok t, left)) : Reads (c :: text) line t left := by
  cases hsymbol : symbol? (c :: text) with
  | some found =>
    obtain ⟨kind, lexeme, rest⟩ := found
    obtain ⟨htext, hmem, hend⟩ := symbol?_eq_some hsymbol hplain
    unfold spelling at h
    rw [hsymbol] at h
    cases h
    exact ⟨lexeme.toList, htext, .symbol hmem, hend, rfl, rfl⟩
  | none =>
    rw [spelling_cons c text line hsymbol] at h
    split at h
    · cases h
    split at h
    · subst c
      cases hcontents : stringContents text line with
      | mk contents after =>
        rw [hcontents] at h
        cases contents with
        | error e => cases h
        | ok contents =>
          cases h
          obtain ⟨body, rfl, hbody, hline⟩ := stringContents_eq_ok hcontents
          exact ⟨'"' :: (body ++ ['"']), by simp, .string hbody, fun _ _ => trivial, rfl, hline⟩
    split at h
    · rename_i hc
      exact number_eq_ok hc h
    split at h
    · rename_i hc
      obtain ⟨word, rest, htext, hword, hrest⟩ := exists_span isWordChar (c :: text)
      rw [htext, takeWhile_span hword hrest, dropWhile_span hword hrest] at h
      have hisWord : IsWord word := by
        cases word with
        | nil =>
          rw [List.nil_append] at htext
          subst htext
          exact absurd (isWordChar_of_isWordStart hc) (Bool.eq_false_iff.mp (hrest c rfl))
        | cons d word =>
          cases htext
          exact isWord_iff.mpr (Bool.and_eq_true_iff.mpr ⟨hc, List.all_eq_true.mpr hword⟩)
      obtain ⟨kind, ty, htoken, hspelling, hends⟩ := spelling_wordToken hisWord line
      rw [htoken] at h
      cases h
      refine ⟨word, htext, hspelling, fun d hd => (hends d).mpr fun hd' => ?_, rfl, rfl⟩
      exact absurd (isWordChar_iff.mpr hd') (Bool.eq_false_iff.mp (hrest d hd))
    · cases h

/-! ## Where a spelling begins and ends -/

/-- A word that begins with no blank, with a slash only as that symbol and with a point only as an ellipsis. -/
def Begins (word : List Char) (kind : TokenKind) : Prop :=
  ∃ c cs, word = c :: cs ∧ c ∉ blanks ∧ (c = '/' → kind = .slash ∧ cs = []) ∧ (c = '.' → cs = ['.', '.'])

theorem begins_of (p : Char → Bool) (hp : ('/' :: '.' :: blanks).any p = false) {c : Char} (hc : p c = true)
    (cs : List Char) (kind : TokenKind) : Begins (c :: cs) kind := by
  have hnot : c ∉ '/' :: '.' :: blanks := fun h => List.any_eq_false.mp hp c h hc
  simp only [List.mem_cons, not_or] at hnot
  exact ⟨c, cs, rfl, hnot.2.2, fun h => absurd h hnot.1, fun h => absurd h hnot.2.1⟩

theorem begins_word {word : List Char} (hword : IsWord word) (kind : TokenKind) : Begins word kind := by
  obtain ⟨c, cs, rfl, hc, -⟩ := hword
  exact begins_of isWordStart (by decide) (by simpa [isWordStart] using hc) cs kind

theorem begins_digits {digits : List Char} (hdigits : IsDigits digits) (after : List Char) (kind : TokenKind) :
    Begins (digits ++ after) kind := by
  obtain ⟨hnil, hdigits⟩ := hdigits
  cases digits with
  | nil => exact absurd rfl hnil
  | cons c cs => exact begins_of Char.isDigit (by decide) (hdigits c List.mem_cons_self) _ kind

theorem begins_symbol {text : String} {kind : TokenKind} (h : (text, kind) ∈ symbols) : Begins text.toList kind := by
  simp only [symbols, List.mem_cons, List.not_mem_nil, or_false, Prod.mk.injEq] at h
  rcases h with ⟨rfl, rfl⟩ | ⟨rfl, rfl⟩ | ⟨rfl, rfl⟩ | ⟨rfl, rfl⟩ | ⟨rfl, rfl⟩ | ⟨rfl, rfl⟩ | ⟨rfl, rfl⟩ | ⟨rfl, rfl⟩ |
    ⟨rfl, rfl⟩ | ⟨rfl, rfl⟩ | ⟨rfl, rfl⟩ | ⟨rfl, rfl⟩ | ⟨rfl, rfl⟩ | ⟨rfl, rfl⟩ | ⟨rfl, rfl⟩ | ⟨rfl, rfl⟩ <;>
    exact ⟨_, _, rfl, by decide, by decide, by decide⟩

section Spelled

variable {word rest : List Char} {kind : TokenKind} {lexeme : String} {ty : Option Prim}

theorem begins_spelling (h : Spelling word kind lexeme ty) : Begins word kind := by
  cases h with
  | symbol h => exact begins_symbol h
  | keyword h => exact begins_word (isWord_of_mem_keywords h) kind
  | typeName h => exact begins_word (isWord_of_mem_typeKeywords h) .typeName
  | ident hword => exact begins_word hword .ident
  | int hdigits => simpa using begins_digits hdigits [] .intLiteral
  | float hwhole => exact begins_digits hwhole _ .floatLiteral
  | string => exact begins_of (fun c => c = '"') (by decide) (by decide) _ .stringLiteral

/-- Where a spelling begins there is neither a blank nor a comment. -/
theorem plain_append (h : Spelling word kind lexeme ty) (hend : ∀ c ∈ rest.head?, kind.endsBefore c) :
    Plain (word ++ rest) := by
  obtain ⟨c, cs, rfl, hblank, hslash, -⟩ := begins_spelling h
  have hcomment (d : Char) (after : List Char) (htext : c :: cs ++ rest = '/' :: d :: after) : d ≠ '/' ∧ d ≠ '*' := by
    obtain ⟨rfl, htail⟩ := List.cons.inj htext
    obtain ⟨rfl, rfl⟩ := hslash rfl
    have htail : rest = d :: after := htail
    exact hend d (by rw [htail]; rfl)
  refine ⟨?_, fun after htext => (hcomment _ _ htext).1 rfl, fun after htext => (hcomment _ _ htext).2 rfl⟩
  rintro d ⟨⟩
  exact hblank

theorem newline_not_mem_spelling (h : Spelling word kind lexeme ty) : '\n' ∉ word := by
  have inWord {word : List Char} (hword : IsWord word) : '\n' ∉ word := fun hmem =>
    absurd (List.all_eq_true.mp (Bool.and_eq_true_iff.mp (isWord_iff.mp hword)).2 _ hmem) (by decide)
  have inDigits {digits : List Char} (hdigits : IsDigits digits) : '\n' ∉ digits := fun hmem =>
    absurd (hdigits.2 _ hmem) (by decide)
  cases h with
  | symbol h =>
    have hall : ∀ s ∈ symbols, '\n' ∉ s.1.toList := by decide
    exact hall _ h
  | keyword h => exact inWord (isWord_of_mem_keywords h)
  | typeName h => exact inWord (isWord_of_mem_typeKeywords h)
  | ident hword => exact inWord hword
  | int hdigits => exact inDigits hdigits
  | float hwhole hfraction => simp [inDigits hwhole, inDigits hfraction]
  | string h => simp [newline_not_mem_body h]

theorem ne_endMark_of_spelling (h : Spelling word kind lexeme ty) : kind ≠ .endMark := by
  cases h with
  | symbol h => rintro rfl; simp [symbols] at h
  | keyword h => rintro rfl; simp [keywords] at h
  | _ => nofun

end Spelled

end SsaCompiler.Lang.Source
