import SsaCompiler.Proofs.Lang.Token.Scanning

/-!
# Lexical errors

Where a text is no token, something is read as well, and it begins where a token could begin: one or two
points, a character that begins no spelling, a number up to its point, a string literal up to what breaks it,
or a comment that is not closed.

    Misspelling word rest cause           what is read before the rest of a text for a lexical error
    Answers before text answer rest       what a call answers at a text that has another before it

An error is placed like a token, on the line of the first character of what is read for it, and every newline
that is read counts:

    next ⟨text, lineAt before⟩ = (answer, left) →
      Answers before text answer left.rest, with left.line = lineAt (before ++ what was read)          (next_answers)
-/

namespace SsaCompiler.Lang

open Text (blanks)

/-! ## What errors are made of -/

/-- What ends a string literal before its closing quote: the end of its line or of the text, both also after a
backslash, or a backslash before a letter that stands for nothing. -/
inductive Breaks : List Char → List Char → LexicalCause → Prop
  | newline (rest : List Char) : Breaks ['\n'] rest .openString
  | textEnd : Breaks [] [] .openString
  | escapedNewline (rest : List Char) : Breaks ['\\', '\n'] rest .openString
  | escapedEnd : Breaks ['\\'] [] .openString
  | escape {letter : Char} {rest : List Char} (hletter : ∀ c, (letter, c) ∉ escapes) (hn : letter ≠ '\n') :
      Breaks ['\\', letter] rest (.unknownEscape letter)

/-- What is read for a lexical error, and what follows it. -/
inductive Misspelling : List Char → List Char → LexicalCause → Prop
  | dots {dots rest : List Char} (hdots : dots = ['.'] ∨ dots = ['.', '.']) (hrest : ∀ c ∈ rest.head?, c ≠ '.') :
      Misspelling dots rest .loneDot
  | stray {c : Char} {rest : List Char} (hblank : c ∉ blanks)
      (hc : ∀ word kind lexeme ty, ¬ Spelling (c :: word) kind lexeme ty) : Misspelling [c] rest (.strayChar c)
  | point {digits rest : List Char} (hdigits : IsDigits digits)
      (hrest : ∀ c ∈ rest.head?, c.isDigit = false ∧ c ≠ '.') :
      Misspelling (digits ++ ['.']) rest (.missingFraction (String.ofList (digits ++ ['.'])))
  | string {body contents last rest : List Char} {cause : LexicalCause} (hbody : Decodes body contents)
      (hlast : Breaks last rest cause) : Misspelling ('"' :: (body ++ last)) rest cause
  | comment {body : List Char} (hbody : ¬ ['*', '/'] <:+: body) : Misspelling ('/' :: '*' :: body) [] .openComment

/-- What a call answers at a text that has another before it, and what is left after it.  Tokens and errors
are placed on the line of their first character, the end mark on that of the end. -/
inductive Answers (before : List Char) : List Char → Except LexicalError Token → List Char → Prop
  | endMark {gap : List Char} (hgap : Trivia gap []) :
      Answers before gap
        (.ok { kind := .endMark, lexeme := "", line := lineAt (before ++ gap), literalType := none }) []
  | token {gap word rest : List Char} {kind : TokenKind} {lexeme : String} {ty : Option Prim}
      (hgap : Trivia gap (word ++ rest)) (hword : Spelling word kind lexeme ty)
      (hend : ∀ c ∈ rest.head?, kind.endsBefore c) :
      Answers before (gap ++ word ++ rest)
        (.ok { kind, lexeme, line := lineAt (before ++ gap), literalType := ty }) rest
  | error {gap word rest : List Char} {cause : LexicalCause} (hgap : Trivia gap (word ++ rest))
      (hword : Misspelling word rest cause) :
      Answers before (gap ++ word ++ rest) (.error { cause, line := lineAt (before ++ gap) }) rest

namespace Source

open Text (takeWhile_span dropWhile_span exists_span)

/-! ## Comments that are not closed -/

theorem not_infix_cons {c : Char} {rest : List Char} (hc : ∀ after, c = '*' → rest ≠ '/' :: after)
    (hrest : ¬ ['*', '/'] <:+: rest) : ¬ ['*', '/'] <:+: c :: rest := by
  intro hinfix
  rcases List.infix_cons_iff.mp hinfix with hprefix | hinfix
  · obtain ⟨hstar, tail, htail⟩ := List.cons_prefix_cons.mp hprefix
    exact hc tail hstar.symm htail.symm
  · exact hrest hinfix

/-- Where skipping fails, it has read the whole text. -/
theorem left_of_skip {place : Gap} {text : List Char} {line : Nat} {e : LexicalError} {left : Source}
    (h : skip place text line = (some e, left)) : left = ⟨[], line + text.count '\n'⟩ := by
  fun_induction skip place text line with
  | case4 => cases h
  | case6 c rest line hc ih => rw [ih h, List.count_cons_of_ne hc]
  | case9 =>
    cases h
    rfl
  | case10 => cases h
  | case1 _ _ _ _ ih | case8 _ _ _ _ _ ih => rw [ih h, lineAfter_add_count]
  | case5 rest line ih =>
    rw [ih h, ← lineAfter_add_count]
    rfl
  | case2 _ _ _ ih | case3 _ _ _ ih | case7 _ _ _ ih =>
    rw [ih h]
    rfl

/-- Skipping fails in a comment that is opened after what may be skipped, or in the one that it began in. -/
theorem opens_of_skip {place : Gap} {text : List Char} {line : Nat} {e : LexicalError} {left : Source}
    (h : skip place text line = (some e, left)) :
    (∃ gap body, text = gap ++ '/' :: '*' :: body ∧ place.Skips gap ('/' :: '*' :: body) ∧
        ¬ ['*', '/'] <:+: body ∧ e = ⟨.openComment, line + gap.count '\n'⟩) ∨
      ∃ opened, place = .blockComment opened ∧ ¬ ['*', '/'] <:+: text ∧ e = ⟨.openComment, opened⟩ := by
  fun_induction skip place text line with
  | case1 c rest line hc ih =>
    obtain ⟨gap, body, rfl, hgap, hbody, rfl⟩ | ⟨_, ⟨⟩, _⟩ := ih h
    refine .inl ⟨c :: gap, body, rfl, .blank (Text.isBlank_iff.mp hc) hgap, hbody, ?_⟩
    rw [lineAfter_add_count]
  | case2 line rest _ ih =>
    obtain ⟨gap, body, rfl, ⟨inside, after, rfl, hinside, hend, hgap⟩, hbody, rfl⟩ | ⟨_, ⟨⟩, _⟩ := ih h
    exact .inl ⟨'/' :: '/' :: (inside ++ after), body, rfl, .lineComment hinside hend hgap, hbody, rfl⟩
  | case3 line rest _ ih =>
    obtain ⟨gap, body, rfl, ⟨inside, after, rfl, hinside, hgap⟩, hbody, rfl⟩ | ⟨_, ⟨⟩, hopen, rfl⟩ := ih h
    · have hgap := Trivia.blockComment hinside hgap
      exact .inl ⟨'/' :: '*' :: (inside ++ '*' :: '/' :: after), body, rfl, hgap, hbody, rfl⟩
    · exact .inl ⟨[], rest, rfl, .nil _, hopen, rfl⟩
  | case4 => cases h
  | case5 rest line ih =>
    obtain ⟨gap, body, rfl, hgap, hbody, rfl⟩ | ⟨_, ⟨⟩, _⟩ := ih h
    have hblank := Trivia.blank (c := '\n') (by decide) hgap
    refine .inl ⟨'\n' :: gap, body, rfl, ⟨[], '\n' :: gap, rfl, List.not_mem_nil, ?_, hblank⟩, hbody, ?_⟩
    · rintro c ⟨⟩
      rfl
    · rw [← lineAfter_add_count]
      rfl
  | case6 c rest line hc ih =>
    obtain ⟨gap, body, rfl, hgap, hbody, rfl⟩ | ⟨_, ⟨⟩, _⟩ := ih h
    refine .inl ⟨c :: gap, body, rfl, hgap.lineComment_cons hc, hbody, ?_⟩
    rw [List.count_cons_of_ne hc]
  | case7 opened line rest ih =>
    obtain ⟨gap, body, rfl, hgap, hbody, rfl⟩ | ⟨_, ⟨⟩, _⟩ := ih h
    exact .inl ⟨'*' :: '/' :: gap, body, rfl, ⟨[], gap, rfl, by decide, hgap⟩, hbody, rfl⟩
  | case8 opened line c rest hc ih =>
    obtain ⟨gap, body, rfl, hgap, hbody, rfl⟩ | ⟨_, ⟨⟩, hopen, rfl⟩ := ih h
    · refine .inl ⟨c :: gap, body, rfl, hgap.blockComment_cons hc, hbody, ?_⟩
      rw [lineAfter_add_count]
    · exact .inr ⟨opened, rfl, not_infix_cons hc hopen, rfl⟩
  | case9 opened line =>
    cases h
    exact .inr ⟨opened, rfl, by decide, rfl⟩
  | case10 => cases h

/-! ## Spellings that fail -/

theorem stringContents_eq_error {text : List Char} {line : Nat} {cause : LexicalCause} {left : Source}
    (h : stringContents text line = (.error cause, left)) :
    ∃ body contents last, text = body ++ last ++ left.rest ∧ Decodes body contents ∧ Breaks last left.rest cause ∧
      left.line = line + last.count '\n' := by
  fun_induction stringContents text line generalizing left with
  | case1 =>
    cases h
    exact ⟨[], [], [], rfl, .nil, .textEnd, rfl⟩
  | case2 => cases h
  | case3 rest line =>
    cases h
    exact ⟨[], [], ['\n'], rfl, .nil, .newline rest, rfl⟩
  | case4 =>
    cases h
    exact ⟨[], [], ['\\'], rfl, .nil, .escapedEnd, rfl⟩
  | case5 rest line =>
    cases h
    exact ⟨[], [], ['\\', '\n'], rfl, .nil, .escapedNewline rest, rfl⟩
  | case6 letter rest line _ c hc inner after hinner ih =>
    cases inner with
    | ok contents => cases h
    | error e =>
      cases h
      obtain ⟨body, contents, last, rfl, hbody, hlast, hline⟩ := ih hinner
      exact ⟨'\\' :: letter :: body, _, last, rfl, .escape (unescape_eq_some_iff.mp hc) hbody, hlast, hline⟩
  | case7 letter rest line hn hletter =>
    cases h
    refine ⟨[], [], ['\\', letter], rfl, .nil, .escape (fun c hc => ?_) hn, ?_⟩
    · cases hletter.symm.trans (unescape_eq_some_iff.mpr hc)
    · rw [List.count_cons_of_ne (by decide), List.count_cons_of_ne hn]
      rfl
  | case8 c rest line hquote hnewline hlast _ hescape inner after hinner ih =>
    cases inner with
    | ok contents => cases h
    | error e =>
      cases h
      obtain ⟨body, contents, last, rfl, hbody, hlast', hline⟩ := ih hinner
      refine ⟨c :: body, _, last, rfl, .plain hquote (fun hc => ?_) hnewline hbody, hlast', hline⟩
      generalize body ++ last ++ after.rest = text at hescape hlast
      cases text with
      | nil => exact hlast hc rfl
      | cons d text => exact hescape _ _ hc rfl

theorem number_eq_error {c : Char} {text : List Char} {line : Nat} {cause : LexicalCause} {left : Source}
    (hc : c.isDigit = true) (h : number (c :: text) line = (.error cause, left)) :
    ∃ word, c :: text = word ++ left.rest ∧ Misspelling word left.rest cause ∧ left.line = line ∧ '\n' ∉ word := by
  obtain ⟨whole, rest, htext, hwhole, hrest⟩ := exists_span Char.isDigit (c :: text)
  have hnil : whole ≠ [] := by
    rintro rfl
    rw [List.nil_append] at htext
    subst htext
    simp [hrest c rfl] at hc
  unfold number at h
  simp only [htext, takeWhile_span hwhole hrest, dropWhile_span hwhole hrest] at h
  split at h
  · cases h
  · rename_i after hpoint
    obtain ⟨fraction, after, rfl, hfraction, hafter⟩ := exists_span Char.isDigit after
    rw [takeWhile_span hfraction hafter] at h
    split at h
    · rename_i hnone
      cases h
      subst hnone
      refine ⟨whole ++ ['.'], by simp [htext], .point ⟨hnil, hwhole⟩ fun d hd => ⟨hafter d hd, ?_⟩, rfl, ?_⟩
      · rintro rfl
        obtain ⟨more, rfl⟩ := List.head?_eq_some_iff.mp hd
        exact hpoint more rfl
      · intro hmem
        rcases List.mem_append.mp hmem with hmem | hmem
        · exact absurd (hwhole _ hmem) (by decide)
        · exact absurd hmem (by decide)
    · cases h
  · cases h

theorem symbol?_minus (text : List Char) : (symbol? ('-' :: text)).isSome = true := by
  cases text with
  | nil => rfl
  | cons d rest =>
    by_cases hd : d = '>'
    · subst hd
      rfl
    · simp [symbol?, hd]

theorem symbol?_equals (text : List Char) : (symbol? ('=' :: text)).isSome = true := by
  cases text with
  | nil => rfl
  | cons d rest =>
    by_cases hd : d = '='
    · subst hd
      rfl
    · simp [symbol?, hd]

/-- A symbol is read wherever one begins, unless it begins with a point. -/
theorem symbol?_isSome {c : Char} (hc : c ∈ symbolStarts) (hpoint : c ≠ '.') (text : List Char) :
    (symbol? (c :: text)).isSome = true := by
  have hstarts : symbolStarts =
      ['(', ')', '\x7b', '\x7d', ';', ':', ',', '+', '-', '*', '/', '%', '-', '=', '=', '.'] := by decide
  simp only [hstarts, List.mem_cons, List.not_mem_nil, or_false] at hc
  rcases hc with rfl | rfl | rfl | rfl | rfl | rfl | rfl | rfl | rfl | rfl | rfl | rfl | rfl | rfl | rfl | rfl
  -- only a minus and an equals sign begin more than one symbol
  all_goals first
    | rfl
    | exact symbol?_minus text
    | exact symbol?_equals text
    | exact absurd rfl hpoint

/-- A character that begins no symbol, string, number or word begins no spelling. -/
theorem begins_no_spelling {c : Char} {text : List Char} (hsymbol : symbol? (c :: text) = none) (hpoint : c ≠ '.')
    (hquote : c ≠ '"') (hdigit : ¬ c.isDigit = true) (hword : ¬ isWordStart c = true) (word : List Char)
    (kind : TokenKind) (lexeme : String) (ty : Option Prim) : ¬ Spelling (c :: word) kind lexeme ty := by
  have notWord {cs : List Char} (hcs : IsWord cs) (heq : c :: word = cs) : False := by
    subst heq
    exact hword (Bool.and_eq_true_iff.mp (isWord_iff.mp hcs)).1
  have notDigits {digits after : List Char} (hdigits : IsDigits digits) (heq : c :: word = digits ++ after) :
      False := by
    obtain ⟨hnil, hall⟩ := hdigits
    obtain ⟨d, ds, rfl⟩ := List.exists_cons_of_ne_nil hnil
    cases heq
    exact hdigit (hall c List.mem_cons_self)
  intro h
  generalize hw : c :: word = cs at h
  cases h with
  | symbol h =>
    have hstart : c ∈ symbolStarts := List.mem_filterMap.mpr ⟨_, h, by rw [← hw]; rfl⟩
    have hsome := symbol?_isSome hstart hpoint text
    rw [hsymbol] at hsome
    cases hsome
  | keyword h => exact notWord (isWord_of_mem_keywords h) hw
  | typeName h => exact notWord (isWord_of_mem_typeKeywords h) hw
  | ident h => exact notWord h hw
  | int h => exact notDigits h (hw.trans (List.append_nil _).symm)
  | float h => exact notDigits h hw
  | string => exact hquote (List.cons.inj hw).1

theorem afterDots_of_symbol? {text : List Char} (hsymbol : symbol? ('.' :: text) = none) :
    ∃ dots, '.' :: text = dots ++ afterDots ('.' :: text) ∧ Misspelling dots (afterDots ('.' :: text)) .loneDot ∧
      dots.count '\n' = 0 := by
  cases text with
  | nil => exact ⟨['.'], rfl, .dots (.inl rfl) nofun, rfl⟩
  | cons d rest =>
    by_cases hd : d = '.'
    · subst hd
      refine ⟨['.', '.'], rfl, .dots (.inr rfl) (head?_ne fun more hmore => ?_), rfl⟩
      have hmore : rest = '.' :: more := hmore
      subst hmore
      cases hsymbol
    · have hone : afterDots ('.' :: d :: rest) = d :: rest := by
        rw [afterDots.eq_def]
        simp [hd]
      rw [hone]
      refine ⟨['.'], rfl, .dots (.inl rfl) ?_, rfl⟩
      rintro _ ⟨⟩
      exact hd

/-- **A text that begins with no trivia and no spelling** begins with a misspelling, which is read. -/
theorem spelling_eq_error {text : List Char} {line : Nat} {cause : LexicalCause} {left : Source} (hplain : Plain text)
    (h : spelling text line = (.error cause, left)) :
    ∃ word, text = word ++ left.rest ∧ Misspelling word left.rest cause ∧ left.line = line + word.count '\n' := by
  cases hsymbol : symbol? text with
  | some found =>
    obtain ⟨kind, lexeme, rest⟩ := found
    unfold spelling at h
    rw [hsymbol] at h
    cases h
  | none =>
    cases text with
    | nil => cases h
    | cons c text =>
      rw [spelling_cons c text line hsymbol] at h
      split at h
      · rename_i hpoint
        subst hpoint
        cases h
        obtain ⟨dots, htext, hdots, hcount⟩ := afterDots_of_symbol? hsymbol
        exact ⟨dots, htext, hdots, by rw [hcount]; rfl⟩
      rename_i hpoint
      split at h
      · rename_i hquote
        subst hquote
        cases hcontents : stringContents text line with
        | mk contents after =>
          rw [hcontents] at h
          cases contents with
          | ok contents => cases h
          | error e =>
            cases h
            obtain ⟨body, contents, last, rfl, hbody, hlast, hline⟩ := stringContents_eq_error hcontents
            refine ⟨'"' :: (body ++ last), by simp, .string hbody hlast, ?_⟩
            rw [hline, List.count_cons_of_ne (by decide), List.count_append,
              List.count_eq_zero.mpr (newline_not_mem_body hbody), Nat.zero_add]
      rename_i hquote
      split at h
      · rename_i hdigit
        obtain ⟨word, htext, hword, hline, hnewline⟩ := number_eq_error hdigit h
        exact ⟨word, htext, hword, by rw [hline, List.count_eq_zero.mpr hnewline, Nat.add_zero]⟩
      rename_i hdigit
      split at h
      · cases h
      rename_i hword
      cases h
      have hblank : c ∉ blanks := hplain.blank c rfl
      refine ⟨[c], rfl, .stray hblank (begins_no_spelling hsymbol hpoint hquote hdigit hword), ?_⟩
      have hnewline : c ≠ '\n' := by
        rintro rfl
        exact hblank (by decide)
      rw [List.count_cons_of_ne hnewline]
      rfl

/-! ## Calls -/

section Next

variable {before : List Char}

/-- A call with an error has read trivia and a misspelling. -/
theorem next_eq_error {text : List Char} {e : LexicalError} {left : Source}
    (h : next ⟨text, lineAt before⟩ = (.error e, left)) :
    ∃ gap word, text = gap ++ word ++ left.rest ∧ Trivia gap (word ++ left.rest) ∧
      Misspelling word left.rest e.cause ∧ e.line = lineAt (before ++ gap) ∧
      left.line = lineAt (before ++ gap ++ word) := by
  unfold next at h
  split at h
  · rename_i e' left' hskip
    cases h
    obtain rfl := left_of_skip hskip
    obtain ⟨gap, body, rfl, hgap, hbody, rfl⟩ | ⟨_, ⟨⟩, _⟩ := opens_of_skip hskip
    refine ⟨gap, '/' :: '*' :: body, by simp, ?_, .comment hbody, lineAt_append _ _, ?_⟩
    · rw [List.append_nil]
      exact hgap
    · rw [lineAt_append, List.append_assoc]
  · rename_i after hskip
    obtain ⟨gap, htext, hgap, hline, hplain⟩ := skip_eq_none hskip
    obtain ⟨rest, line⟩ := after
    simp only at htext hline hgap hplain
    subst htext hline
    rw [lineAt_append] at h
    cases hspelling : spelling rest (lineAt (before ++ gap)) with
    | mk result after =>
      rw [hspelling] at h
      cases result with
      | ok t => cases h
      | error cause =>
        cases h
        obtain ⟨word, rfl, hword, hleft⟩ := spelling_eq_error hplain hspelling
        exact ⟨gap, word, by rw [List.append_assoc], hgap, hword, rfl, by rw [hleft, lineAt_append]⟩

/-- **What a call answers**, and the line that it leaves its source on. -/
theorem next_answers (before text : List Char) :
    ∃ read, text = read ++ (next ⟨text, lineAt before⟩).2.rest ∧
      (next ⟨text, lineAt before⟩).2.line = lineAt (before ++ read) ∧
      Answers before text (next ⟨text, lineAt before⟩).1 (next ⟨text, lineAt before⟩).2.rest := by
  cases hnext : next ⟨text, lineAt before⟩ with
  | mk answer left =>
    cases answer with
    | error e =>
      obtain ⟨gap, word, rfl, hgap, hword, hline, hleft⟩ := next_eq_error hnext
      obtain ⟨cause, line⟩ := e
      cases hline
      exact ⟨gap ++ word, rfl, by rw [hleft, List.append_assoc], .error hgap hword⟩
    | ok t =>
      obtain ⟨hgap, rfl⟩ | ⟨gap, word, rfl, hgap, hword, hend, hline, hleft⟩ := next_eq_ok hnext
      · rw [next_endMark hgap] at hnext
        cases hnext
        exact ⟨text, (List.append_nil _).symm, rfl, .endMark hgap⟩
      · obtain ⟨kind, lexeme, line, ty⟩ := t
        cases hline
        exact ⟨gap ++ word, rfl, by rw [hleft, List.append_assoc], .token hgap hword hend⟩

end Next

end Source

end SsaCompiler.Lang
