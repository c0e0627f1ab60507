import SsaCompiler.Proofs.Lang.Token.Spelling

/-!
# Scanning accepts exactly the lexical grammar

One call passes over the trivia before a token and reads the token, so a scan of a whole text divides it
as the grammar does:

    s.next is the token of a spelling after trivia      (next_token, next_eq_ok)
    scan text = .ok ts  ↔  Lexes [] text.toList ts       (scan_eq_ok_iff)

The line of a source is that of the text before it, `lineAt before`.
-/

namespace SsaCompiler.Lang

namespace Source

open Text (blanks)

theorem lineAt_append (before text : List Char) : lineAt before + text.count '\n' = lineAt (before ++ text) := by
  rw [lineAt, lineAt, List.count_append, Nat.add_assoc]

/-! ## One call -/

section Next

variable {before gap word rest : List Char} {kind : TokenKind} {lexeme : String} {ty : Option Prim}

theorem next_token (hgap : Trivia gap (word ++ rest)) (hword : Spelling word kind lexeme ty)
    (hend : ∀ c ∈ rest.head?, kind.endsBefore c) (hpoint : ∀ after, rest = '.' :: after → after.head? = some '.') :
    next ⟨gap ++ word ++ rest, lineAt before⟩ =
      (.ok { kind, lexeme, line := lineAt (before ++ gap), literalType := ty },
        ⟨rest, lineAt (before ++ gap ++ word)⟩) := by
  have hline : lineAt (before ++ gap ++ word) = lineAt (before ++ gap) := by
    rw [← lineAt_append _ word, List.count_eq_zero.mpr (newline_not_mem_spelling hword), Nat.add_zero]
  unfold next
  simp only [List.append_assoc gap, skip_append hgap, lineAt_append, skip_plain (plain_append hword hend),
    spelling_append hword hend hpoint, hline]
  rfl

theorem next_endMark (hgap : Trivia gap []) :
    next ⟨gap, lineAt before⟩ =
      (.ok { kind := .endMark, lexeme := "", line := lineAt (before ++ gap), literalType := none },
        ⟨[], lineAt (before ++ gap)⟩) := by
  have hskip := skip_append hgap (lineAt before)
  rw [List.append_nil, lineAt_append] at hskip
  unfold next
  simp only [hskip]
  rfl

/-- A call without an error has read the end mark or a token. -/
theorem next_eq_ok {text : List Char} {t : Token} {left : Source} (h : next ⟨text, lineAt before⟩ = (.ok t, left)) :
    (Trivia text [] ∧ t = { kind := .endMark, lexeme := "", line := lineAt (before ++ text), literalType := none }) ∨
      ∃ gap word, text = gap ++ word ++ left.rest ∧ Trivia gap (word ++ left.rest) ∧
        Spelling word t.kind t.lexeme t.literalType ∧ (∀ c ∈ left.rest.head?, t.kind.endsBefore c) ∧
        t.line = lineAt (before ++ gap) ∧ left.line = lineAt (before ++ gap ++ word) := by
  unfold next at h
  split at h
  · cases h
  · rename_i after hskip
    obtain ⟨gap, htext, hgap, hline, hplain⟩ := skip_eq_none hskip
    obtain ⟨rest, line⟩ := after
    simp only at htext hline hgap hplain
    subst htext hline
    rw [lineAt_append] at h
    cases rest with
    | nil =>
      left
      cases h
      rw [List.append_nil]
      exact ⟨hgap, rfl⟩
    | cons c rest =>
      right
      cases hspelling : spelling (c :: rest) (lineAt (before ++ gap)) with
      | mk result after =>
        rw [hspelling] at h
        cases result with
        | error e => cases h
        | ok t =>
          cases h
          obtain ⟨word, htext, hword, hend, hline, hleft⟩ := spelling_eq_ok hplain hspelling
          rw [htext] at hgap ⊢
          refine ⟨gap, word, by rw [List.append_assoc], hgap, hword, hend, hline, ?_⟩
          rw [hleft, ← lineAt_append _ word, List.count_eq_zero.mpr (newline_not_mem_spelling hword), Nat.add_zero]

end Next

/-! ## Whole texts -/

/-- Where a row of tokens begins with a point, it begins with three. -/
theorem head?_of_lexes_point {before after : List Char} {ts : List Token} (h : Lexes before ('.' :: after) ts) :
    after.head? = some '.' := by
  have hnil {gap rest : List Char} (hgap : Trivia gap rest) (htext : ∃ after, gap = '.' :: after) : False := by
    obtain ⟨after, rfl⟩ := htext
    cases hgap with
    | blank hc => exact absurd hc (by decide)
  generalize htext : '.' :: after = text at h
  cases h with
  | done hgap => exact (hnil hgap ⟨after, htext.symm⟩).elim
  | @token _ gap word rest _ _ _ _ hgap hword =>
    cases gap with
    | cons c gap =>
      cases htext
      exact (hnil hgap ⟨gap, rfl⟩).elim
    | nil =>
      obtain ⟨c, cs, rfl, -, -, hpoint⟩ := begins_spelling hword
      cases htext
      rw [hpoint rfl]
      rfl

theorem tokens_of_next {s left : Source} {t : Token} (h : s.next = (.ok t, left)) :
    s.tokens = if t.kind = .endMark then .ok [t] else left.tokens.map (t :: ·) := by
  rw [tokens]
  split
  · rename_i heq
    cases h.symm.trans heq
  · rename_i heq
    cases h.symm.trans heq
    rfl

theorem tokens_of_lexes {before text : List Char} {ts : List Token} (h : Lexes before text ts) :
    tokens ⟨text, lineAt before⟩ = .ok ts := by
  induction h with
  | done hgap => exact tokens_of_next (next_endMark hgap)
  | @token before gap word rest kind lexeme ty ts hgap hword hend hrest ih =>
    have hpoint : ∀ after, rest = '.' :: after → after.head? = some '.' := by
      rintro after rfl
      exact head?_of_lexes_point hrest
    rw [tokens_of_next (next_token hgap hword hend hpoint), if_neg (ne_endMark_of_spelling hword), ih]
    rfl

theorem lexes_of_tokens {s : Source} {before : List Char} {ts : List Token} (hline : s.line = lineAt before)
    (h : s.tokens = .ok ts) : Lexes before s.rest ts := by
  fun_induction tokens s generalizing before ts with
  | case1 => cases h
  | case2 s t left hnext hend =>
    obtain ⟨text, line⟩ := s
    cases hline
    cases h
    rcases next_eq_ok hnext with ⟨hgap, rfl⟩ | ⟨_, _, _, _, hword, _⟩
    · exact .done hgap
    · exact absurd hend (ne_endMark_of_spelling hword)
  | case3 s t left hnext hend _ ih =>
    obtain ⟨text, line⟩ := s
    cases hline
    rcases next_eq_ok hnext with ⟨_, rfl⟩ | ⟨gap, word, rfl, hgap, hword, hends, hline, hleft⟩
    · exact absurd rfl hend
    · cases hrest : left.tokens with
      | error e =>
        rw [hrest] at h
        cases h
      | ok rest =>
        rw [hrest] at h
        cases h
        obtain ⟨kind, lexeme, line, ty⟩ := t
        cases hline
        exact .token hgap hword hends (ih hleft hrest)

end Source

/-- **A scan accepts exactly the rows of tokens of the lexical grammar**, and gives all of them. -/
theorem scan_eq_ok_iff (text : String) (ts : List Token) : scan text = .ok ts ↔ Lexes [] text.toList ts :=
  ⟨Source.lexes_of_tokens rfl, Source.tokens_of_lexes⟩

end SsaCompiler.Lang
