import SsaCompiler.Proofs.Lang.Token.Lexical

/-!
# Skipping trivia

Skipping passes over trivia, counts the newlines in it, and stops where no trivia begins:

    Trivia gap rest → skip .between (gap ++ rest) line = skip .between rest (line + newlines of gap)   (skip_append)
    skip .between text line = (none, left) → text = gap ++ left.rest with Trivia gap left.rest         (skip_eq_none)
-/

namespace SsaCompiler.Lang.Source

open Text (blanks isBlank isBlank_iff)

/-- Whether a text begins with neither a blank nor a comment. -/
structure Plain (text : List Char) : Prop where
  blank : ∀ c ∈ text.head?, c ∉ blanks
  lineComment : ∀ rest, text ≠ '/' :: '/' :: rest
  blockComment : ∀ rest, text ≠ '/' :: '*' :: rest

theorem plain_nil : Plain [] :=
  ⟨fun c hc => (Option.not_mem_none c hc).elim, fun _ => (List.cons_ne_nil _ _).symm,
    fun _ => (List.cons_ne_nil _ _).symm⟩

theorem lineAfter_add_count (c : Char) (line : Nat) (text : List Char) :
    lineAfter c line + text.count '\n' = line + (c :: text).count '\n' := by
  unfold lineAfter
  rw [List.count_cons]
  by_cases h : c = '\n'
  · simp only [h, if_true, beq_self_eq_true]
    omega
  · simp only [h, if_false, beq_iff_eq]
    omega

/-! ## Passing over trivia -/

theorem skip_blank {c : Char} (hc : c ∈ blanks) (rest : List Char) (line : Nat) :
    skip .between (c :: rest) line = skip .between rest (lineAfter c line) := by
  rw [skip.eq_def]
  exact if_pos (isBlank_iff.mpr hc)

theorem skip_plain {text : List Char} (h : Plain text) (line : Nat) :
    skip .between text line = (none, ⟨text, line⟩) := by
  cases text with
  | nil => rfl
  | cons c rest =>
    have hc : ¬ isBlank c = true := fun hb => h.blank c rfl (isBlank_iff.mp hb)
    rw [skip.eq_def]
    simp only [if_neg hc]
    split
    · exact absurd rfl (h.lineComment _)
    · exact absurd rfl (h.blockComment _)
    · rfl

theorem skip_lineComment_append {body rest : List Char} (hbody : '\n' ∉ body) (hend : ∀ c ∈ rest.head?, c = '\n')
    (line : Nat) : skip .lineComment (body ++ rest) line = skip .between rest line := by
  induction body with
  | nil =>
    cases rest with
    | nil => rfl
    | cons c rest =>
      cases hend c rfl
      rw [skip_blank (by decide)]
      rfl
  | cons c body ih =>
    have hc : c ≠ '\n' := fun h => hbody (h ▸ List.mem_cons_self)
    rw [List.cons_append, skip, if_neg hc]
    exact ih fun h => hbody (List.mem_cons_of_mem _ h)

/-- Inside a block comment every character is passed over that is not a star before a slash. -/
theorem skip_blockComment_cons {c : Char} {rest : List Char} (h : ∀ after, c = '*' → rest ≠ '/' :: after)
    (opened line : Nat) :
    skip (.blockComment opened) (c :: rest) line = skip (.blockComment opened) rest (lineAfter c line) := by
  rw [skip.eq_def]
  simp only

theorem skip_blockComment_append {body : List Char} (hbody : ¬ ['*', '/'] <:+: body ++ ['*']) (rest : List Char)
    (opened line : Nat) :
    skip (.blockComment opened) (body ++ '*' :: '/' :: rest) line =
      skip .between rest (line + body.count '\n') := by
  induction body generalizing line with
  | nil => rfl
  | cons c body ih =>
    have hpair (after : List Char) (hc : c = '*') : body ++ '*' :: '/' :: rest ≠ '/' :: after := by
      intro hafter
      cases body with
      | nil => cases hafter
      | cons d body =>
        cases hafter
        exact hbody ⟨[], body ++ ['*'], by rw [hc]; rfl⟩
    have hrest : ¬ ['*', '/'] <:+: body ++ ['*'] := fun h => hbody (h.trans (List.suffix_cons c _).isInfix)
    rw [List.cons_append, skip_blockComment_cons hpair, ih hrest, lineAfter_add_count]

/-- **Trivia is passed over** with its newlines counted. -/
theorem skip_append {gap rest : List Char} (h : Trivia gap rest) (line : Nat) :
    skip .between (gap ++ rest) line = skip .between rest (line + gap.count '\n') := by
  induction h generalizing line with
  | nil rest => rfl
  | blank hc _ ih => rw [List.cons_append, skip_blank hc, ih, lineAfter_add_count]
  | @lineComment body gap rest hbody hend _ ih =>
    have hcount : ('/' :: '/' :: (body ++ gap)).count '\n' = gap.count '\n' := by
      rw [List.count_cons_of_ne (by decide), List.count_cons_of_ne (by decide), List.count_append,
        List.count_eq_zero.mpr hbody, Nat.zero_add]
    rw [List.cons_append, List.cons_append, List.append_assoc, hcount, ← ih]
    exact skip_lineComment_append hbody hend line
  | @blockComment body gap rest hbody _ ih =>
    have hcount : ('/' :: '*' :: (body ++ '*' :: '/' :: gap)).count '\n' = body.count '\n' + gap.count '\n' := by
      rw [List.count_cons_of_ne (by decide), List.count_cons_of_ne (by decide), List.count_append,
        List.count_cons_of_ne (by decide), List.count_cons_of_ne (by decide)]
    have htext : '/' :: '*' :: (body ++ '*' :: '/' :: gap) ++ rest =
        '/' :: '*' :: (body ++ '*' :: '/' :: (gap ++ rest)) := by
      simp
    rw [htext, hcount, ← Nat.add_assoc, ← ih]
    exact skip_blockComment_append hbody _ line line

/-! ## What is skipped -/

/-- What may be skipped from a place between tokens or in a comment on. -/
def Gap.Skips : Gap → List Char → List Char → Prop
  | .between, gap, rest => Trivia gap rest
  | .lineComment, gap, rest =>
    ∃ body after, gap = body ++ after ∧ '\n' ∉ body ∧ (∀ c ∈ (after ++ rest).head?, c = '\n') ∧ Trivia after rest
  | .blockComment _, gap, rest =>
    ∃ body after, gap = body ++ '*' :: '/' :: after ∧ ¬ ['*', '/'] <:+: body ++ ['*'] ∧ Trivia after rest

/-- A character that is no newline is passed over in a line comment. -/
theorem Gap.Skips.lineComment_cons {c : Char} {gap rest : List Char} (hc : c ≠ '\n')
    (h : Gap.Skips .lineComment gap rest) : Gap.Skips .lineComment (c :: gap) rest := by
  obtain ⟨body, after, rfl, hbody, hend, htrivia⟩ := h
  refine ⟨c :: body, after, rfl, fun hmem => ?_, hend, htrivia⟩
  rcases List.mem_cons.mp hmem with h | h
  · exact hc h.symm
  · exact hbody h

theorem Gap.Skips.blockComment_cons {c : Char} {gap rest : List Char} {opened : Nat}
    (hc : ∀ after, c = '*' → gap ++ rest ≠ '/' :: after) (h : Gap.Skips (.blockComment opened) gap rest) :
    Gap.Skips (.blockComment opened) (c :: gap) rest := by
  obtain ⟨body, after, rfl, hbody, htrivia⟩ := h
  refine ⟨c :: body, after, rfl, fun hinfix => ?_, htrivia⟩
  rcases List.infix_cons_iff.mp hinfix with hprefix | hinfix
  · obtain ⟨hstar, hprefix⟩ := List.cons_prefix_cons.mp hprefix
    obtain ⟨tail, htail⟩ := hprefix
    cases body with
    | nil => cases htail
    | cons d body =>
      cases htail
      exact hc _ hstar.symm rfl
  · exact hbody hinfix

theorem skips_of_skip {place : Gap} {text : List Char} {line : Nat} {left : Source}
    (h : skip place text line = (none, left)) :
    ∃ gap, text = gap ++ left.rest ∧ place.Skips gap left.rest ∧ left.line = line + gap.count '\n' ∧
      Plain left.rest := by
  fun_induction skip place text line with
  | case1 c rest line hc ih =>
    obtain ⟨gap, rfl, hgap, hline, hplain⟩ := ih h
    refine ⟨c :: gap, rfl, .blank (isBlank_iff.mp hc) hgap, ?_, hplain⟩
    rw [hline, lineAfter_add_count]
  | case2 line rest _ ih =>
    obtain ⟨gap, rfl, ⟨body, after, rfl, hbody, hend, hgap⟩, hline, hplain⟩ := ih h
    refine ⟨'/' :: '/' :: (body ++ after), rfl, .lineComment hbody hend hgap, ?_, hplain⟩
    rw [hline, List.count_cons_of_ne (by decide), List.count_cons_of_ne (by decide)]
  | case3 line rest _ ih =>
    obtain ⟨gap, rfl, ⟨body, after, rfl, hbody, hgap⟩, hline, hplain⟩ := ih h
    refine ⟨'/' :: '*' :: (body ++ '*' :: '/' :: after), rfl, .blockComment hbody hgap, ?_, hplain⟩
    rw [hline, List.count_cons_of_ne (by decide), List.count_cons_of_ne (by decide)]
  | case4 line c rest hline hblock hc =>
    cases h
    refine ⟨[], rfl, .nil _, rfl, ?_, ?_, ?_⟩
    · rintro d ⟨⟩ hd
      exact hc (isBlank_iff.mpr hd)
    · rintro after ⟨⟩
      exact hline after rfl rfl
    · rintro after ⟨⟩
      exact hblock after rfl rfl
  | case5 rest line ih =>
    obtain ⟨gap, rfl, hgap, hline, hplain⟩ := ih h
    refine ⟨'\n' :: gap, rfl, ⟨[], '\n' :: gap, rfl, List.not_mem_nil, ?_, .blank (by decide) hgap⟩, ?_, hplain⟩
    · rintro c ⟨⟩
      rfl
    · rw [hline]
      exact lineAfter_add_count '\n' line gap
  | case6 c rest line hc ih =>
    obtain ⟨gap, rfl, hgap, hline, hplain⟩ := ih h
    refine ⟨c :: gap, rfl, hgap.lineComment_cons hc, ?_, hplain⟩
    rw [hline, List.count_cons_of_ne hc]
  | case7 opened line rest ih =>
    obtain ⟨gap, rfl, hgap, hline, hplain⟩ := ih h
    refine ⟨'*' :: '/' :: gap, rfl, ⟨[], gap, rfl, by decide, hgap⟩, ?_, hplain⟩
    rw [hline, List.count_cons_of_ne (by decide), List.count_cons_of_ne (by decide)]
  | case8 opened line c rest hc ih =>
    obtain ⟨gap, rfl, hgap, hline, hplain⟩ := ih h
    refine ⟨c :: gap, rfl, hgap.blockComment_cons hc, ?_, hplain⟩
    rw [hline, lineAfter_add_count]
  | case9 => cases h
  | case10 place line hplace =>
    cases h
    refine ⟨[], rfl, ?_, rfl, plain_nil⟩
    cases place with
    | between => exact .nil _
    | lineComment => exact ⟨[], [], rfl, List.not_mem_nil, fun c hc => (Option.not_mem_none c hc).elim, .nil _⟩
    | blockComment opened => exact (hplace opened rfl).elim

/-- **Nothing but trivia is passed over**, and all of it. -/
theorem skip_eq_none {text : List Char} {line : Nat} {left : Source} (h : skip .between text line = (none, left)) :
    ∃ gap, text = gap ++ left.rest ∧ Trivia gap left.rest ∧ left.line = line + gap.count '\n' ∧ Plain left.rest :=
  skips_of_skip h

end SsaCompiler.Lang.Source
