import SsaCompiler.Proofs.Lang.Program.FollowingProgram
import SsaCompiler.Proofs.Parsing

/-!
# Parsing by position

Whatever a row of tokens is, reading it by position comes to an end, in the row, and gives what parsing by cursors
gives:

    Confined tokens result h     the program, with the head before the first end mark, or the same syntax error;
                                 nothing looked at behind the first end mark; every round has read a token

Tokens behind the first end mark count for nothing, except that the last of the row is an end mark too
(parse_byPosition).
-/

namespace SsaCompiler

open Lang

namespace Lang

/-- What reading a row by position comes to. -/
structure Walk.Confined (tokens : List Token) (result : Except Stop Program) (h : Head) : Prop where
  /-- The row was not left, and no loop or recursion was cut short. -/
  reads : result = (Program.ofTokens tokens).mapError .grammar
  places : ∀ p ∈ h.places, p ≤ (beforeEnd tokens).length
  seen : ∀ i ∈ h.seen, i < tokens.length ∧ i ≤ (beforeEnd tokens).length
  atEnd : ∀ p, result = .ok p → h.pos = (beforeEnd tokens).length
  rounds : ∀ r ∈ h.rounds, r.1 < r.2

/-! ## Rows and tapes -/

/-- A row with an end mark is a tape. -/
theorem Tape.exists_row {tokens : List Token} {last : Token} (hlast : last ∈ tokens) (hmark : last.kind = .endMark) :
    ∃ tape : Tape, tape.row = tokens ∧ tape.tokens = beforeEnd tokens := by
  have hparts : beforeEnd tokens ++ tokens.dropWhile (·.kind ≠ .endMark) = tokens := List.takeWhile_append_dropWhile
  have hfirst := List.head?_dropWhile_not (·.kind ≠ .endMark) tokens
  have hnoMarks : ∀ t ∈ beforeEnd tokens, t.kind ≠ .endMark := fun t ht =>
    of_decide_eq_true (List.all_eq_true.mp List.all_takeWhile t ht)
  cases hrest : tokens.dropWhile (·.kind ≠ .endMark) with
  | nil =>
    rw [hrest, List.append_nil] at hparts
    exact absurd hmark (hnoMarks last (hparts.symm ▸ hlast))
  | cons mark after =>
    rw [hrest] at hparts hfirst
    exact ⟨⟨beforeEnd tokens, mark, after, hnoMarks, by simpa using hfirst⟩, hparts, rfl⟩

/-- Where reading by cursors begins. -/
theorem Tape.ofTokens_row {tape : Tape} {last : Token} (hlast : tape.row.getLast? = some last)
    (hmark : last.kind = .endMark) : Cursor.ofTokens tape.row = .ok (tape.cursor 0) := by
  have hfirst : tape.tokenAt 0 = tape.tokens.headD tape.mark := by
    unfold tokenAt row
    cases tape.tokens <;> rfl
  rw [row, ofTokens_marked tape.noMarks tape.isMark hlast hmark, ← hfirst]
  rfl

/-- Tokens behind an end mark do not count. -/
theorem ofTokens_upTo_mark {t₁ t₂ : List Token} {mark last : Token} (hmark : mark.kind = .endMark)
    (hlast : (t₁ ++ mark :: t₂).getLast? = some last) (hend : last.kind = .endMark) :
    Program.ofTokens (t₁ ++ mark :: t₂) = Program.ofTokens (t₁ ++ [mark]) := by
  -- the first end mark may be in `t₁`
  obtain ⟨tape, hrow, -⟩ := Tape.exists_row (List.mem_append_right t₁ (List.mem_singleton_self mark)) hmark
  have hlonger : t₁ ++ mark :: t₂ = tape.tokens ++ tape.mark :: (tape.after ++ t₂) := by
    rw [List.append_cons, ← hrow, Tape.row, List.append_assoc, List.cons_append]
  have hshorter : (tape.tokens ++ tape.mark :: tape.after).getLast? = some mark := by
    rw [← Tape.row, hrow, List.getLast?_concat]
  have hcursor : Cursor.ofTokens (t₁ ++ mark :: t₂) = Cursor.ofTokens (t₁ ++ [mark]) := by
    rw [hlonger] at hlast ⊢
    rw [← hrow, Tape.row, ofTokens_marked tape.noMarks tape.isMark hlast hend,
      ofTokens_marked tape.noMarks tape.isMark hshorter hmark]
  unfold Program.ofTokens
  rw [hcursor]

/-- A row that does not end with an end mark is not looked at. -/
theorem Walk.confined_fail {tokens : List Token} {line : Nat}
    (h : Program.ofTokens tokens = .error ⟨.noEndMark, line⟩) :
    Walk.Confined tokens (.error (.grammar ⟨.noEndMark, line⟩)) .start := by
  refine ⟨?_, List.forall_mem_nil _, List.forall_mem_nil _, ?_, List.forall_mem_nil _⟩
  · rw [h]
    rfl
  · rintro _ ⟨⟩

theorem Tape.keeps_start (tape : Tape) : tape.Keeps .start :=
  ⟨Nat.zero_le _, List.forall_mem_nil _, List.forall_mem_nil _, List.forall_mem_nil _⟩

/-- Programs are read as by cursors. -/
theorem Tape.ends_program {tape : Tape} {last : Token} {n : Nat} (hlast : tape.row.getLast? = some last)
    (hmark : last.kind = .endMark) (hn : tape.size < n) :
    tape.Ends (Program.ofTokens tape.row) (do
      return .ofDeclarations (← Walk.loop (Walk.declarationRound tape.row n) n [])) 0 fun p q =>
        q = tape.size ∧ Program.ofTokens tape.row = .ok p := by
  have hread : Program.ofTokens tape.row = (Reader.declarations (tape.cursor 0)).map .ofDeclarations := by
    unfold Program.ofTokens
    rw [Tape.ofTokens_row hlast hmark]
    rfl
  rw [hread]
  refine ((ends_declarations hn).imp ?_ fun _ _ => id).bind ?_
  · intro e he
    rw [he]
    rfl
  · rintro ds q - ⟨rfl, hds⟩
    rw [hds]
    exact ends_pure ⟨rfl, rfl⟩

theorem Tape.Keeps.confined {tape : Tape} {result : Except Stop Program} {h : Head} (hkeeps : tape.Keeps h)
    (htokens : tape.tokens = beforeEnd tape.row) (hresult : result = (Program.ofTokens tape.row).mapError .grammar)
    (hpos : ∀ p, result = .ok p → h.pos = tape.size) : Walk.Confined tape.row result h := by
  have hlength : (beforeEnd tape.row).length = tape.size := congrArg List.length htokens.symm
  have hlt : tape.size < tape.row.length := by
    simp [row, size]
  refine ⟨hresult, hlength ▸ hkeeps.places, fun i hi => ?_, fun p hp => ?_, hkeeps.rounds⟩
  · have hle := hkeeps.seen i hi
    exact ⟨Nat.lt_of_le_of_lt hle hlt, hlength ▸ hle⟩
  · rw [hpos p hp, hlength]

theorem Walk.confined_program (tokens : List Token) (k : Nat) :
    Walk.Confined tokens (outcome (Walk.program tokens (tokens.length + 1 + k)) .start).1
      (outcome (Walk.program tokens (tokens.length + 1 + k)) .start).2 := by
  unfold Walk.program
  cases hlast : tokens.getLast? with
  | none =>
    refine confined_fail ?_
    unfold Program.ofTokens Cursor.ofTokens
    rw [hlast]
    rfl
  | some last =>
  by_cases hmark : last.kind = .endMark
  · obtain ⟨tape, rfl, htokens⟩ := Tape.exists_row (List.mem_of_getLast? hlast) hmark
    have hsize : tape.size < tape.row.length := by
      simp [Tape.row, Tape.size]
    simp only [if_pos hmark]
    rcases Tape.ends_program hlast hmark (show tape.size < tape.row.length + 1 + k by omega) .start
      tape.keeps_start rfl with
      ⟨p, h, hgives, hkeeps, hpos, hread⟩ | ⟨e, h, hfails, hkeeps, hread⟩
    · unfold Gives at hgives
      rw [hgives]
      refine hkeeps.confined htokens ?_ fun _ _ => hpos
      rw [hread]
      rfl
    · rw [hfails]
      refine hkeeps.confined htokens ?_ ?_
      · rw [hread]
        rfl
      · rintro _ ⟨⟩
  · simp only [if_neg hmark]
    refine confined_fail ?_
    unfold Program.ofTokens Cursor.ofTokens
    simp only [hlast, if_neg hmark]
    rfl

end Lang

/-! ## Every row -/

/-- **Every row of tokens is parsed in range, and no further than to its first end mark.** -/
theorem parse_byPosition (tokens : List Token) (k : Nat) :
    Walk.Confined tokens (outcome (Walk.program tokens (tokens.length + 1 + k)) .start).1
        (outcome (Walk.program tokens (tokens.length + 1 + k)) .start).2 ∧
      ∀ t₁ mark t₂ last, tokens = t₁ ++ mark :: t₂ → mark.kind = .endMark → tokens.getLast? = some last →
        last.kind = .endMark → parse tokens = parse (t₁ ++ [mark]) := by
  refine ⟨Walk.confined_program tokens k, ?_⟩
  rintro t₁ mark t₂ last rfl hmark hlast hend
  unfold parse
  rw [ofTokens_upTo_mark hmark hlast hend]

/-- The tokens of `operatorLast` with a word behind their end mark, and another end mark. -/
def wordBehind : List Token :=
  operatorLast ++ [.plain .fnWord "fn" 2, .plain .endMark "" 2]

/-- The word is not looked at, and the head stays before the first end mark, the tenth token of the row. -/
theorem parse_byPosition_wordBehind :
    wordBehind = operatorLast.dropLast ++ .plain .endMark "" 1 :: [.plain .fnWord "fn" 2, .plain .endMark "" 2] ∧
      wordBehind.getLast? = some (.plain .endMark "" 2) ∧ parse wordBehind = parse operatorLast ∧
      ∃ p h, outcome (Walk.program wordBehind 13) .start = (.ok p, h) ∧ h.pos = 9 ∧ ∀ i ∈ h.seen, i ≤ 9 := by
  obtain ⟨hconfined, hbehind⟩ := parse_byPosition wordBehind 0
  refine ⟨rfl, rfl, hbehind operatorLast.dropLast _ _ _ rfl rfl rfl rfl, ?_⟩
  obtain ⟨p, h, hrun⟩ := exists_gives_of_isOk (x := Walk.program wordBehind 13) (s := .start) (by decide +kernel)
  have hrun' : outcome (Walk.program wordBehind (wordBehind.length + 1 + 0)) .start = (.ok p, h) := hrun
  rw [hrun'] at hconfined
  exact ⟨p, h, hrun, hconfined.atEnd p rfl, fun i hi => (hconfined.seen i hi).2⟩

end SsaCompiler
