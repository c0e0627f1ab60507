import SsaCompiler.Proofs.Lang.Later
import SsaCompiler.Proofs.Lang.Token.Scanning

/-!
# Tokens of joined texts

A newline ends whatever a text ends with: a line comment, and every spelling, as none goes on with a
newline.  So the tokens of two texts with a newline between them are those of the first without its end mark
and those of the second, on the lines where they stand then:

    Lexes before text (ts ++ [eof]) → Lexes (before ++ text ++ ['\n']) text' ts' →
      Lexes before (text ++ '\n' :: text') (ts ++ ts')                                  (lexes_join)

Where a text stands decides its lines and nothing else (`Lexes.later`).
-/

namespace SsaCompiler.Lang

/-! ## Trivia -/

/-- A comment that ends before a text ends before a longer one as well. -/
theorem Trivia.append {gap rest : List Char} (h : Trivia gap rest) (hrest : rest ≠ []) (more : List Char) :
    Trivia gap (rest ++ more) := by
  induction h with
  | nil rest => exact .nil _
  | blank hc _ ih => exact .blank hc (ih hrest)
  | @lineComment body gap rest hbody hend _ ih =>
    refine .lineComment hbody ?_ (ih hrest)
    have hne : gap ++ rest ≠ [] := by simp [hrest]
    obtain ⟨d, ds, hd⟩ := List.exists_cons_of_ne_nil hne
    rw [← List.append_assoc, hd]
    rw [hd] at hend
    exact hend
  | blockComment hbody _ ih => exact .blockComment hbody (ih hrest)

/-- Trivia at the end of a text, a newline and more trivia are trivia. -/
theorem Trivia.join {gap gap' rest : List Char} (h : Trivia gap []) (h' : Trivia gap' rest) :
    Trivia (gap ++ '\n' :: gap') rest := by
  generalize hnil : ([] : List Char) = nothing at h
  induction h with
  | nil => exact .blank (by decide) h'
  | blank hc _ ih => exact .blank hc (ih hnil)
  | @lineComment body gap nothing hbody hend _ ih =>
    subst hnil
    have hgoal := ih rfl
    rw [List.cons_append, List.cons_append, List.append_assoc]
    refine .lineComment hbody ?_ hgoal
    cases gap with
    | nil =>
      intro c hc
      simpa using hc.symm
    | cons d gap =>
      intro c hc
      exact hend c (by simpa using hc)
  | @blockComment body gap nothing hbody _ ih =>
    have hgoal := Trivia.blockComment hbody (ih hnil)
    simpa using hgoal

/-! ## Texts -/

/-- No spelling goes on with a newline. -/
theorem TokenKind.endsBefore_newline (kind : TokenKind) : kind.endsBefore '\n' := by
  cases kind <;> simp [TokenKind.endsBefore, InWord]

/-- A text further down has the same tokens, further down. -/
theorem Lexes.later {before text : List Char} {ts : List Token} (h : Lexes before text ts) {n : Nat}
    {before' : List Char} (hline : lineAt before' = lineAt before + n) : Lexes before' text (ts.map (·.later n)) := by
  induction h generalizing before' with
  | @done before gap hgap =>
    have hmark : lineAt (before' ++ gap) = lineAt (before ++ gap) + n := by
      rw [← Source.lineAt_append, ← Source.lineAt_append]
      omega
    have hdone : Lexes before' gap [_] := .done hgap
    rw [hmark] at hdone
    exact hdone
  | @token before gap word rest kind lexeme ty ts hgap hword hend _ ih =>
    have hstart : lineAt (before' ++ gap) = lineAt (before ++ gap) + n := by
      rw [← Source.lineAt_append, ← Source.lineAt_append]
      omega
    have hafter : lineAt (before' ++ gap ++ word) = lineAt (before ++ gap ++ word) + n := by
      rw [← Source.lineAt_append, ← Source.lineAt_append (before ++ gap)]
      omega
    have htoken := Lexes.token hgap hword hend (ih hafter)
    rw [hstart] at htoken
    exact htoken

/-- The trivia at the end of a text and the newline after it belong before the first token of the next. -/
theorem Lexes.afterTrivia {before gap text : List Char} {ts : List Token} (hgap : Trivia gap [])
    (h : Lexes (before ++ gap ++ ['\n']) text ts) : Lexes before (gap ++ '\n' :: text) ts := by
  generalize hbefore : before ++ gap ++ ['\n'] = start at h
  cases h with
  | done hgap' =>
    have hdone : Lexes before _ [_] := .done (hgap.join hgap')
    have heq : before ++ (gap ++ '\n' :: text) = start ++ text := by simp [← hbefore]
    rw [heq] at hdone
    exact hdone
  | @token _ gap' word rest kind lexeme ty ts hgap' hword hend h =>
    have heq : before ++ (gap ++ '\n' :: gap') = start ++ gap' := by simp [← hbefore]
    rw [← heq] at h ⊢
    have htoken := Lexes.token (hgap.join hgap') hword hend h
    simpa using htoken

/-- **The tokens of joined texts** are those of the first before its end mark, and those of the second. -/
theorem Lexes.join {before text : List Char} {ts : List Token} (h : Lexes before text ts) :
    ∃ us eof, ts = us ++ [eof] ∧ (∀ t ∈ us, t.kind ≠ .endMark) ∧ eof.kind = .endMark ∧
      ∀ text' ts', Lexes (before ++ text ++ ['\n']) text' ts' → Lexes before (text ++ '\n' :: text') (us ++ ts') := by
  induction h with
  | done hgap => exact ⟨[], _, rfl, by simp, rfl, fun text' ts' h' => h'.afterTrivia hgap⟩
  | @token before gap word rest kind lexeme ty ts hgap hword hend _ ih =>
    obtain ⟨us, eof, rfl, hus, heof, hjoin⟩ := ih
    refine ⟨_ :: us, eof, rfl, ?_, heof, ?_⟩
    · intro t ht
      rcases List.mem_cons.mp ht with rfl | ht
      · exact Source.ne_endMark_of_spelling hword
      · exact hus t ht
    · intro text' ts' h'
      have hne : word ++ rest ≠ [] := by
        obtain ⟨c, cs, rfl, -⟩ := Source.begins_spelling hword
        simp
      have hgap' := hgap.append hne ('\n' :: text')
      rw [List.append_assoc] at hgap'
      have hend' : ∀ c ∈ (rest ++ '\n' :: text').head?, kind.endsBefore c := by
        cases rest with
        | nil =>
          rintro c ⟨⟩
          exact kind.endsBefore_newline
        | cons d rest => exact hend
      have hrest := hjoin text' ts' (by simpa using h')
      have htoken := Lexes.token hgap' hword hend' hrest
      simpa using htoken

end SsaCompiler.Lang
