import SsaCompiler.Proofs.Lang.Token.Misspelling

/-!
# Calls one after the other

A source may be called again after an error, and after its end.  Whatever a call finds is the rest of the text on
its line, as if the calls before it had found no error:

    text = before ++ (s.after k).rest,  (s.after k).line = lineAt before                                 (call_at)

So every call answers by the lexical grammar.  A call that does not answer with the end mark reads something, which
leads to the end after as many calls as there are characters, and from then on nothing changes (calls_run).
-/

namespace SsaCompiler.Lang

/-- The line that an answer is placed on. -/
def answerLine : Except LexicalError Token → Nat
  | .ok t => t.line
  | .error e => e.line

/-- Whether an answer is an end mark. -/
def IsEnd (answer : Except LexicalError Token) : Prop :=
  ∃ t, answer = .ok t ∧ t.kind = .endMark

/-- An answer that is no end mark goes with something that was read. -/
theorem Answers.length_lt {before text rest : List Char} {answer : Except LexicalError Token}
    (h : Answers before text answer rest) (hend : ¬ IsEnd answer) : rest.length < text.length := by
  cases h with
  | endMark => exact absurd ⟨_, rfl, rfl⟩ hend
  | token _ hword =>
    obtain ⟨c, cs, rfl, -⟩ := Source.begins_spelling hword
    simp only [List.length_append, List.length_cons]
    omega
  | error _ hword =>
    cases hword with
    | dots hdots => rcases hdots with rfl | rfl <;> simp only [List.length_append, List.length_cons] <;> omega
    | _ =>
      simp only [List.length_append, List.length_cons]
      omega

/-- An end mark is answered at the end of the text, on its line. -/
theorem Answers.eq_of_isEnd {before text rest : List Char} {answer : Except LexicalError Token}
    (h : Answers before text answer rest) (hend : IsEnd answer) :
    rest = [] ∧ answer = .ok (.plain .endMark "" (lineAt (before ++ text))) := by
  obtain ⟨t, rfl, hkind⟩ := hend
  cases h with
  | endMark => exact ⟨rfl, rfl⟩
  | token _ hword => exact absurd hkind (Source.ne_endMark_of_spelling hword)

theorem lineAt_le_append (before more : List Char) : lineAt before ≤ lineAt (before ++ more) := by
  rw [← Source.lineAt_append]
  omega

/-- An answer is placed on a line between those that the call begins and ends on. -/
theorem Answers.line_le {before read rest : List Char} {answer : Except LexicalError Token}
    (h : Answers before (read ++ rest) answer rest) :
    lineAt before ≤ answerLine answer ∧ answerLine answer ≤ lineAt (before ++ read) := by
  generalize htext : read ++ rest = text at h
  cases h with
  | endMark =>
    rw [List.append_nil] at htext
    subst htext
    exact ⟨lineAt_le_append _ _, Nat.le_refl _⟩
  | token | error =>
    obtain rfl := List.append_cancel_right htext
    rw [← List.append_assoc]
    exact ⟨lineAt_le_append _ _, lineAt_le_append _ _⟩

namespace Source

/-- What a number of calls leaves. -/
def after (s : Source) : Nat → Source
  | 0 => s
  | k + 1 => (s.after k).next.2

theorem after_next (s : Source) (k : Nat) : s.next.2.after k = s.after (k + 1) := by
  induction k with
  | zero => rfl
  | succ k ih => rw [after, ih, ← after]

theorem results_eq (s : Source) (n : Nat) : s.results n = (List.range n).map fun k => (s.after k).next.1 := by
  induction n generalizing s with
  | zero => rfl
  | succ n ih =>
    rw [results, ih, List.range_succ_eq_map, List.map_cons, List.map_map]
    simp only [after_next]
    rfl

/-- Whether a source is what a text leaves after a part of it. -/
structure At (text before : List Char) (s : Source) : Prop where
  text_eq : text = before ++ s.rest
  line_eq : s.line = lineAt before

section At

variable {text before : List Char} {s : Source}

/-- A call keeps the place. -/
theorem At.next (h : s.At text before) :
    ∃ read, s.rest = read ++ s.next.2.rest ∧ s.next.2.At text (before ++ read) ∧
      Answers before s.rest s.next.1 s.next.2.rest := by
  obtain ⟨rest, line⟩ := s
  obtain ⟨rfl, rfl⟩ := h
  obtain ⟨read, hread, hline, hanswers⟩ := next_answers before rest
  refine ⟨read, hread, ⟨?_, hline⟩, hanswers⟩
  rw [List.append_assoc, ← hread]

theorem at_after (text : String) (k : Nat) : ∃ before, ((ofText text).after k).At text.toList before := by
  induction k with
  | zero => exact ⟨[], rfl, rfl⟩
  | succ k ih =>
    obtain ⟨before, hat⟩ := ih
    obtain ⟨read, -, hat, -⟩ := hat.next
    exact ⟨before ++ read, hat⟩

/-- At the end of the text a call answers with the end mark and leaves the source as it is. -/
theorem At.next_nil (h : s.At text before) (hrest : s.rest = []) :
    s.next = (.ok (.plain .endMark "" (lineAt text)), s) := by
  obtain ⟨rest, line⟩ := s
  obtain ⟨rfl, rfl⟩ := h
  cases hrest
  rw [next_endMark (.nil []), List.append_nil]
  rfl

/-- The end mark is reached within as many calls as there are characters. -/
theorem At.exists_isEnd (h : s.At text before) : ∃ k, k ≤ s.rest.length ∧ IsEnd (s.after k).next.1 := by
  induction hlength : s.rest.length using Nat.strongRecOn generalizing s before with
  | ind n ih =>
    by_cases hend : IsEnd s.next.1
    · exact ⟨0, Nat.zero_le _, hend⟩
    · obtain ⟨read, -, hat, hanswers⟩ := h.next
      have hlt := hanswers.length_lt hend
      obtain ⟨k, hk, hend⟩ := ih _ (hlength ▸ hlt) hat rfl
      rw [after_next] at hend
      exact ⟨k + 1, by omega, hend⟩

/-- After the end mark every call answers with it. -/
theorem At.stays (h : s.At text before) (hrest : s.rest = []) (k : Nat) :
    (s.after k).next.1 = .ok (.plain .endMark "" (lineAt text)) := by
  have hsame : s.after k = s := by
    induction k with
    | zero => rfl
    | succ k ih => rw [after, ih, h.next_nil hrest]
  rw [hsame, h.next_nil hrest]

end At

theorem after_add (s : Source) (i j : Nat) : (s.after i).after j = s.after (i + j) := by
  induction j with
  | zero => rfl
  | succ j ih =>
    rw [after, ih, ← after]
    rfl

/-- **A call after any others** answers by the lexical grammar, and keeps the place. -/
theorem call_at (text : String) (k : Nat) :
    ∃ before read, ((ofText text).after k).At text.toList before ∧
      ((ofText text).after k).rest = read ++ ((ofText text).after (k + 1)).rest ∧
      ((ofText text).after (k + 1)).At text.toList (before ++ read) ∧
      Answers before ((ofText text).after k).rest ((ofText text).after k).next.1
        ((ofText text).after (k + 1)).rest := by
  obtain ⟨before, hat⟩ := at_after text k
  obtain ⟨read, hread, hnext, hanswers⟩ := hat.next
  exact ⟨before, read, hat, hread, hnext, hanswers⟩

/-- An answer is placed between the lines that the source is at before and after the call. -/
theorem answerLine_between (text : String) (k : Nat) :
    ((ofText text).after k).line ≤ answerLine ((ofText text).after k).next.1 ∧
      answerLine ((ofText text).after k).next.1 ≤ ((ofText text).after (k + 1)).line := by
  obtain ⟨before, read, hat, hread, hnext, hanswers⟩ := call_at text k
  rw [hread] at hanswers
  rw [hat.line_eq, hnext.line_eq]
  exact hanswers.line_le

/-- The line of a source never goes back. -/
theorem line_after_le (text : String) {i j : Nat} (hij : i ≤ j) :
    ((ofText text).after i).line ≤ ((ofText text).after j).line := by
  induction hij with
  | refl => exact Nat.le_refl _
  | @step j _ ih =>
    obtain ⟨hbefore, hafter⟩ := answerLine_between text j
    exact Nat.le_trans ih (Nat.le_trans hbefore hafter)

/-! ## Runs of calls -/

/-- What calls one after the other on a text do, errors being ignored. -/
structure RunsThrough (s : Source) (text : List Char) : Prop where
  /-- Each call answers by the lexical grammar, at the part of the text that the calls before it have left: a
  token or an error is placed on the line of its first character. -/
  answers : ∀ k, ∃ before, text = before ++ (s.after k).rest ∧
    Answers before (s.after k).rest (s.after k).next.1 (s.after (k + 1)).rest
  /-- A call that does not answer with the end mark reads at least one character. -/
  reads : ∀ k, ¬ IsEnd (s.after k).next.1 → ∃ read, read ≠ [] ∧ (s.after k).rest = read ++ (s.after (k + 1)).rest
  /-- One of the first calls, one more than there are characters, answers with the end mark. -/
  ends : ∃ k, k < text.length + 1 ∧ IsEnd (s.after k).next.1
  /-- From an end mark on, every call answers with the end mark on the line of the end. -/
  stays : ∀ k, IsEnd (s.after k).next.1 → ∀ j, k ≤ j → (s.after j).next.1 = .ok (.plain .endMark "" (lineAt text))
  /-- The lines of answers never decrease. -/
  lines : ∀ i j, i ≤ j → answerLine (s.after i).next.1 ≤ answerLine (s.after j).next.1

/-- **Calls go through the text**, whatever errors there are, and stay at its end. -/
theorem calls_run (text : String) :
    (ofText text).RunsThrough text.toList ∧
      ∀ n, (ofText text).results n = (List.range n).map fun k => ((ofText text).after k).next.1 := by
  refine ⟨?_, results_eq _⟩
  constructor
  case answers =>
    intro k
    obtain ⟨before, read, hat, -, -, hanswers⟩ := call_at text k
    exact ⟨before, hat.text_eq, hanswers⟩
  case reads =>
    intro k hend
    obtain ⟨before, read, -, hread, -, hanswers⟩ := call_at text k
    refine ⟨read, ?_, hread⟩
    rintro rfl
    have hlt := hanswers.length_lt hend
    rw [hread] at hlt
    exact absurd hlt (Nat.lt_irrefl _)
  case ends =>
    obtain ⟨k, hk, hend⟩ := At.exists_isEnd (show (ofText text).At text.toList [] from ⟨rfl, rfl⟩)
    exact ⟨k, Nat.lt_succ_of_le hk, hend⟩
  case stays =>
    intro k hend j hkj
    obtain ⟨before, read, hat, -, hnext, hanswers⟩ := call_at text k
    obtain ⟨hrest, hmark⟩ := hanswers.eq_of_isEnd hend
    rw [← hat.text_eq] at hmark
    obtain rfl | hlt := Nat.eq_or_lt_of_le hkj
    · exact hmark
    · obtain ⟨i, rfl⟩ := Nat.exists_eq_add_of_le hlt
      rw [← after_add]
      exact hnext.stays hrest i
  case lines =>
    intro i j hij
    obtain rfl | hlt := Nat.eq_or_lt_of_le hij
    · exact Nat.le_refl _
    · calc answerLine ((ofText text).after i).next.1
          ≤ ((ofText text).after (i + 1)).line := (answerLine_between text i).2
        _ ≤ ((ofText text).after j).line := line_after_le text hlt
        _ ≤ answerLine ((ofText text).after j).next.1 := (answerLine_between text j).1

end Source

end SsaCompiler.Lang
