import SsaCompiler.Proofs.Lang.Program.Joining
import SsaCompiler.Proofs.Lang.Token.Joining
import SsaCompiler.Proofs.Parsing

/-!
# Joined sources

Two texts that are programs, with a newline between them, are the program of the declarations of both:

    s₁ spells p₁ → s₂ spells p₂ → s₁ ++ "\n" ++ s₂ spells p₁ and then p₂ as many lines further down as s₁ has,
                                                                                                    (parse_joined)

whatever the first text ends with: its tokens end where the newline stands (`Lexes.join`), and no declaration
reaches over the last of them (`ofTokens_join`).
-/

namespace SsaCompiler

open Lang

theorem lexes_of_gives {source : String} {tokens : List Token} {journal journal' : Journal}
    (h : Gives (tokenize source) journal tokens journal') : Lexes [] source.toList tokens := by
  refine Source.lexes_of_tokens rfl (s := .ofText source) ?_
  unfold Gives tokenize scan at h
  cases hscan : (Source.ofText source).tokens with
  | error e =>
    rw [hscan] at h
    cases h
  | ok ts =>
    rw [hscan] at h
    cases h
    rfl

theorem gives_tokenize {source : String} {tokens : List Token} (h : Lexes [] source.toList tokens)
    (journal : Journal) : Gives (tokenize source) journal tokens journal := by
  have hscan : scan source = .ok tokens := Source.tokens_of_lexes h
  unfold Gives tokenize
  rw [hscan]
  rfl

/-- Reading a text as a program depends on its tokens alone. -/
theorem gives_tokenize_parse_iff {source : String} {p : Program} {journal : Journal} :
    (∃ journal', Gives (tokenize source >>= parse) journal p journal') ↔
      ∃ tokens, Lexes [] source.toList tokens ∧ Program.ofTokens tokens = .ok p := by
  constructor
  · rintro ⟨journal', h⟩
    obtain ⟨tokens, journal₁, htokens, hparse⟩ := gives_bind_iff.mp h
    exact ⟨tokens, lexes_of_gives htokens, ofTokens_of_gives hparse⟩
  · rintro ⟨tokens, hlexes, hread⟩
    obtain ⟨journal', hparse, -⟩ := gives_parse hread journal
    exact ⟨journal', (gives_tokenize hlexes journal).bind hparse⟩

/-- **Joining two sources joins their programs.**  The declarations of the second are as many lines further down
as the first has. -/
theorem parse_joined {s₁ s₂ : String} {p₁ p₂ : Program} {j₁ j₁' j₂ j₂' : Journal}
    (h₁ : Gives (tokenize s₁ >>= parse) j₁ p₁ j₁') (h₂ : Gives (tokenize s₂ >>= parse) j₂ p₂ j₂')
    (journal : Journal) :
    ∃ journal', Gives (tokenize (s₁ ++ "\n" ++ s₂) >>= parse) journal
      (p₁.append (p₂.later (1 + s₁.toList.count '\n'))) journal' := by
  obtain ⟨ts₁, hlexes₁, hread₁⟩ := gives_tokenize_parse_iff.mp ⟨j₁', h₁⟩
  obtain ⟨ts₂, hlexes₂, hread₂⟩ := gives_tokenize_parse_iff.mp ⟨j₂', h₂⟩
  obtain ⟨us₁, eof₁, rfl, hus₁, heof₁, hjoin⟩ := hlexes₁.join
  obtain ⟨us₂, eof₂, rfl, hus₂, heof₂, -⟩ := hlexes₂.join
  have hlater : Lexes ([] ++ s₁.toList ++ ['\n']) s₂.toList
      ((us₂ ++ [eof₂]).map (·.later (1 + s₁.toList.count '\n'))) := by
    refine hlexes₂.later ?_
    simp [lineAt]
    omega
  have hjoined := hjoin _ _ hlater
  refine gives_tokenize_parse_iff.mpr ⟨_, ?_, ofTokens_join hus₁ heof₁ hus₂ heof₂ hread₁ hread₂ _⟩
  simpa using hjoined

/-- A text of two lines that ends in a line comment. -/
def commented : String := "fn extern puts(s : i8*) -> i32;\nlet a : i32 = 1; // one"

def afterComment : String := "fn f() -> i32 \x7b\n  puts(\"f\");\n  return a;\n\x7d"

/-- The comment ends with its line, and the functions are then on the lines 1 and 3. -/
theorem parse_joined_commented :
    ∃ p₁ p₂ j₁ j₂ j, Gives (tokenize commented >>= parse) .empty p₁ j₁ ∧
      Gives (tokenize afterComment >>= parse) .empty p₂ j₂ ∧
      Gives (tokenize (commented ++ "\n" ++ afterComment) >>= parse) .empty
        (p₁.append (p₂.later (1 + commented.toList.count '\n'))) j ∧
      (p₁.append (p₂.later (1 + commented.toList.count '\n'))).functions.map (·.line) = [1, 3] := by
  obtain ⟨p₁, j₁, h₁⟩ := exists_gives_of_isOk (x := tokenize commented >>= parse) (s := .empty) (by decide +kernel)
  obtain ⟨p₂, j₂, h₂⟩ := exists_gives_of_isOk (x := tokenize afterComment >>= parse) (s := .empty) (by decide +kernel)
  obtain ⟨j, h⟩ := parse_joined h₁ h₂ .empty
  have hlines : ((outcome (tokenize (commented ++ "\n" ++ afterComment) >>= parse) .empty).1.toOption.map
      fun p => p.functions.map (·.line)) = some [1, 3] := by decide +kernel
  unfold Gives at h
  rw [h] at hlines
  exact ⟨p₁, p₂, j₁, j₂, j, h₁, h₂, h, Option.some.inj hlines⟩

end SsaCompiler
