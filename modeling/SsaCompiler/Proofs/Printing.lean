import SsaCompiler.Ir.Listing
import SsaCompiler.Proofs.Ir.Recovery
import SsaCompiler.Proofs.Joining
import SsaCompiler.Proofs.Lang.Program.Spelled
import SsaCompiler.Proofs.Lowering.Legible

/-!
# Listings of compiled modules

The listing is all that is left of a module, and nothing of the module is lost in it:

    compileSource c s₁ gives m₁, compileSource c s₂ gives m₂ → their listings are texts, and
      the texts are equal exactly if the modules are                                              (compileSource_listing)

Lines leave out types and give names for ids, and names are listed without quotes.  What they leave out is told by
the other lines where names are words and numbers are numbers (`Ir.Module.Legible.listing_inj`), and so they are in
what was read (`Lang.spelled_of_scan`, `Lang.spelled_of_ofTokens`) and lowered (`Lowering.legible_of_lower`).
-/

namespace SsaCompiler

open Ir (Module)
open Lang (Program)

/-- What the stage gives is what is lowered. -/
theorem lower_eq_ok_of_gives {c : Config} {p : Program} {journal journal' : Journal} {m : Module}
    (h : Gives (lower c p) journal m journal') : (Lowering.lower p c.moduleName c.validate journal).1 = .ok m := by
  rcases Lowering.lower_cases p c.moduleName journal with ⟨-, s, -, hlower⟩ | ⟨-, e, journal₁, -, hlower⟩
  · cases (outcome_lower_ok (hlower c.validate)).symm.trans h
    rw [hlower c.validate]
  · cases (outcome_lower_error (hlower c.validate)).symm.trans h

/-- A module that is compiled from a text is told by its listing. -/
theorem legible_of_gives {c : Config} {source : String} {journal journal' : Journal} {m : Module}
    (h : Gives (compileSource c source) journal m journal') : m.Legible ∧ m.name = c.moduleName := by
  obtain ⟨tokens, journal₁, htokens, h⟩ := gives_bind_iff.mp h
  obtain ⟨_, journal₂, -, h⟩ := gives_bind_iff.mp h
  obtain ⟨p, journal₃, hparse, hlower⟩ := gives_bind_iff.mp h
  have hspelled := Lang.spelled_of_ofTokens (lexes_of_gives htokens).spelled (ofTokens_of_gives hparse)
  exact Lowering.legible_of_lower hspelled (lower_eq_ok_of_gives hlower)

/-- **The listing determines the module.**  Modules that are compiled alike have listings, and these are equal
exactly if the modules are. -/
theorem compileSource_listing {c : Config} {s₁ s₂ : String} {m₁ m₂ : Module} {j₁ j₁' j₂ j₂' : Journal}
    (h₁ : Gives (compileSource c s₁) j₁ m₁ j₁') (h₂ : Gives (compileSource c s₂) j₂ m₂ j₂') :
    ∃ t₁ t₂, m₁.listing = .ok t₁ ∧ m₂.listing = .ok t₂ ∧ (t₁ = t₂ ↔ m₁ = m₂) := by
  obtain ⟨hlegible₁, hname₁⟩ := legible_of_gives h₁
  obtain ⟨hlegible₂, hname₂⟩ := legible_of_gives h₂
  obtain ⟨fls₁, hls₁⟩ := hlegible₁.exists_outline
  obtain ⟨fls₂, hls₂⟩ := hlegible₂.exists_outline
  refine ⟨_, _, Module.listing_eq hls₁, Module.listing_eq hls₂, fun heq => ?_, fun hm => ?_⟩
  · refine hlegible₁.listing_inj hlegible₂ (hname₁.trans hname₂.symm) ?_
    rw [Module.listing_eq hls₁, Module.listing_eq hls₂, heq]
  · subst hm
    exact Except.ok.inj ((Module.listing_eq hls₁).symm.trans (Module.listing_eq hls₂))

/-- A text whose listing is known is compiled to a module that has it. -/
theorem exists_gives_of_listing (c : Config) (source text : String)
    (h : (match (outcome (compileSource c source) .empty).1 with
      | .ok m => m.listing.toOption
      | .error _ => none) = some text) :
    ∃ m journal, Gives (compileSource c source) .empty m journal ∧ m.listing = .ok text := by
  unfold Gives
  generalize outcome (compileSource c source) .empty = result at h
  obtain ⟨_ | m, journal⟩ := result
  · cases h
  · dsimp only at h
    cases hlisting : m.listing with
    | error fault =>
      rw [hlisting] at h
      cases h
    | ok t =>
      rw [hlisting] at h
      cases h
      exact ⟨m, journal, rfl, hlisting⟩

/-- A global, a text, and a parameter that has a name. -/
def greeting : String :=
  "let n : u8 = 7;\nfn extern puts(s : i8*) -> i32;\nfn main(x : f64) -> f64 \x7b puts(\"hi\"); return x / 2.5; \x7d"

/-- The same program, with parentheses, a comment and other lines. -/
def spacedGreeting : String :=
  "let n : u8 = 7; fn extern puts(s : i8*) -> i32;\n" ++
    "fn main(x : f64) -> f64 \x7b\n  puts(\"hi\"); // hi\n  return (x) / 2.5;\n\x7d"

/-- Their listing. -/
def listedGreeting : String :=
  "; module main\n\nglobal n: i8 = 7 (export)\ndata .str.0 = \"hi\\0\"\n\nimport function puts(ptr) -> i32\n\n" ++
    "export function main(f64) -> f64 \x7b\n  ss0: f64 ; x\nblock0(x(v0): f64):\n  stack_store x(v0), ss0\n" ++
    "  v1 = data_addr .str.0\n  v2 = call puts(v1)\n  v3 = stack_load.f64 ss0\n  v4 = fconst.f64 2.5\n" ++
    "  v5 = fdiv v3, v4\n  ret v5\n\x7d\n"

/-- The two texts have one listing, and so they are compiled to one module. -/
theorem compileSource_listing_greeting :
    ∃ m₁ m₂ j₁ j₂, Gives (compileSource .default greeting) .empty m₁ j₁ ∧
      Gives (compileSource .default spacedGreeting) .empty m₂ j₂ ∧
      m₁.listing = .ok listedGreeting ∧ m₂.listing = .ok listedGreeting ∧ m₁ = m₂ := by
  obtain ⟨m₁, j₁, h₁, hm₁⟩ := exists_gives_of_listing .default greeting listedGreeting (by decide +kernel)
  obtain ⟨m₂, j₂, h₂, hm₂⟩ := exists_gives_of_listing .default spacedGreeting listedGreeting (by decide +kernel)
  obtain ⟨t₁, t₂, ht₁, ht₂, hiff⟩ := compileSource_listing h₁ h₂
  have hsame : t₁ = t₂ := by
    rw [← Except.ok.injEq (ε := Ir.Fault), ← ht₁, ← ht₂, hm₁, hm₂]
  exact ⟨m₁, m₂, j₁, j₂, h₁, h₂, hm₁, hm₂, hiff.mp hsame⟩

end SsaCompiler
