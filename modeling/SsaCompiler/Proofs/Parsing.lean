import SsaCompiler.Pipeline
import SsaCompiler.Proofs.Running
import SsaCompiler.Proofs.Lang.Program.Completeness
import SsaCompiler.Proofs.Lang.Program.Soundness

/-!
# Parsing and the grammar

    IsProgram ts p → parse (ts ++ [end mark]) gives p and reports nothing                  (parse_spelled)
    parse tokens gives p →
      tokens before the end mark spell p  ↔  no operand in them directly follows another    (parse_isProgram_iff)

The condition of the second cannot be left out: an operator is also read after both of its operands
(operatorLast_accepted).
-/

namespace SsaCompiler

open Lang

theorem gives_parse {tokens : List Token} {p : Program} (h : Program.ofTokens tokens = .ok p) (journal : Journal) :
    ∃ journal', Gives (parse tokens) journal p journal' ∧ journal'.diagnostics = journal.diagnostics := by
  refine ⟨(outcome (parse tokens) journal).2, ?_, ?_⟩
  · unfold Gives parse
    rw [h]
    rfl
  · unfold parse
    rw [h]
    exact Journal.diagnostics_push_record _ _

theorem ofTokens_of_gives {tokens : List Token} {p : Program} {journal journal' : Journal}
    (h : Gives (parse tokens) journal p journal') : Program.ofTokens tokens = .ok p := by
  unfold Gives parse at h
  cases hread : Program.ofTokens tokens with
  | error e =>
    rw [hread] at h
    cases h
  | ok q =>
    rw [hread] at h
    cases h
    rfl

/-! ## Spellings are parsed -/

/-- **Parsing reads back every program** that has dots at the end of parameters only: some tokens spell it,
and whatever tokens spell it are parsed to it, with nothing reported. -/
theorem parse_spelled {p : Program} (hp : p.DotsLast) :
    (∃ ts, IsProgram ts p) ∧
      ∀ ts, IsProgram ts p → ∀ eof : Token, eof.kind = .endMark → ∀ journal,
        ∃ journal', Gives (parse (ts ++ [eof])) journal p journal' ∧ journal'.diagnostics = journal.diagnostics :=
  ⟨exists_isProgram hp, fun _ hts _ heof journal => gives_parse (ofTokens_of_isProgram hts heof) journal⟩

/-- The program of `let x : i32 = 1 - (2) - 3 * 4;` and `fn extern printf(format : i8*, ...) -> i32;`. -/
def differenceAndPrintf : Program where
  globals :=
    [{ name := "x", ty := .int .signed .w32, line := 1,
       init :=
        .binary .sub (.binary .sub (.literal (.int .signed .w32) "1") (.literal (.int .signed .w32) "2"))
          (.binary .mul (.literal (.int .signed .w32) "3") (.literal (.int .signed .w32) "4")) }]
  functions :=
    [{ name := "printf", external := true, params := [.named "format" (Prim.pointerTo (.int .signed .w8)), .dots],
       ret := .int .signed .w32, body := none, line := 2 }]

/-- The tokens of its global. -/
def differenceTokens : List Token :=
  [.plain .letWord "let" 1, .plain .ident "x" 1, .plain .colon ":" 1,
   { kind := .typeName, lexeme := "i32", line := 1, literalType := some (.int .signed .w32) },
   .plain .equals "=" 1, .plain .intLiteral "1" 1, .plain .minus "-" 1, .plain .leftParen "(" 1,
   .plain .intLiteral "2" 1, .plain .rightParen ")" 1, .plain .minus "-" 1, .plain .intLiteral "3" 1,
   .plain .star "*" 1, .plain .intLiteral "4" 1, .plain .semicolon ";" 1]

/-- The tokens of its function. -/
def printfTokens : List Token :=
  [.plain .fnWord "fn" 2, .plain .externWord "extern" 2, .plain .ident "printf" 2, .plain .leftParen "(" 2,
   .plain .ident "format" 2, .plain .colon ":" 2,
   { kind := .typeName, lexeme := "i8", line := 2, literalType := some (.int .signed .w8) }, .plain .star "*" 2,
   .plain .comma "," 2, .plain .ellipsis "..." 2, .plain .rightParen ")" 2, .plain .arrow "->" 2,
   { kind := .typeName, lexeme := "i32", line := 2, literalType := some (.int .signed .w32) },
   .plain .semicolon ";" 2]

theorem isProgram_differenceAndPrintf : IsProgram (differenceTokens ++ printfTokens) differenceAndPrintf := by
  have literal (n : String) : IsFactor [.plain .intLiteral n 1] (.literal (.int .signed .w32) n) := .literal .int
  have hparen : IsFactor [.plain .leftParen "(" 1, .plain .intLiteral "2" 1, .plain .rightParen ")" 1] _ :=
    .paren rfl (.product (.factor (literal "2"))) rfl
  have hinit := IsSum.more (t := .plain .minus "-" 1)
    (.more (t := .plain .minus "-" 1) (.product (.factor (literal "1"))) .minus (.factor hparen)) .minus
    (.more (t := .plain .star "*" 1) (.factor (literal "3")) .star (literal "4"))
  have hdifference : IsBinding differenceTokens _ := .mk rfl (.mk rfl rfl (.base rfl rfl)) rfl hinit rfl
  have hformat : IsTyped [.plain .ident "format" 2, .plain .colon ":" 2,
      { kind := .typeName, lexeme := "i8", line := 2, literalType := some (.int .signed .w8) },
      .plain .star "*" 2] "format" (Prim.pointerTo (.int .signed .w8)) :=
    .mk rfl rfl (.pointer rfl rfl rfl (by decide))
  have hparams := IsParamList.params
    (.more (c := .plain .comma "," 2) hformat rfl (.dots (t := .plain .ellipsis "..." 2) rfl))
  have hprintf : IsFunction printfTokens _ :=
    .mk rfl (.external rfl) rfl rfl hparams rfl rfl (.base rfl rfl) (.none rfl)
  have hprogram : IsProgram (differenceTokens ++ (printfTokens ++ [])) differenceAndPrintf :=
    .global hdifference (.function hprintf .nil)
  rwa [List.append_nil] at hprogram

theorem parse_spelled_differenceAndPrintf :
    differenceAndPrintf.DotsLast ∧ IsProgram (differenceTokens ++ printfTokens) differenceAndPrintf ∧
      ∃ journal, Gives (parse (differenceTokens ++ printfTokens ++ [.plain .endMark "" 2])) .empty differenceAndPrintf
        journal ∧ journal.diagnostics = [] := by
  have hdots : differenceAndPrintf.DotsLast := by
    intro f hf
    cases List.mem_singleton.mp hf
    exact ⟨by decide, fun p hp _ => (Option.some.inj hp).symm⟩
  have hspelled := isProgram_differenceAndPrintf
  exact ⟨hdots, hspelled, (parse_spelled hdots).2 _ hspelled _ rfl .empty⟩

/-! ## What is parsed is spelled -/

/-- **What is parsed is spelled by its tokens** up to the end mark exactly if no operand in them directly
follows another. -/
theorem parse_isProgram_iff {tokens : List Token} {p : Program} {journal journal' : Journal}
    (h : Gives (parse tokens) journal p journal') :
    IsProgram (beforeEnd tokens) p ↔ (beforeEnd tokens).IsChain Separate :=
  ofTokens_isProgram_iff (ofTokens_of_gives h)

/-- The tokens of `let x : i32 = 1 2 +;`. -/
def operatorLast : List Token :=
  [.plain .letWord "let" 1, .plain .ident "x" 1, .plain .colon ":" 1,
   { kind := .typeName, lexeme := "i32", line := 1, literalType := some (.int .signed .w32) },
   .plain .equals "=" 1, .plain .intLiteral "1" 1, .plain .intLiteral "2" 1, .plain .plus "+" 1,
   .plain .semicolon ";" 1, .plain .endMark "" 1]

/-- The global that is read from them. -/
def onePlusTwo : Binding where
  name := "x"
  ty := .int .signed .w32
  init := .binary .add (.literal (.int .signed .w32) "1") (.literal (.int .signed .w32) "2")
  line := 1

theorem ofTokens_operatorLast : Program.ofTokens operatorLast = .ok { globals := [onePlusTwo], functions := [] } := by
  have hcursor : Cursor.ofTokens operatorLast = .ok ⟨operatorLast.dropLast, 1, 1⟩ := rfl
  have hread : Reader.declaration ⟨operatorLast.dropLast, 1, 1⟩ = .ok (.global onePlusTwo, ⟨[], 1, 1⟩) := rfl
  have hend : Reader.declarations ⟨[], 1, 1⟩ = .ok [] := by
    rw [Reader.declarations]
    rfl
  unfold Program.ofTokens
  rw [hcursor]
  simp only [Bind.bind, Except.bind, Reader.declarations_eq (List.cons_ne_nil _ _) hread, hend]
  rfl

/-- The two numbers are read as operands of the sum after them, though they spell no expression. -/
theorem operatorLast_accepted :
    (∃ p journal, Gives (parse operatorLast) .empty p journal) ∧ ∀ p, ¬ IsProgram (beforeEnd operatorLast) p := by
  constructor
  · obtain ⟨journal, hparse, -⟩ := gives_parse ofTokens_operatorLast .empty
    exact ⟨_, journal, hparse⟩
  · intro p h
    exact absurd (apart_program h).chain (by decide)

theorem parse_isProgram_iff_operatorLast :
    ∃ journal, Gives (parse operatorLast) .empty { globals := [onePlusTwo], functions := [] } journal ∧
      (IsProgram (beforeEnd operatorLast) { globals := [onePlusTwo], functions := [] } ↔
        (beforeEnd operatorLast).IsChain Separate) := by
  obtain ⟨journal, hparse, -⟩ := gives_parse ofTokens_operatorLast .empty
  exact ⟨journal, hparse, parse_isProgram_iff hparse⟩

end SsaCompiler
