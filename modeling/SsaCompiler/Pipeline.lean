import SsaCompiler.Lang.Token.Scan
import SsaCompiler.Lang.Program.Reading
import SsaCompiler.Lowering.Program

/-!
# From text to a module

The stages one after the other: text to tokens, tokens to a program, a program to a module.  A stage
that fails reports its error once, as a diagnostic, and no later stage runs.

    compileTokens c ts = parse ts, then lower c
    compileSource c s  = tokenize s, then compileTokens c
-/

namespace SsaCompiler

open Lang (Token Program Error)
open Ir (Module Failure)

/-- How programs are compiled. -/
structure Config where
  moduleName : String
  /-- Whether the finished module is checked against the typing rules. -/
  validate : Bool
  deriving DecidableEq

/-- The name of a module that is given none. -/
def defaultModuleName : String := "main"

def Config.default : Config :=
  { moduleName := defaultModuleName, validate := true }

/-- A stage reports to a journal, which an error or a fault leaves as far as it goes. -/
abbrev Stage := ExceptT (Failure Error) (StateM Journal)

namespace Stage

/-- The result of a stage and the journal of the run. -/
def start {α : Type} (s : Stage α) : Except (Failure Error) α × Journal :=
  ExceptT.run s .empty

def log (level : Level) (text : String) : Stage Unit :=
  modify (·.push (.record { level, text }))

/-- Ends the run with an error and reports it. -/
def fail {α : Type} (e : Error) : Stage α := do
  modify (·.push (.diagnostic { severity := .error, message := e.message, line := e.line }))
  throw (.error e)

/-- A result or an error, which is reported. -/
def ofExcept {α : Type} (x : Except Error α) : Stage α :=
  match x with
  | .ok a => pure a
  | .error e => fail e

end Stage

/-- The tokens of a text. -/
def tokenize (source : String) : Stage (List Token) :=
  Stage.ofExcept <| (Lang.scan source).mapError fun e => .lexical e.cause.message e.line

/-- The program of a row of tokens. -/
def parse (tokens : List Token) : Stage Program := do
  let p ← Stage.ofExcept <| (Program.ofTokens tokens).mapError fun e => .grammar e.cause.message e.line
  Stage.log .debug ("parsed " ++ toString p.globals.length ++ " globals and " ++
    toString p.functions.length ++ " functions")
  pure p

/-- The module of a program. -/
def lower (c : Config) (p : Program) : Stage Module := do
  match ← modifyGet (Lowering.lower p c.moduleName c.validate) with
  | .ok m => pure m
  | .error (.error e) => Stage.fail (.lowering e.cause e.line)
  | .error (.fault f) => throw (.fault f)

/-- The module of a row of tokens. -/
def compileTokens (c : Config) (tokens : List Token) : Stage Module := do
  lower c (← parse tokens)

/-- The module of a text. -/
def compileSource (c : Config) (source : String) : Stage Module := do
  let tokens ← tokenize source
  Stage.log .debug (toString tokens.length ++ " tokens")
  compileTokens c tokens

end SsaCompiler
