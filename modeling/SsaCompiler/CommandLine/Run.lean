import SsaCompiler.CommandLine.Arguments
import SsaCompiler.CommandLine.Files
import SsaCompiler.CommandLine.Path
import SsaCompiler.Lang.Program.Outline
import SsaCompiler.Lang.Token.Listing
import SsaCompiler.Ir.Listing
import SsaCompiler.Pipeline

/-!
# Runs

A run reads one file, prints one artifact of it and, where the artifact is the listing of the module,
saves that as well.  It leaves an exit code and two texts, of which the second shows the log records up
to the chosen level.

    run disk arguments        the outcome of a run, by a disk in any monad

`render` is the part between reading and printing, a stage like the others.
-/

namespace SsaCompiler.CommandLine

open Lang (Token Program)

/-- What a run leaves behind, the files apart. -/
structure Outcome where
  exit : Nat
  stdout : String
  stderr : String
  deriving DecidableEq

/-! ## Texts -/

def versionText : String :=
  "ferrule-cli 0.1.0\n"

def usage : String :=
  "Usage: ferrulec [OPTIONS] <FILE>\n"

def helpText : String :=
  "Command line driver for the ferrule compiler\n\n" ++ usage ++
  "\nArguments:\n" ++
  "  <FILE>  Source file to compile\n" ++
  "\nOptions:\n" ++
  "  -o, --output <FILE>              Where to write the IR (defaults to the input with a .fir extension)\n" ++
  "      --emit <EMIT>                Artifact printed to stdout [default: ir] [possible values: tokens, ast, ir]\n" ++
  "      --no-validate                Skip IR validation after lowering\n" ++
  "      --module-name <MODULE_NAME>  Name recorded on the module (defaults to the input file stem)\n" ++
  "      --log-level <LOG_LEVEL>      Most verbose log level shown on stderr [default: warn] " ++
    "[possible values: off, error, warn, info, debug, trace]\n" ++
  "  -h, --help                       Print help\n" ++
  "  -V, --version                    Print version\n"

def refusalText : String :=
  "error: invalid arguments\n\n" ++ usage ++ "\nFor more information, try '--help'.\n"

/-- The report that a file cannot be written. -/
def writeFailureText (path : String) (e : SystemError) : String :=
  "Error: failed to write " ++ path ++ "\n\nCaused by:\n    " ++ e.text ++ "\n"

/-- The records that a run shows. -/
def shown (most : Option Level) (rs : List Record) : String :=
  String.join ((rs.filter (Record.isShown most)).map Record.line)

/-! ## Options of a compilation -/

namespace Options

/-- The module is named after the file where no name is chosen. -/
def config (o : Options) : Config :=
  { moduleName := (o.moduleName <|> fileStem? o.input).getD defaultModuleName, validate := o.validate }

/-- Where the listing is saved: next to the source where no file is chosen. -/
def target (o : Options) : String :=
  o.output.getD (withExtension o.input "fir")

end Options

/-! ## Reading and printing -/

/-- The text of a source file, which has to be UTF-8. -/
def sourceText (path : String) (contents : Except SystemError (List UInt8)) : Stage String :=
  let failed (why : String) : Stage String := Stage.fail (.io ("Failed to read " ++ path ++ ": " ++ why))
  match contents with
  | .error e => failed e.text
  | .ok bytes =>
    match String.fromUTF8? (ByteArray.mk bytes.toArray) with
    | some source => pure source
    | none => failed "stream did not contain valid UTF-8"

/-- The listing of a module as a stage. -/
def moduleText (m : Ir.Module) : Stage String :=
  match m.listing with
  | .ok text => pure text
  | .error f => throw (.fault f)

/-- The module of a file. -/
def compileFile (c : Config) (path : String) (contents : Except SystemError (List UInt8)) : Stage Ir.Module := do
  compileSource c (← sourceText path contents)

/-- The text of the artifact that is asked for. -/
def render (o : Options) (contents : Except SystemError (List UInt8)) : Stage String := do
  match o.artifact with
  | .listing => moduleText (← compileFile o.config o.input contents)
  | .tokens => return Token.listing (← tokenize (← sourceText o.input contents))
  | .tree => return (← parse (← tokenize (← sourceText o.input contents))).outline

/-! ## Whole runs -/

/-- The exit code where the input or the output is at fault. -/
def failureCode : Nat := 1

/-- The exit code where the arguments are at fault. -/
def refusalCode : Nat := 2

/-- The exit code where an id names nothing, which no source leads to. -/
def faultCode : Nat := 101

/-- Saves the listing of a module and says so. -/
def save {m : Type → Type} [Monad m] (disk : Disk m) (o : Options) (text log : String) : m Outcome := do
  match ← disk.write o.target text.toUTF8.toList with
  | .ok () =>
    let saved : Record := { level := .info, text := "IR saved to " ++ o.target }
    return { exit := 0, stdout := text, stderr := log ++ shown o.mostShown [saved] }
  | .error e =>
    return { exit := failureCode, stdout := text, stderr := log ++ writeFailureText o.target e }

/-- Compiles one file. -/
def compile {m : Type → Type} [Monad m] (disk : Disk m) (o : Options) : m Outcome := do
  let (result, journal) := (render o (← disk.read o.input)).start
  let log := shown o.mostShown journal.asRecords
  match result with
  | .ok text =>
    if o.artifact = .listing then save disk o text log
    else return { exit := 0, stdout := text, stderr := log }
  | .error (.error _) => return { exit := failureCode, stdout := "", stderr := log }
  | .error (.fault _) => return { exit := faultCode, stdout := "", stderr := log }

/-- What a run with these arguments does. -/
def run {m : Type → Type} [Monad m] (disk : Disk m) (arguments : List String) : m Outcome :=
  match Request.ofArguments arguments with
  | .compile o => compile disk o
  | .version => return { exit := 0, stdout := versionText, stderr := "" }
  | .help => return { exit := 0, stdout := helpText, stderr := "" }
  | .refused => return { exit := refusalCode, stdout := "", stderr := refusalText }

end SsaCompiler.CommandLine
