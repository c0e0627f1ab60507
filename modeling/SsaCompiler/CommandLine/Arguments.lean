import SsaCompiler.Journal

/-!
# Arguments

What the arguments of a run ask for.  `Setting.ofArguments` splits the arguments into settings, one
for each file or option in the order given, and `Request.ofSettings` takes the settings one by one:
the first that ends the run decides, and otherwise they are the options of a compilation.

    Request.ofArguments args = Request.ofSettings {} (Setting.ofArguments args)

An option stands at most once, and `--` makes a file of every argument after it.
-/

namespace SsaCompiler.CommandLine

/-! ## Settings -/

/-- The options that take a value. -/
inductive Valued where
  | output | artifact | moduleName | logLevel
  deriving DecidableEq

namespace Valued

def all : List Valued :=
  [.output, .artifact, .moduleName, .logLevel]

def name : Valued → String
  | .output => "--output"
  | .artifact => "--emit"
  | .moduleName => "--module-name"
  | .logLevel => "--log-level"

def ofName? (name : String) : Option Valued :=
  all.find? (·.name = name)

end Valued

/-- One thing that the arguments say. -/
inductive Setting where
  | file (path : String)
  | valued (option : Valued) (value : String)
  | noValidate
  | version
  | help
  /-- An argument that is no option, or an option that lacks its value or has one too many. -/
  | malformed
  deriving DecidableEq

namespace Setting

/-- Whether an argument is taken for options: it begins with a dash and is more than that. -/
def isOption (argument : String) : Bool :=
  match argument.toList with
  | '-' :: _ :: _ => true
  | _ => false

/-- A long option that stands without a value. -/
def ofFlag? : String → Option Setting
  | "--no-validate" => some .noValidate
  | "--version" => some .version
  | "--help" => some .help
  | _ => none

/-- The name of a long option, and the value after its first equals sign. -/
def splitValue (argument : String) : String × Option String :=
  let letters := argument.toList
  let name := String.ofList (letters.takeWhile (· ≠ '='))
  match letters.dropWhile (· ≠ '=') with
  | [] => (name, none)
  | _ :: value => (name, some (String.ofList value))

/-- What an argument sets by itself, or the option whose value has to follow.  A short option may have
its value attached, with or without an equals sign. -/
def ofOption (argument : String) : Setting ⊕ Valued :=
  match argument.toList with
  | '-' :: '-' :: _ =>
    match splitValue argument with
    | (name, none) =>
      match ofFlag? name, Valued.ofName? name with
      | some flag, _ => .inl flag
      | none, some option => .inr option
      | none, none => .inl .malformed
    | (name, some value) =>
      match Valued.ofName? name with
      | some option => .inl (.valued option value)
      | none => .inl .malformed
  | ['-', 'o'] => .inr .output
  | '-' :: 'o' :: '=' :: value => .inl (.valued .output (String.ofList value))
  | '-' :: 'o' :: value => .inl (.valued .output (String.ofList value))
  | '-' :: 'V' :: _ => .inl .version
  | '-' :: 'h' :: _ => .inl .help
  | _ => .inl .malformed

/-- The settings of arguments in order.  The value of an option is no option itself. -/
def ofArguments : List String → List Setting
  | [] => []
  | a :: rest =>
    if a = "--" then rest.map .file
    else if isOption a then
      match ofOption a with
      | .inl s => s :: ofArguments rest
      | .inr option =>
        match rest with
        | [] => [.malformed]
        | value :: rest =>
          if isOption value then [.malformed] else .valued option value :: ofArguments rest
    else .file a :: ofArguments rest

theorem ofArguments_escape (rest : List String) :
    ofArguments ("--" :: rest) = rest.map .file := by
  simp [ofArguments]

end Setting

/-! ## Requests -/

/-- What a compilation prints. -/
inductive Artifact where
  | tokens | tree | listing
  deriving DecidableEq

def Artifact.ofText? : String → Option Artifact
  | "tokens" => some .tokens
  | "ast" => some .tree
  | "ir" => some .listing
  | _ => none

/-- The most verbose log level shown; `off` shows none. -/
def shownLevel? (text : String) : Option (Option Level) :=
  if text = "off" then some none else (Level.all.find? (·.text = text)).map some

/-- How one file is compiled. -/
structure Options where
  input : String
  output : Option String
  artifact : Artifact
  validate : Bool
  moduleName : Option String
  mostShown : Option Level
  deriving DecidableEq

/-- The options that have been set so far. -/
structure Choices where
  input : Option String := none
  output : Option String := none
  artifact : Option Artifact := none
  noValidate : Option Unit := none
  moduleName : Option String := none
  mostShown : Option (Option Level) := none

namespace Choices

/-- The value of a field that has none yet. -/
def once {α : Type} (old new : Option α) : Option (Option α) :=
  if old.isNone && new.isSome then some new else none

/-- The name of a file, which is not empty. -/
def path? (text : String) : Option String :=
  if text = "" then none else some text

/-- The choices with a value; none where the option has one already or does not take this one. -/
def setValue (c : Choices) (value : String) : Valued → Option Choices
  | .output => (once c.output (path? value)).map fun x => { c with output := x }
  | .artifact => (once c.artifact (Artifact.ofText? value)).map fun x => { c with artifact := x }
  | .moduleName => (once c.moduleName (some value)).map fun x => { c with moduleName := x }
  | .logLevel => (once c.mostShown (shownLevel? value)).map fun x => { c with mostShown := x }

def setFile (c : Choices) (path : String) : Option Choices :=
  (once c.input (path? path)).map fun x => { c with input := x }

def setNoValidate (c : Choices) : Option Choices :=
  (once c.noValidate (some ())).map fun x => { c with noValidate := x }

/-- The options of a compilation, where a file was given. -/
def options? (c : Choices) : Option Options :=
  c.input.map fun input =>
    { input
      output := c.output
      artifact := c.artifact.getD .listing
      validate := c.noValidate.isNone
      moduleName := c.moduleName
      mostShown := c.mostShown.getD (some .warn) }

end Choices

/-- What a run has to do. -/
inductive Request where
  | compile (options : Options)
  | version
  | help
  | refused
  deriving DecidableEq

namespace Request

/-- The request that settings make, where some choices have been made. -/
def ofSettings (c : Choices) : List Setting → Request
  | [] => c.options?.elim .refused .compile
  | .version :: _ => .version
  | .help :: _ => .help
  | .malformed :: _ => .refused
  | .file path :: rest => (c.setFile path).elim .refused fun c => ofSettings c rest
  | .valued option value :: rest => (c.setValue value option).elim .refused fun c => ofSettings c rest
  | .noValidate :: rest => c.setNoValidate.elim .refused fun c => ofSettings c rest

/-- The request that arguments make. -/
def ofArguments (arguments : List String) : Request :=
  ofSettings {} (Setting.ofArguments arguments)

end Request

end SsaCompiler.CommandLine
