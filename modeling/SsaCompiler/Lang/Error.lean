import SsaCompiler.Lang.Program

/-!
# Errors of the front end

Why a program cannot be compiled: its file cannot be read, its text is no row of tokens, its tokens
are no program, or the program cannot be lowered.  `Error.message` is what a diagnostic says;
`Error.text` puts the kind and the line in front of it.
-/

namespace SsaCompiler.Lang

/-- Why a program cannot be lowered. -/
inductive LoweringCause where
  | unresolvedIdentifier (name : String)
  | unresolvedCallee (name : String)
  | unsupportedGlobalInitializer (name : String)
  | unsupportedCast (source target : Prim)
  | unmappedType (ty : Prim)
  | redeclaration (name : String)
  | redefinition (name : String)
  | conflictingDeclaration (name : String)
  | invalidLiteral (ty : Prim) (text : String)
  | unsupportedOperator (op : BinaryOp) (ty : Prim)
  /-- Something without a value stands where one is needed. -/
  | voidValue (what : String)
  | argumentCount (callee : String) (expected found : Nat) (variadic : Bool)
  | argumentType (callee : String) (index : Nat) (expected found : Prim)
  | nestedBlock
  | missingReturn (name : String)
  | unreachableCode
  /-- The finished module breaks a rule of the intermediate representation. -/
  | invalidIr (message : String)
  deriving DecidableEq

def LoweringCause.message : LoweringCause → String
  | .unresolvedIdentifier name => "use of undeclared identifier '" ++ name ++ "'"
  | .unresolvedCallee name => "call to undeclared function '" ++ name ++ "'"
  | .unsupportedGlobalInitializer name =>
    "global '" ++ name ++ "' must be initialized with an integer literal"
  | .unsupportedCast source target => "cannot convert " ++ source.text ++ " to " ++ target.text
  | .unmappedType ty => "type " ++ ty.text ++ " has no IR representation"
  | .redeclaration name => "identifier '" ++ name ++ "' has been declared twice"
  | .redefinition name => "function '" ++ name ++ "' is defined more than once"
  | .conflictingDeclaration name => "function '" ++ name ++ "' is redeclared with a different signature"
  | .invalidLiteral ty text => "'" ++ text ++ "' is not a valid " ++ ty.text ++ " literal"
  | .unsupportedOperator op ty =>
    "operator '" ++ op.text ++ "' is not supported on " ++ ty.text ++ " operands"
  | .voidValue what => what ++ " cannot have type void"
  | .argumentCount callee expected found variadic =>
    "function '" ++ callee ++ "' expects " ++ (if variadic then "at least " else "") ++ toString expected ++
      " arguments, found " ++ toString found
  | .argumentType callee index expected found =>
    "argument " ++ toString (index + 1) ++ " of '" ++ callee ++ "' has type " ++ found.text ++
      ", expected " ++ expected.text
  | .nestedBlock => "nested blocks are not supported"
  | .missingReturn name => "function '" ++ name ++ "' does not end with a return"
  | .unreachableCode => "statement after return is unreachable"
  | .invalidIr message => "generated IR is invalid: " ++ message

structure LoweringError where
  cause : LoweringCause
  line : Nat
  deriving DecidableEq

inductive Error where
  /-- The source cannot be read. -/
  | io (message : String)
  | lexical (message : String) (line : Nat)
  | grammar (message : String) (line : Nat)
  | lowering (cause : LoweringCause) (line : Nat)
  deriving DecidableEq

namespace Error

/-- What a diagnostic says about the error. -/
def message : Error → String
  | .io message => message
  | .lexical message _ => message
  | .grammar message _ => message
  | .lowering cause _ => cause.message

/-- The line the error is placed at; an unreadable source has none. -/
def line : Error → Nat
  | .io _ => 0
  | .lexical _ line => line
  | .grammar _ line => line
  | .lowering _ line => line

/-- The message with the kind of error and its line. -/
def text : Error → String
  | .io message => "I/O error: " ++ message
  | .lexical message line => "Lexical error at line " ++ toString line ++ ": " ++ message
  | .grammar message line => "Syntax error at line " ++ toString line ++ ": " ++ message
  | .lowering cause line => "Lowering error at line " ++ toString line ++ ": " ++ cause.message

end Error

end SsaCompiler.Lang
