import SsaCompiler.CommandLine.Run

/-!
# The program

`main` runs the command line on the files of the system.
-/

namespace SsaCompiler.CommandLine

/-- What the system says about an operation that failed. -/
def SystemError.ofFailure : IO.Error → SystemError
  | .noFileOrDirectory _ _ _ => .notFound
  | .inappropriateType _ 21 _ => .isADirectory
  | .inappropriateType _ 20 _ => .notADirectory
  | .invalidArgument _ 36 _ => .nameTooLong
  | e => .other (toString e)

/-- The files of the system. -/
def systemDisk : Disk IO where
  read path := do
    try
      return .ok (← IO.FS.readBinFile path).toList
    catch e => return .error (SystemError.ofFailure e)
  write path bytes := do
    try
      IO.FS.writeBinFile path (ByteArray.mk bytes.toArray)
      return .ok ()
    catch e => return .error (SystemError.ofFailure e)

end SsaCompiler.CommandLine

def main (arguments : List String) : IO UInt32 := do
  let outcome ← SsaCompiler.CommandLine.run SsaCompiler.CommandLine.systemDisk arguments
  (← IO.getStdout).putStr outcome.stdout
  (← IO.getStderr).putStr outcome.stderr
  return outcome.exit.toUInt32
