import LoxBytecode.CommandLine.Run

/-!
# The Command

The outer layer of the command: it reads files and standard input, and prints.
-/

namespace LoxBytecode

/-- The number of a system error. Opening a file reports it negated, reading does not. -/
def errorNumber (code : UInt32) : UInt32 :=
  if code < 0x80000000 then code else 0 - code

/-- The reason behind a failed read. -/
def readErrorOf (e : IO.Error) : ReadError :=
  match e with
  | .noFileOrDirectory .. => .notFound
  | .permissionDenied .. => .permissionDenied
  | .inappropriateType _ code _ =>
    if errorNumber code = 20 then .notADirectory else .isADirectory
  | .invalidArgument _ code _ =>
    if errorNumber code = 36 then .nameTooLong else .other (toString e)
  | _ => .other (toString e)

/-- Run a read, keeping its failure. -/
def attempt (read : IO ByteArray) : IO (Except ReadError ByteArray) := do
  try return .ok (← read) catch e => return .error (readErrorOf e)

/-- Everything on standard input. -/
def readInput : IO (Except ReadError ByteArray) := do
  attempt (← IO.getStdin).readBinToEnd

/-- The contents of a file. -/
def readFile (path : String) : IO (Except ReadError ByteArray) :=
  attempt (IO.FS.readBinFile path)

end LoxBytecode

/-- Compile the source that the arguments name. -/
def main (args : List String) : IO UInt32 := do
  let output ← LoxBytecode.CommandLine.run LoxBytecode.readFile LoxBytecode.readInput args
  (← IO.getStdout).putStr output.stdout
  (← IO.getStderr).putStr output.stderr
  return output.exit
