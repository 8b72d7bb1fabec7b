import LoxBytecode.CommandLine
import LoxBytecode.CommandLine.ReadError
import LoxBytecode.Compile
import LoxBytecode.Listing

/-!
# Running the Command

`CommandLine.run` carries out a command line. It reads files and standard input through two
actions of any monad, so that it is the same function in a program and on given contents.
-/

namespace LoxBytecode

/-- What a command leaves behind. -/
structure Output where
  exit : UInt32
  stdout : String
  stderr : String
deriving DecidableEq, Repr

namespace Output

/-- Success. -/
def success (stdout : String) : Output := ⟨0, stdout, ""⟩

/-- A command line that is not understood. -/
def usage (e : ArgumentError) : Output := ⟨2, "", e.message ++ "\n"⟩

/-- A source that does not compile: one line per diagnostic. -/
def diagnostics (ds : List Diagnostic) : Output :=
  ⟨65, "", String.join (ds.map fun d => d.text ++ "\n")⟩

/-- A broken contract inside the command itself. -/
def internal : Output := ⟨70, "", "loxide: internal error\n"⟩

/-- A source that cannot be read. -/
def unreadable (name : String) (e : ReadError) : Output :=
  ⟨74, "", "loxide: cannot read " ++ name ++ ": " ++ e.message ++ "\n"⟩

end Output

namespace Options

/-- The heap that the options ask for. -/
def heapConfig (o : Options) : HeapConfig :=
  { HeapConfig.standard with
    stress := o.stress
    initialThreshold := o.threshold.getD HeapConfig.standard.initialThreshold }

/-- Compile a source text as the options ask. -/
def runSource (o : Options) (source : String) : Output :=
  match compile source (Heap.ofConfig o.heapConfig) [] with
  | .error _ => .internal
  | .ok ⟨.error ds, _⟩ => .diagnostics ds
  | .ok ⟨.ok script, heap⟩ =>
    if o.disassemble then
      match listing heap script with
      | .ok text => .success text
      | .error _ => .internal
    else .success ""

/-- Compile the contents of a source that was read under a name. -/
def runBytes (o : Options) (name : String) : Except ReadError ByteArray → Output
  | .error e => .unreadable name e
  | .ok bytes =>
    match String.fromUTF8? bytes with
    | some source => o.runSource source
    | none => .unreadable name .invalidUtf8

end Options

namespace CommandLine

/-- The name and version of the command. -/
def version : String := "loxide 0.1.0\n"

/-- What the command can do. -/
def help : String :=
  "Compile Lox source to bytecode\n\n" ++
  "Usage: loxide [OPTIONS] [FILE]\n\n" ++
  "Arguments:\n" ++
  "  [FILE]  Script to compile (- or omitted reads stdin)\n\n" ++
  "Options:\n" ++
  "  -e, --eval <EVAL>       Compile a source string instead of a file\n" ++
  "  -d, --disassemble       Print the bytecode listing after a successful compile\n" ++
  "      --stress-gc         Collect garbage before every allocation\n" ++
  "      --gc-threshold <N>  Live object count that triggers the first collection\n" ++
  "  -h, --help              Print help\n" ++
  "  -V, --version           Print version\n"

/-- Carry out a command line. -/
def run {m : Type → Type} [Monad m] (readFile : String → m (Except ReadError ByteArray))
    (readInput : m (Except ReadError ByteArray)) (args : List String) : m Output := do
  match parse args with
  | .error e => return .usage e
  | .ok .version => return .success version
  | .ok .help => return .success help
  | .ok (.compile o) =>
    match o.eval, o.file with
    | some source, _ => return o.runSource source
    | none, some "-" | none, none => return o.runBytes "stdin" (← readInput)
    | none, some path => return o.runBytes path (← readFile path)

end CommandLine

end LoxBytecode
