/-!
# Command Lines

`CommandLine.parse` reads the arguments of the command one by one:

* `-d`, `--disassemble` print the listing of what was compiled;
* `-e SOURCE`, `--eval SOURCE` compile a text instead of a file;
* `--stress-gc` collects before every allocation;
* `--gc-threshold N` sets the live objects that trigger the first collection;
* `-V`, `--version` and `-h`, `--help` answer at once;
* anything else is the one file to compile; `-` or none is standard input.

Short options can share a dash, and the last one can have its value attached, with or without
`=`; a long option can have it behind `=`. After `--` no argument is an option. An argument
that begins with a dash is never a value, `-` alone excepted.
-/

namespace LoxBytecode

/-- What can be wrong with a command line. -/
inductive ArgumentError where
  | unknown (arg : String)
  | repeated (arg : String)
  | missingValue (option : String)
  | unwantedValue (option : String)
  | invalidValue (option value : String)
  | tooManyFiles (file : String)
  | fileWithEval
deriving DecidableEq, Repr

/-- The wording of a command line error. -/
def ArgumentError.message : ArgumentError → String
  | .unknown arg => "error: unexpected argument '" ++ arg ++ "' found"
  | .repeated arg => "error: the argument '" ++ arg ++ "' cannot be used multiple times"
  | .missingValue option => "error: a value is required for '" ++ option ++ "'"
  | .unwantedValue option => "error: no value is allowed for '" ++ option ++ "'"
  | .invalidValue option value => "error: invalid value '" ++ value ++ "' for '" ++ option ++ "'"
  | .tooManyFiles file => "error: unexpected argument '" ++ file ++ "' found"
  | .fileWithEval => "error: the argument '--eval <EVAL>' cannot be used with '[FILE]'"

/-- What a command line asks to be done with a source. -/
structure Options where
  file : Option String
  /-- A source text given in place of a file. -/
  eval : Option String
  disassemble : Bool
  stress : Bool
  threshold : Option Nat
deriving DecidableEq, Repr

/-- What a command line asks for. -/
inductive Request where
  | compile (options : Options)
  | version
  | help
deriving DecidableEq, Repr

namespace CommandLine

/-- The options that take a value. -/
inductive Valued where
  | eval
  | threshold
deriving DecidableEq, Repr

/-- How a valued option is written in full. -/
def Valued.name : Valued → String
  | .eval => "--eval"
  | .threshold => "--gc-threshold"

/-- Why reading arguments ended early. -/
inductive Stop where
  | answer (request : Request)
  | reject (error : ArgumentError)
deriving DecidableEq, Repr

/-- How far the arguments have been read. -/
structure Progress where
  options : Options
  /-- The option that still waits for its value. -/
  pending : Option Valued
  /-- Whether no further argument is an option. -/
  onlyFiles : Bool
deriving DecidableEq, Repr

namespace Progress

/-- Nothing read yet. -/
def start : Progress := ⟨⟨none, none, false, false, none⟩, none, false⟩

/-- Refuse an argument that leaves an option without its value. -/
def settled (p : Progress) : Except Stop Unit :=
  match p.pending with
  | some option => .error (.reject (.missingValue option.name))
  | none => .ok ()

/-- A count: decimal digits behind an optional plus sign, below `2 ^ 64`. -/
def count? (text : String) : Option Nat :=
  let digits := match text.toList with
    | '+' :: cs => cs
    | cs => cs
  if digits.isEmpty || !digits.all Char.isDigit then none
  else
    let n := digits.foldl (fun n c => 10 * n + (c.toNat - '0'.toNat)) 0
    if n < UInt64.size then some n else none

/-- Give an option its value. -/
def setValue (p : Progress) (option : Valued) (value : String) : Except Stop Progress :=
  match option with
  | .eval =>
    if p.options.eval.isSome then .error (.reject (.repeated option.name))
    else .ok { p with options := { p.options with eval := some value }, pending := none }
  | .threshold =>
    match count? value with
    | none => .error (.reject (.invalidValue option.name value))
    | some n =>
      if p.options.threshold.isSome then .error (.reject (.repeated option.name))
      else .ok { p with options := { p.options with threshold := some n }, pending := none }

/-- Ask for the listing. -/
def setDisassemble (p : Progress) : Except Stop Progress :=
  if p.options.disassemble then .error (.reject (.repeated "--disassemble"))
  else .ok { p with options := { p.options with disassemble := true } }

/-- Ask for a collection before every allocation. -/
def setStress (p : Progress) : Except Stop Progress :=
  if p.options.stress then .error (.reject (.repeated "--stress-gc"))
  else .ok { p with options := { p.options with stress := true } }

/-- Name the file. -/
def setFile (p : Progress) (file : String) : Except Stop Progress := do
  p.settled
  if p.options.file.isSome then .error (.reject (.tooManyFiles file))
  else .ok { p with options := { p.options with file := some file } }

/-- Read the letters of short options. -/
def letters (p : Progress) : List Char → Except Stop Progress
  | [] => .ok p
  | 'd' :: cs => do (← p.setDisassemble).letters cs
  | 'e' :: [] => .ok { p with pending := some .eval }
  | 'e' :: '=' :: cs => p.setValue .eval (String.ofList cs)
  | 'e' :: c :: cs => p.setValue .eval (String.ofList (c :: cs))
  | 'V' :: _ => .error (.answer .version)
  | 'h' :: _ => .error (.answer .help)
  | c :: _ => .error (.reject (.unknown (String.ofList ['-', c])))

/-- Read a long option that stands alone. -/
def longOption (p : Progress) (name : String) : Except Stop Progress :=
  match name with
  | "disassemble" => p.setDisassemble
  | "stress-gc" => p.setStress
  | "eval" => .ok { p with pending := some .eval }
  | "gc-threshold" => .ok { p with pending := some .threshold }
  | "version" => .error (.answer .version)
  | "help" => .error (.answer .help)
  | _ => .error (.reject (.unknown ("--" ++ name)))

/-- Read a long option with a value behind `=`. -/
def longOptionWith (p : Progress) (name value : String) : Except Stop Progress :=
  match name with
  | "eval" => p.setValue .eval value
  | "gc-threshold" => p.setValue .threshold value
  | "disassemble" | "stress-gc" | "version" | "help" =>
    .error (.reject (.unwantedValue ("--" ++ name)))
  | _ => .error (.reject (.unknown ("--" ++ name)))

/-- Read one argument. -/
def step (p : Progress) (arg : String) : Except Stop Progress :=
  if p.onlyFiles then p.setFile arg
  else match arg.toList with
    | ['-', '-'] => do
      p.settled
      return { p with onlyFiles := true }
    | '-' :: '-' :: cs => do
      p.settled
      match cs.dropWhile (· != '=') with
      | [] => p.longOption (String.ofList cs)
      | _ :: value =>
        p.longOptionWith (String.ofList (cs.takeWhile (· != '='))) (String.ofList value)
    | '-' :: c :: cs => do
      p.settled
      p.letters (c :: cs)
    | _ =>
      match p.pending with
      | some option => p.setValue option arg
      | none => p.setFile arg

/-- What the arguments ask for once all of them are read. -/
def finish (p : Progress) : Except Stop Request := do
  p.settled
  if p.options.file.isSome && p.options.eval.isSome then .error (.reject .fileWithEval)
  else .ok (.compile p.options)

end Progress

/-- What a command line asks for. The first argument that answers at once or is wrong decides;
a file beside `--eval` is refused only at the end. -/
def parse (args : List String) : Except ArgumentError Request :=
  match args.foldlM Progress.step Progress.start >>= Progress.finish with
  | .ok request => .ok request
  | .error (.answer request) => .ok request
  | .error (.reject e) => .error e

end CommandLine

end LoxBytecode
