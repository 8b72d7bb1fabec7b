import LoxBytecode.Chunk
import LoxBytecode.Scope
import LoxBytecode.Token

/-!
# Diagnostics

A diagnostic says what is wrong with a source, on which line, and at which token. `Problem`
lists what the compiler can find wrong; its wording is in one place, `Problem.message`.
-/

namespace LoxBytecode

/-- Where in the token stream a diagnostic was reported. -/
inductive Location where
  /-- At a token of the source, with its lexeme. -/
  | atToken (lexeme : String)
  /-- At the end of the source. -/
  | atEnd
  /-- At a piece that is no token; the message says it all. -/
  | lexical
deriving DecidableEq, Repr

namespace Location

/-- The location of a token. -/
def ofToken (t : Token) : Location :=
  match t.kind with
  | .eof => .atEnd
  | .error => .lexical
  | _ => .atToken t.lexeme

/-- The text of a location, to stand behind the word `Error`. -/
def text : Location → String
  | .atToken lexeme => " at '" ++ lexeme ++ "'"
  | .atEnd => " at end"
  | .lexical => ""

end Location

/-- One thing wrong with a source. -/
structure Diagnostic where
  line : Nat
  location : Location
  message : String
deriving DecidableEq, Repr

namespace Diagnostic

/-- The line that shows a diagnostic. -/
def text (d : Diagnostic) : String :=
  "[line " ++ toString d.line ++ "] Error" ++ d.location.text ++ ": " ++ d.message

/-- The lines that show some diagnostics. -/
def report (ds : List Diagnostic) : String :=
  String.intercalate "\n" (ds.map text)

end Diagnostic

/-! ### Problems -/

/-- What the compiler can find wrong with a sequence of tokens. -/
inductive Problem where
  /-- Something other than the next token had to follow. -/
  | expected (what : String)
  | invalidAssignmentTarget
  | invalidNumber
  | returnFromScript
  | tooManyParameters
  | tooManyArguments
  | jumpTooLong
  | loopTooLong
  | scope (e : ScopeError)
  | chunk (e : ChunkError)
deriving DecidableEq, Repr

/-- The wording of a problem. -/
def Problem.message : Problem → String
  | .expected what => "Expect " ++ what ++ "."
  | .invalidAssignmentTarget => "Invalid assignment target."
  | .invalidNumber => "Invalid number literal."
  | .returnFromScript => "Can't return from top-level code."
  | .tooManyParameters => "Can't have more than 255 parameters."
  | .tooManyArguments => "Can't have more than 255 arguments."
  | .jumpTooLong => "Too much code to jump over."
  | .loopTooLong => "Loop body too large."
  | .scope e => e.message
  | .chunk e => e.message

end LoxBytecode
