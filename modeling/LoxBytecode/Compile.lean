import LoxBytecode.Compile.Statement
import LoxBytecode.Token.Scan

/-!
# Compilation

`compile` turns a source text into a script function in a heap. It answers the script, or the
diagnostics in the order of the source, and the heap either way: a failed compilation stores
what it wrote of the script too.
-/

namespace LoxBytecode

/-- The result of compiling a source. -/
structure Compilation where
  /-- The script, or what is wrong with the source. -/
  outcome : Except (List Diagnostic) FunctionHandle
  heap : Heap

namespace Session

/-- The session at the start of a source, with the script's object made and no token read. -/
def start (tokens : TokenStream) (heap : Heap) (host : List Value) : Session :=
  let (script, heap) := heap.allocFunction host
  { host := host
    upcoming := tokens
    previous := Token.eof 1
    current := Token.eof 1
    recovering := false
    diagnostics := #[]
    functions := .ofScript (.start script .script)
    heap := heap }

/-- The depth of recursion that compiling some tokens can need. -/
def budget (tokens : TokenStream) : Nat :=
  4 * (tokens.ahead.length + 2)

/-- Store the script, which is the outermost function, and report how the session went. -/
def finish (s : Session) : Checked Compilation := do
  let script := s.functions.script
  let s ← s.store script
  if s.diagnostics.isEmpty then return ⟨.ok script.function, s.heap⟩
  else return ⟨.error s.diagnostics.toList, s.heap⟩

end Session

/-- Compile a whole script. -/
def CompileM.script (budget : Nat) : CompileM Unit := do
  advance
  declarations budget
  emitReturn

/-- Compile a sequence of tokens. -/
def compileTokens (tokens : TokenStream) (heap : Heap) (host : List Value) :
    Checked Compilation := do
  let ((), s) ← (CompileM.script (Session.budget tokens)).run (Session.start tokens heap host)
  s.finish

/-- Compile a source text into a script in a heap. What the host holds in that heap survives
every collection on the way. -/
def compile (source : String) (heap : Heap) (host : List Value) : Checked Compilation :=
  compileTokens (TokenStream.ofSource source) heap host

end LoxBytecode
