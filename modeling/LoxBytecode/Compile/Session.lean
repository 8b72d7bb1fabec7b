import LoxBytecode.Diagnostic
import LoxBytecode.Heap.Collect
import LoxBytecode.Number.Reading
import LoxBytecode.Scope.Stack

/-!
# Sessions

Compilation is one pass over the tokens: there is no syntax tree, and code is written as soon
as the tokens that ask for it are seen. A `Session` is everything that pass carries along, and
the operations here are the changes that it can make.

## Diagnostics

After a diagnostic the session is recovering: further ones are dropped, because they are likely
to follow from the first, until it resumes at the start of a statement. Writing code goes on all
the while, so that every session ends in the same way.
-/

namespace LoxBytecode

/-- The state of a compilation. -/
structure Session where
  /-- What the caller keeps alive in the same heap. -/
  host : List Value
  upcoming : TokenStream
  /-- The token just passed. -/
  previous : Token
  current : Token
  /-- Whether diagnostics are dropped. -/
  recovering : Bool
  /-- The diagnostics in the order of reporting. -/
  diagnostics : Array Diagnostic
  functions : FunctionStack
  heap : Heap

namespace Session

/-! ### Diagnostics -/

/-- Report a diagnostic at a token, unless the session is recovering. -/
def report (s : Session) (t : Token) (message : String) : Session :=
  match s with
  | ⟨host, upcoming, previous, current, recovering, diagnostics, functions, heap⟩ =>
    if recovering then
      ⟨host, upcoming, previous, current, recovering, diagnostics, functions, heap⟩
    else
      ⟨host, upcoming, previous, current, true,
        diagnostics.push ⟨t.line, Location.ofToken t, message⟩, functions, heap⟩

/-- Report a problem at the token just passed. -/
def fail (s : Session) (problem : Problem) : Session :=
  s.report s.previous problem.message

/-- Report a problem at the current token. -/
def failHere (s : Session) (problem : Problem) : Session :=
  s.report s.current problem.message

/-- Let diagnostics count again. -/
def resume (s : Session) : Session :=
  { s with recovering := false }

/-! ### Tokens -/

/-- Make the first token that is not an `error` the current one, reporting those before it. -/
def readFrom (s : Session) : List Token → Session
  | [] =>
    { s with current := Token.eof s.upcoming.endLine, upcoming := ⟨[], s.upcoming.endLine⟩ }
  | t :: ts =>
    if t.kind = .error then (s.report t t.lexeme).readFrom ts
    else { s with current := t, upcoming := ⟨ts, s.upcoming.endLine⟩ }

/-- Move on by one token. -/
def advance (s : Session) : Session :=
  { s with previous := s.current }.readFrom s.upcoming.ahead

/-! ### Code -/

/-- Change the function being compiled. -/
def modifyFunction (f : FunctionState → FunctionState) (s : Session) : Session :=
  match s with
  | ⟨host, upcoming, previous, current, recovering, diagnostics, ⟨function, enclosing⟩, heap⟩ =>
    ⟨host, upcoming, previous, current, recovering, diagnostics, ⟨f function, enclosing⟩, heap⟩

/-- The chunk being written. -/
def chunk (s : Session) : Chunk :=
  s.functions.current.chunk

/-- Change the chunk being written. -/
def modifyChunk (f : Chunk → Chunk) (s : Session) : Session :=
  s.modifyFunction fun
    | ⟨function, kind, chunk, arity, locals, upvalues, scopeDepth⟩ =>
      ⟨function, kind, f chunk, arity, locals, upvalues, scopeDepth⟩

/-- Write an instruction. All its bytes belong to the line of the token just passed. -/
def emit (s : Session) (op : Opcode) (operands : List UInt8) : Session :=
  let line := s.previous.line
  s.modifyChunk (·.writeInstruction op operands line)

/-- The largest distance that two operand bytes hold. -/
def maxJump : Nat := 0xffff

/-- Let the jump whose distance belongs at an offset lead to the end of the code. A distance
that two bytes do not hold is reported and not written. -/
def patchJump (s : Session) (offset : Nat) : Checked Session :=
  let size := s.chunk.size
  if size < offset + 2 then .error .misplacedJump
  else
    let distance := size - (offset + 2)
    if distance ≤ maxJump then
      match s with
      | ⟨host, upcoming, previous, current, recovering, diagnostics,
          ⟨⟨function, kind, chunk, arity, locals, upvalues, scopeDepth⟩, enclosing⟩, heap⟩ =>
        match chunk.patch16 offset distance with
        | .ok chunk =>
          .ok ⟨host, upcoming, previous, current, recovering, diagnostics,
            ⟨⟨function, kind, chunk, arity, locals, upvalues, scopeDepth⟩, enclosing⟩, heap⟩
        | .error fault => .error fault
    else .ok (s.fail .jumpTooLong)

/-! ### Constants -/

/-- Write the load of a constant. -/
def load (s : Session) (value : Value) : Session :=
  if s.chunk.isFull then s.fail (.chunk .tooManyConstants)
  else
    let line := s.previous.line
    s.modifyChunk (·.writeLoad value line)

/-- Add a constant for an instruction that names it by one byte. The pool keeps a constant
whose index is too large all the same. -/
def addConstant (s : Session) (value : Value) : Checked (UInt8 × Session) :=
  let index := s.chunk.constants.size
  let s := s.modifyChunk fun c => (c.addConstant value).2
  if index ≤ Chunk.maxShortConstant then do return (← narrow index, s)
  else .ok (0, s.fail (.chunk .tooManyConstants))

/-- The string object of a text. The host and every function being compiled keep their objects
through a collection. -/
def intern (s : Session) (text : String) : StringHandle × Session :=
  match s with
  | ⟨host, upcoming, previous, current, recovering, diagnostics, functions, heap⟩ =>
    let (handle, heap) := heap.intern text (host, functions)
    (handle, ⟨host, upcoming, previous, current, recovering, diagnostics, functions, heap⟩)

/-- Write the load of the number just passed. -/
def loadNumber (s : Session) : Session :=
  match Number.ofText? s.previous.lexeme with
  | some x => s.load (.number x)
  | none => s.fail .invalidNumber

/-- The text between the quotes of a string token. -/
def unquote (lexeme : String) : Checked String :=
  match lexeme.toList with
  | _ :: body@(_ :: _) => .ok (String.ofList body.dropLast)
  | _ => .error .missingQuotes

/-- Write the load of the string just passed. -/
def loadString (s : Session) : Checked Session := do
  let text ← unquote s.previous.lexeme
  let (handle, s) := s.intern text
  return s.load (.string handle)

/-- Add the name just passed as a constant. Every use adds one. -/
def nameConstant (s : Session) : Checked (UInt8 × Session) :=
  let name := s.previous.lexeme
  let (handle, s) := s.intern name
  s.addConstant (.string handle)

/-! ### Scopes -/

/-- Leave a scope: for each local that it owned, innermost first, whether it was captured, and
the session without them. -/
def endScope (s : Session) : Checked (List Bool × Session) := do
  let (flags, state) ← s.functions.current.endScope
  return (flags, s.modifyFunction fun _ => state)

/-- Declare a local with the name just passed. -/
def declare (s : Session) : Session :=
  match s.functions.current.declareLocal s.previous.lexeme with
  | .ok state => s.modifyFunction fun _ => state
  | .error e => s.fail (.scope e)

/-- The slot of the local with the name just passed, if there is one. -/
def findLocal (s : Session) : Except ScopeError (Option Nat) :=
  s.functions.current.resolveLocal s.previous.lexeme

/-- The capture of the variable of an enclosing function with the name just passed, if there is
one. -/
def findUpvalue (s : Session) : Except ScopeError (Option Nat) × Session :=
  match s with
  | ⟨host, upcoming, previous, current, recovering, diagnostics, functions, heap⟩ =>
    let (found, functions) := functions.resolveUpvalue previous.lexeme
    (found, ⟨host, upcoming, previous, current, recovering, diagnostics, functions, heap⟩)

/-! ### Functions -/

/-- Begin a function nested in the current one, still without a name. -/
def beginFunction (s : Session) : Session :=
  match s with
  | ⟨host, upcoming, previous, current, recovering, diagnostics, functions, heap⟩ =>
    let (handle, heap) := heap.allocFunction (host, functions)
    ⟨host, upcoming, previous, current, recovering, diagnostics,
      functions.push (.start handle .function), heap⟩

/-- Apply a change to the heap. -/
def changeHeap (s : Session) (change : Heap → Checked Heap) : Checked Session :=
  match s with
  | ⟨host, upcoming, previous, current, recovering, diagnostics, functions, heap⟩ =>
    match change heap with
    | .ok heap =>
      .ok ⟨host, upcoming, previous, current, recovering, diagnostics, functions, heap⟩
    | .error fault => .error fault

/-- Name the current function by the token just passed. Its object is among the functions being
compiled by now, which keeps it alive while the name is interned. -/
def nameFunction (s : Session) : Checked Session :=
  let function := s.functions.current.function
  let (name, s) := s.intern s.previous.lexeme
  s.changeHeap (·.setName function (some name))

/-- Count a parameter of the current function. -/
def countParameter (s : Session) : Session :=
  s.modifyFunction fun f => { f with arity := f.arity + 1 }

/-- Move a finished function's code and counts into its heap object. -/
def store (s : Session) (state : FunctionState) : Checked Session :=
  s.changeHeap (·.modifyFunction state.function fun o =>
    { o with
      arity := state.arity, upvalueCount := state.upvalues.length, chunk := state.chunk })

/-- End the current function, return to the one around it, and add it there as a constant: that
constant, and what the closure captures. A log reads how the function is displayed. -/
def endFunction (s : Session) : Checked ((UInt8 × List Capture) × Session) := do
  match s.functions.pop? with
  | none => throw .noEnclosingFunction
  | some (state, functions) =>
    let s ← { s with functions := functions }.store state
    let _ ← s.heap.display (.function state.function)
    let (constant, s) ← s.addConstant (.function state.function)
    return ((constant, state.upvalues), s)

end Session

end LoxBytecode
