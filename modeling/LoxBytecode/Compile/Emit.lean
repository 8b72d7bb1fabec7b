import LoxBytecode.Compile.Action

/-!
# Tokens and Code

The compilations that all others are made of. Moving through the tokens, `accept` passes one
that may be there and `expect` one that has to be; `synchronize` skips to where a statement can
begin. Every instruction is written at once, opcode and operands, except that a jump ahead is
written before its distance is known: `emitJump` leaves room and answers where, and `patchJump`
fills in the distance to the end of the code.
-/

namespace LoxBytecode

namespace CompileM

/-- The compilation that ends with a fault. -/
def fault {α : Type} (f : Fault) : CompileM α := .done (.error f)

/-! ### Queries -/

/-- The kind of the current token. -/
def currentKind : CompileM TokenKind := .ask .currentKind

/-- The kind of the token just passed. -/
def previousKind : CompileM TokenKind := .ask .previousKind

/-- Whether diagnostics are being dropped. -/
def isRecovering : CompileM Bool := .ask .recovering

/-- The length of the code being written. -/
def codeSize : CompileM Nat := .ask .codeSize

/-! ### Diagnostics -/

/-- Report a problem at the token just passed. -/
def fail (problem : Problem) : CompileM Unit := .act (.fail problem)

/-- Report a problem at the current token. -/
def failHere (problem : Problem) : CompileM Unit := .act (.failHere problem)

/-! ### Tokens -/

/-- Move on by one token. -/
def advance : CompileM Unit := .act .advance

/-- Whether the current token has a kind. -/
def nextIs (kind : TokenKind) : CompileM Bool :=
  return (← currentKind) == kind

/-- Move past the current token if it has a kind; whether it had. -/
def accept (kind : TokenKind) : CompileM Bool := do
  if ← nextIs kind then
    advance
    return true
  else return false

/-- Move past a token that may only stand where `allowed` holds; whether there was one. -/
def acceptIf (allowed : Bool) (kind : TokenKind) : CompileM Bool :=
  if allowed then accept kind else return false

/-- Move past a token that has to be there. -/
def expect (kind : TokenKind) (what : String) : CompileM Unit := do
  if ← nextIs kind then advance else failHere (.expected what)

/-- Skip until a statement can begin: behind a semicolon, in front of a word that begins one,
or at the end of the source. -/
def skipToStatement : Nat → CompileM Unit
  | 0 => fault .outOfBudget
  | budget + 1 => do
    let current ← currentKind
    let previous ← previousKind
    if current == .eof || previous == .semicolon || current.startsStatement then return
    advance
    skipToStatement budget

/-- Recover from a diagnostic. Diagnostics count again from the outset, so what is skipped can
have some of its own. -/
def synchronize (budget : Nat) : CompileM Unit := do
  act .resume
  skipToStatement budget

/-! ### Instructions -/

/-- Write an instruction. -/
def emit (op : Opcode) (operands : List UInt8) : CompileM Unit := .act (.emit op operands)

/-- Write instructions without operands. -/
def emitAll (ops : List Opcode) : CompileM Unit :=
  ops.forM (emit · [])

/-- Add the name just passed as a constant. -/
def nameConstant : CompileM UInt8 := .act .nameConstant

/-- Write the end of a function: the return of nil. -/
def emitReturn : CompileM Unit :=
  emitAll [.nil, .ret]

/-! ### Jumps -/

/-- Write a jump ahead with room for its distance; the offset of that room. -/
def emitJump (op : Opcode) : CompileM Nat := do
  emit op (Chunk.bytesOf16 Session.maxJump)
  return (← codeSize) - 2

/-- Let the jump whose distance belongs at an offset lead to the end of the code. -/
def patchJump (offset : Nat) : CompileM Unit := .act (.patchJump offset)

/-- Write a jump back to an offset. Its distance counts from behind its operand. -/
def emitLoop (target : Nat) : CompileM Unit := do
  let size ← codeSize
  if size < target then fault .misplacedJump
  else
    let distance := size + 3 - target
    if distance ≤ Session.maxJump then emit .loop (Chunk.bytesOf16 distance)
    else
      fail .loopTooLong
      emit .loop (Chunk.bytesOf16 Session.maxJump)

/-! ### Running them -/

variable (s : Session)

@[simp] theorem run_fault {α : Type} (f : Fault) : (fault f : CompileM α).run s = .error f := rfl

@[simp] theorem run_currentKind : currentKind.run s = .ok (s.current.kind, s) := rfl

@[simp] theorem run_previousKind : previousKind.run s = .ok (s.previous.kind, s) := rfl

@[simp] theorem run_isRecovering : isRecovering.run s = .ok (s.recovering, s) := rfl

@[simp] theorem run_codeSize : codeSize.run s = .ok (s.chunk.size, s) := rfl

@[simp] theorem run_fail (problem : Problem) :
    (fail problem).run s = .ok ((), s.fail problem) := rfl

@[simp] theorem run_failHere (problem : Problem) :
    (failHere problem).run s = .ok ((), s.failHere problem) := rfl

@[simp] theorem run_advance : advance.run s = .ok ((), s.advance) := rfl

@[simp] theorem run_nextIs (kind : TokenKind) :
    (nextIs kind).run s = .ok (s.current.kind == kind, s) := rfl

@[simp] theorem run_accept (kind : TokenKind) :
    (accept kind).run s =
      if s.current.kind = kind then .ok (true, s.advance) else .ok (false, s) := by
  simp [accept]

@[simp] theorem run_expect (kind : TokenKind) (what : String) :
    (expect kind what).run s =
      .ok ((), if s.current.kind = kind then s.advance else s.failHere (.expected what)) := by
  simp only [expect, run_bind, run_nextIs, ok_bind, run_ite, run_advance, run_failHere,
    beq_iff_eq]
  split <;> rfl

@[simp] theorem run_emit (op : Opcode) (operands : List UInt8) :
    (emit op operands).run s = .ok ((), s.emit op operands) := rfl

@[simp] theorem run_emitAll (ops : List Opcode) :
    (emitAll ops).run s = .ok ((), ops.foldl (fun s op => s.emit op []) s) := by
  induction ops generalizing s with
  | nil => rfl
  | cons op ops ih =>
    simp only [emitAll, List.forM_eq_forM, List.forM_cons, run_bind, run_emit, ok_bind] at ih ⊢
    exact ih _

@[simp] theorem run_nameConstant : nameConstant.run s = s.nameConstant := rfl

@[simp] theorem run_patchJump (offset : Nat) :
    (patchJump offset).run s = s.patchJump offset >>= fun s => .ok ((), s) := rfl

end CompileM

end LoxBytecode
