/-!
# Faults

Some operations are partial: a handle may name an emptied slot, an index may lie past the end
of a table, a distance may not fit its operand. Each of them answers in `Checked`, and a
`Fault` names the part that failed. Diagnostics about the source being compiled are ordinary
results and never faults: a fault means that a caller broke the operation's contract.
-/

namespace LoxBytecode

/-- The ways in which a partial operation can be applied outside its domain. -/
inductive Fault where
  /-- A string handle whose slot is empty or does not exist. -/
  | freedString
  /-- A function handle whose slot is empty or does not exist. -/
  | freedFunction
  /-- An index past the end of code or of a table. -/
  | indexOutOfBounds
  /-- Closing a scope where none is open. -/
  | noOpenScope
  /-- Finishing a function that is not nested in another one. -/
  | noEnclosingFunction
  /-- A jump whose target lies before its own operand. -/
  | misplacedJump
  /-- Removing the quotes of a text too short to hold two. -/
  | missingQuotes
  /-- A number that does not fit the byte meant for it. -/
  | wideOperand
  /-- A recursion deeper than the budget computed for it. -/
  | outOfBudget
deriving DecidableEq, Repr

/-- The message of a fault that has one: only reading a freed handle does. -/
def Fault.message? : Fault → Option String
  | .freedString => some "string was freed"
  | .freedFunction => some "function was freed"
  | _ => none

/-- The result of a partial operation. -/
abbrev Checked := Except Fault

/-- What follows a success goes on with its result. -/
@[simp] theorem ok_bind {α β : Type} (a : α) (next : α → Checked β) :
    (Except.ok a >>= next : Checked β) = next a := rfl

/-- A fault ends what it is part of. -/
@[simp] theorem error_bind {α β : Type} (fault : Fault) (next : α → Checked β) :
    (Except.error fault >>= next : Checked β) = .error fault := rfl

/-- A number as one byte, refused when it would lose its high part. -/
def narrow (n : Nat) : Checked UInt8 :=
  if n < 256 then .ok n.toUInt8 else .error .wideOperand

/-- What is not refused keeps its value. -/
theorem toNat_of_narrow {n : Nat} {b : UInt8} (h : narrow n = .ok b) : b.toNat = n := by
  rw [narrow] at h
  split at h <;> cases h
  next hlt => exact Nat.mod_eq_of_lt hlt

/-- What is refused is too wide, and nothing else is wrong with it. -/
theorem eq_wideOperand_of_narrow {n : Nat} {fault : Fault} (h : narrow n = .error fault) :
    fault = .wideOperand := by
  rw [narrow] at h
  split at h <;> cases h
  rfl

end LoxBytecode
