import LoxBytecode.Proofs.Session.Bounds

/-!
# Writing a Chunk

A chunk is written by appending bytes, adding constants, and overwriting the distance of a jump.
`Chunk.Logged` follows such a history, of any length and order, and keeps a log of it that the chunk
itself does not: the line that each byte was given, the constants that were written together with an
instruction that loads them, and the offsets that were overwritten. What the line table and the
loads are worth later is said in terms of that log.
-/

namespace LoxBytecode

namespace Chunk

/-! ### Histories -/

/-- A constant that was written with the instruction that loads it. -/
structure Load where
  /-- Where the instruction begins. -/
  offset : Nat
  /-- The index that was answered. -/
  index : Nat
  value : Value

/-- What was done to a chunk, in order. -/
structure Log where
  /-- The line that each byte was given when it was appended. -/
  lines : List Nat
  loads : List Load
  /-- The offsets at which two bytes were overwritten. -/
  patches : List Nat

/-- The log of a chunk that was not written yet. -/
def Log.empty : Log := ⟨[], [], []⟩

/-- A chunk that came of another one in any number of steps, with the log of these. -/
inductive Logged (c₀ : Chunk) : Log → Chunk → Prop
  | start : Logged c₀ .empty c₀
  | write {log : Log} {c : Chunk} (byte : UInt8) (line : Nat) : Logged c₀ log c →
      Logged c₀ { log with lines := log.lines ++ [line] } (c.write byte line)
  | opcode {log : Log} {c : Chunk} (op : Opcode) (line : Nat) : Logged c₀ log c →
      Logged c₀ { log with lines := log.lines ++ [line] } (c.writeInstruction op [] line)
  | addConstant {log : Log} {c : Chunk} (value : Value) : Logged c₀ log c →
      Logged c₀ log (c.addConstant value).2
  | writeConstant {log : Log} {c c' : Chunk} (value : Value) (line : Nat) {index : Nat} :
      Logged c₀ log c → c.writeConstant value line = .ok (index, c') →
        Logged c₀
          { log with
            lines := log.lines ++ List.replicate (c'.size - c.size) line
            loads := log.loads ++ [⟨c.size, index, value⟩] } c'
  | refused {log : Log} {c : Chunk} (value : Value) (line : Nat) {e : ChunkError} :
      Logged c₀ log c → c.writeConstant value line = .error e → Logged c₀ log c
  | patch16 {log : Log} {c c' : Chunk} (offset value : Nat) :
      Logged c₀ log c → c.patch16 offset value = .ok c' →
        Logged c₀ { log with patches := log.patches ++ [offset] } c'

/-! ### Steps -/

/-- The bytes of the instruction that loads the constant at an index. -/
def loadBytes (index : Nat) : List UInt8 :=
  (loadOf index).1.toByte :: (loadOf index).2

/-- A constant is written unless the pool is full, and gets the next index. -/
theorem writeConstant_eq_ok {c c' : Chunk} {value : Value} {line index : Nat} :
    c.writeConstant value line = .ok (index, c') ↔
      c.constants.size < maxConstants ∧ index = c.constants.size ∧
        c' = c.writeLoad value line := by
  rw [writeConstant, isFull]
  by_cases hfull : maxConstants ≤ c.constants.size
  · simp [hfull, Nat.not_lt.mpr hfull]
  · simp [hfull, Nat.not_le.mp hfull, eq_comm]

/-- The load of a constant is written like any bytes, behind the constant. -/
theorem writeLoad_eq (c : Chunk) (value : Value) (line : Nat) :
    c.writeLoad value line =
      (c.addConstant value).2.writeBytes (loadBytes c.constants.size) line := rfl

/-- Writing bytes makes the code as much longer. -/
theorem size_writeBytes (c : Chunk) (bytes : List UInt8) (line : Nat) :
    (c.writeBytes bytes line).size = c.size + bytes.length := by
  rw [size, code_writeBytes, Array.size_append, List.size_toArray]
  rfl

/-- A load takes as many bytes as the form that its index needs. -/
theorem size_writeLoad (c : Chunk) (value : Value) (line : Nat) :
    (c.writeLoad value line).size = c.size + (loadBytes c.constants.size).length := by
  rw [writeLoad_eq, size_writeBytes]
  rfl

/-- A byte starts a run of its own unless it has the line of the last one. -/
theorem lines_write (c : Chunk) (byte : UInt8) (line : Nat) :
    (c.write byte line).lines =
      if c.lines.back?.any (·.line == line) then c.lines else c.lines.push ⟨c.size, line⟩ := by
  simp only [write]
  split <;> rfl

/-- Filling in a distance changes no line. -/
theorem lines_patch16 {c c' : Chunk} {offset value : Nat}
    (h : c.patch16 offset value = .ok c') : c'.lines = c.lines := by
  rw [patch16] at h
  split at h <;> cases h
  rfl

end Chunk

end LoxBytecode
