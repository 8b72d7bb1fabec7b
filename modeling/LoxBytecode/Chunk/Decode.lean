import LoxBytecode.Chunk

/-!
# Decoding

`Chunk.decode` reads one instruction of a chunk. It looks at the operand bytes only after it
has found that they lie inside the code, so it answers for every offset inside the code,
whatever the bytes are: `decode_isOk`.
-/

namespace LoxBytecode

/-- The operand of an instruction, read according to its format. -/
inductive Operand where
  | none
  | byte (value : UInt8)
  | constant (index : Nat)
  | ahead (distance : Nat)
  | back (distance : Nat)
  | captures (index : Nat)
deriving DecidableEq, Repr

/-- What lies at an offset of a chunk. -/
inductive Decoded where
  /-- A byte that is no opcode. -/
  | unknown (byte : UInt8)
  /-- An opcode whose operand bytes are cut off by the end of the code. -/
  | truncated (op : Opcode)
  /-- An instruction, and the offset behind the operand bytes that its opcode announces. -/
  | instruction (op : Opcode) (operand : Operand) (next : Nat)
deriving DecidableEq, Repr

namespace Chunk

/-- Read an operand. -/
def readOperand (c : Chunk) (offset : Nat) : OperandFormat → Checked Operand
  | .none => .ok .none
  | .byte => (c.byteAt offset).map .byte
  | .constantIndex => (c.byteAt offset).map (.constant ·.toNat)
  | .constantIndexLong => (c.read24 offset).map .constant
  | .jumpForward => (c.read16 offset).map .ahead
  | .jumpBackward => (c.read16 offset).map .back
  | .captures => (c.byteAt offset).map (.captures ·.toNat)

/-- Read the instruction at an offset. -/
def decode (c : Chunk) (offset : Nat) : Checked Decoded := do
  let byte ← c.byteAt offset
  match Opcode.ofByte? byte with
  | none => return .unknown byte
  | some op =>
    let next := offset + 1 + op.operandSize
    if c.size < next then return .truncated op
    else return .instruction op (← c.readOperand (offset + 1) op.format) next

/-! ### Reading inside the code -/

/-- A byte within the code can be read. -/
theorem byteAt_eq_ok {c : Chunk} {offset : Nat} (h : offset < c.size) :
    c.byteAt offset = .ok c.code[offset] := by
  simp [byteAt, Array.getElem?_eq_getElem h]

/-- Two bytes within the code can be read as a number. -/
theorem read16_isOk {c : Chunk} {offset : Nat} (h : offset + 2 ≤ c.size) :
    ∃ value, c.read16 offset = .ok value := by
  rw [read16, byteAt_eq_ok (by omega), byteAt_eq_ok (by omega)]
  exact ⟨_, rfl⟩

/-- Three bytes within the code can be read as a number. -/
theorem read24_isOk {c : Chunk} {offset : Nat} (h : offset + 3 ≤ c.size) :
    ∃ value, c.read24 offset = .ok value := by
  rw [read24, byteAt_eq_ok (by omega), byteAt_eq_ok (by omega), byteAt_eq_ok (by omega)]
  exact ⟨_, rfl⟩

/-- An operand that lies inside the code can be read. -/
theorem readOperand_isOk {c : Chunk} {offset : Nat} {format : OperandFormat}
    (h : offset + format.size ≤ c.size) : ∃ operand, c.readOperand offset format = .ok operand := by
  cases format <;> simp only [OperandFormat.size] at h <;> simp only [readOperand]
  case none => exact ⟨_, rfl⟩
  case byte | constantIndex | captures =>
    rw [byteAt_eq_ok (by omega)]
    exact ⟨_, rfl⟩
  case constantIndexLong =>
    obtain ⟨value, found⟩ := read24_isOk h
    rw [found]
    exact ⟨_, rfl⟩
  case jumpForward | jumpBackward =>
    obtain ⟨value, found⟩ := read16_isOk h
    rw [found]
    exact ⟨_, rfl⟩

/-- Every offset inside the code can be decoded. -/
theorem decode_isOk {c : Chunk} {offset : Nat} (h : offset < c.size) :
    ∃ decoded, c.decode offset = .ok decoded := by
  simp only [decode, byteAt_eq_ok h, bind, Except.bind]
  cases Opcode.ofByte? c.code[offset] with
  | none => exact ⟨_, rfl⟩
  | some op =>
    by_cases cut : c.size < offset + 1 + op.operandSize
    · simp only [cut, if_true]
      exact ⟨_, rfl⟩
    · have inside : offset + 1 + op.format.size ≤ c.size := by
        simp only [Opcode.operandSize] at cut
        omega
      obtain ⟨operand, found⟩ := readOperand_isOk inside
      simp only [cut, if_false, found]
      exact ⟨_, rfl⟩

end Chunk

end LoxBytecode
