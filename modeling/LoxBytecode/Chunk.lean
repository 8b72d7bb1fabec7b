import LoxBytecode.Fault
import LoxBytecode.Opcode
import LoxBytecode.Value

/-!
# Chunks

A chunk is the compiled form of one function: its code bytes, its constant pool, and the source
line of every byte as a table of runs. A run begins where the line differs from that of the
byte before, so the table is the run-length encoding of the lines in the order of writing.
-/

namespace LoxBytecode

/-- The start of a run of bytes that share a source line. -/
structure LineRun where
  offset : Nat
  line : Nat
deriving DecidableEq, Repr, Inhabited

/-- The code of one function. -/
structure Chunk where
  code : Array UInt8
  constants : Array Value
  lines : Array LineRun
deriving DecidableEq, Repr

/-- What a chunk can refuse. -/
inductive ChunkError where
  | tooManyConstants
deriving DecidableEq, Repr

/-- The message of a chunk error. -/
def ChunkError.message : ChunkError → String
  | .tooManyConstants => "Too many constants in one chunk."

namespace Chunk

/-- The constants that three operand bytes can tell apart. -/
def maxConstants : Nat := 0x1000000

/-- The largest constant index in one operand byte. -/
def maxShortConstant : Nat := 255

/-- The chunk without code. -/
def empty : Chunk := ⟨#[], #[], #[]⟩

/-- The number of code bytes. -/
def size (c : Chunk) : Nat :=
  c.code.size

/-! ### Writing -/

/-- Append a byte produced by a source line. -/
def write (c : Chunk) (byte : UInt8) (line : Nat) : Chunk :=
  match c with
  | ⟨code, constants, lines⟩ =>
    if lines.back?.any (·.line == line) then ⟨code.push byte, constants, lines⟩
    else
      let run : LineRun := ⟨code.size, line⟩
      ⟨code.push byte, constants, lines.push run⟩

/-- Append bytes produced by one source line. -/
def writeBytes (c : Chunk) (bytes : List UInt8) (line : Nat) : Chunk :=
  bytes.foldl (fun c byte => c.write byte line) c

/-- Append an opcode and its operand bytes. -/
def writeInstruction (c : Chunk) (op : Opcode) (operands : List UInt8) (line : Nat) : Chunk :=
  (c.write op.toByte line).writeBytes operands line

/-- Append a constant, whatever the pool holds already: its index and the chunk. -/
def addConstant (c : Chunk) (value : Value) : Nat × Chunk :=
  match c with
  | ⟨code, constants, lines⟩ => (constants.size, ⟨code, constants.push value, lines⟩)

/-- The instruction that loads the constant at an index: one index byte where it suffices, and
otherwise three, lowest first. -/
def loadOf (index : Nat) : Opcode × List UInt8 :=
  if index ≤ maxShortConstant then (.constant, [index.toUInt8])
  else (.constantLong, [index.toUInt8, (index >>> 8).toUInt8, (index >>> 16).toUInt8])

/-- Whether no three-byte index is left for another constant. -/
def isFull (c : Chunk) : Bool :=
  maxConstants ≤ c.constants.size

/-- Append a constant and the instruction that loads it. -/
def writeLoad (c : Chunk) (value : Value) (line : Nat) : Chunk :=
  let (index, c) := c.addConstant value
  let (op, operands) := loadOf index
  c.writeInstruction op operands line

/-- Append a constant and the instruction that loads it, unless the pool is full: the index of
the constant and the chunk. -/
def writeConstant (c : Chunk) (value : Value) (line : Nat) : Except ChunkError (Nat × Chunk) :=
  if c.isFull then .error .tooManyConstants
  else .ok (c.constants.size, c.writeLoad value line)

/-- The two bytes of a distance, highest first. -/
def bytesOf16 (value : Nat) : List UInt8 :=
  [(value >>> 8).toUInt8, value.toUInt8]

/-- Overwrite the two bytes at an offset. -/
def patch16 (c : Chunk) (offset value : Nat) : Checked Chunk :=
  if offset + 1 < c.code.size then
    match c with
    | ⟨code, constants, lines⟩ =>
      .ok ⟨(code.setIfInBounds offset (value >>> 8).toUInt8).setIfInBounds (offset + 1)
        value.toUInt8, constants, lines⟩
  else .error .indexOutOfBounds

/-! ### Reading -/

/-- The byte at an offset. -/
def byteAt (c : Chunk) (offset : Nat) : Checked UInt8 :=
  match c.code[offset]? with
  | some byte => .ok byte
  | none => .error .indexOutOfBounds

/-- The two bytes at an offset as a number, highest first. -/
def read16 (c : Chunk) (offset : Nat) : Checked Nat := do
  let high ← c.byteAt offset
  let low ← c.byteAt (offset + 1)
  return high.toNat <<< 8 + low.toNat

/-- The three bytes at an offset as a number, lowest first. -/
def read24 (c : Chunk) (offset : Nat) : Checked Nat := do
  let low ← c.byteAt offset
  let middle ← c.byteAt (offset + 1)
  let high ← c.byteAt (offset + 2)
  return low.toNat + middle.toNat <<< 8 + high.toNat <<< 16

/-! ### Lines -/

/-- Search the runs from `lo` up to `hi` for the one that holds an offset, by halving. A run
ends where the next one begins, and the last one does not end. -/
def findLine (runs : Array LineRun) (offset lo hi : Nat) : Option Nat :=
  if lo < hi then
    let mid := lo + (hi - lo) / 2
    match runs[mid]? with
    | none => none
    | some run =>
      if offset < run.offset then findLine runs offset lo mid
      else if runs[mid + 1]?.all (offset < ·.offset) then some run.line
      else findLine runs offset (mid + 1) hi
  else none
termination_by hi - lo

/-- The source line of the byte at an offset; past the end of the code there is none. -/
def lineAt (c : Chunk) (offset : Nat) : Option Nat :=
  if offset < c.size then findLine c.lines offset 0 c.lines.size else none

end Chunk

end LoxBytecode
