import LoxBytecode.Chunk.Decode
import LoxBytecode.Heap

/-!
# Listings

A listing shows the code of a function, one instruction a line, and then the functions among
its constants. Each line begins with the offset of the instruction and its source line, or a
bar where the line is that of the byte before:

    == add ==
    0000    1 OP_GET_LOCAL        1
    0002    | OP_GET_LOCAL        2
    0004    | OP_ADD

Any bytes can be listed. Bytes that are no opcode, operands cut off by the end of the code and
constants that do not exist are shown as such.
-/

namespace LoxBytecode

namespace Listing

/-! ### Columns -/

/-- A text filled up with a character on the left. -/
def alignRight (fill : Char) (width : Nat) (text : String) : String :=
  String.ofList (List.replicate (width - text.length) fill) ++ text

/-- A text filled up with blanks on the right. -/
def alignLeft (width : Nat) (text : String) : String :=
  text ++ String.ofList (List.replicate (width - text.length) ' ')

/-- The column of an offset. -/
def offsetColumn (offset : Nat) : String :=
  alignRight '0' 4 (toString offset)

/-- The column of an operand. -/
def operandColumn (operand : Nat) : String :=
  alignRight ' ' 4 (toString operand)

/-- The column of an opcode that has an operand. -/
def opcodeColumn (op : Opcode) : String :=
  alignLeft 16 op.mnemonic

/-- The column of the source line: a bar where it is that of the byte before. -/
def lineColumn (c : Chunk) (offset : Nat) : String :=
  let line := c.lineAt offset
  if 0 < offset ∧ line = c.lineAt (offset - 1) then "   |"
  else match line with
    | some line => operandColumn line
    | none => "   ?"

/-! ### Instructions -/

/-- An opcode with a constant: the index and the value, or a note that there is none. -/
def constantText (h : Heap) (c : Chunk) (op : Opcode) (index : Nat) : Checked String :=
  let start := opcodeColumn op ++ " " ++ operandColumn index
  match c.constants[index]? with
  | some value => do return start ++ " '" ++ (← h.display value) ++ "'"
  | none => .ok (start ++ " <missing>")

/-- An opcode with a jump from one offset to another. -/
def jumpText (op : Opcode) (offset : Nat) (target : String) : String :=
  opcodeColumn op ++ " " ++ operandColumn offset ++ " -> " ++ target

/-- The text of an instruction behind the columns that all lines have. -/
def operandText (h : Heap) (c : Chunk) (offset : Nat) (op : Opcode) (next : Nat) :
    Operand → Checked String
  | .none => .ok op.mnemonic
  | .byte value => .ok (opcodeColumn op ++ " " ++ operandColumn value.toNat)
  | .constant index | .captures index => constantText h c op index
  | .ahead distance => .ok (jumpText op offset (toString (next + distance)))
  | .back distance =>
    .ok (jumpText op offset
      (if distance ≤ next then toString (next - distance) else "<before start>"))

/-- The number of captures that follow a closure of the constant at an index. -/
def captureCount (h : Heap) (c : Chunk) (index : Nat) : Checked Nat :=
  match c.constants[index]?.bind Value.function? with
  | some f => do return (← h.function f).upvalueCount
  | none => .ok 0

/-- The lines of some captures, and the offset behind them. -/
def captures (c : Chunk) : Nat → Nat → Checked (String × Nat)
  | 0, offset => .ok ("", offset)
  | count + 1, offset =>
    if c.size < offset + 2 then
      .ok (offsetColumn offset ++ "      | <truncated>\n", c.size)
    else do
      let kind := if (← c.byteAt offset) = 1 then "local" else "upvalue"
      let slot := (← c.byteAt (offset + 1)).toNat
      let (rest, next) ← captures c count (offset + 2)
      return (offsetColumn offset ++ "      |                     " ++ kind ++ " "
        ++ toString slot ++ "\n" ++ rest, next)

/-- The captures that follow an operand, and the offset behind them. -/
def operandCaptures (h : Heap) (c : Chunk) (next : Nat) : Operand → Checked (String × Nat)
  | .captures index => do captures c (← captureCount h c index) next
  | _ => .ok ("", next)

/-- The lines of the instruction at an offset, and the offset of the next one. -/
def instruction (h : Heap) (c : Chunk) (offset : Nat) : Checked (String × Nat) := do
  let columns := offsetColumn offset ++ " " ++ lineColumn c offset ++ " "
  match ← c.decode offset with
  | .unknown byte =>
    return (columns ++ "Unknown opcode " ++ toString byte.toNat ++ "\n", offset + 1)
  | .truncated op => return (columns ++ op.mnemonic ++ " <truncated>\n", c.size)
  | .instruction op operand next =>
    let text ← operandText h c offset op next operand
    let (rest, next) ← operandCaptures h c next operand
    return (columns ++ text ++ "\n" ++ rest, next)

/-! ### Functions -/

/-- The instructions of a chunk from an offset on, after those already found, which are held
newest first. A chunk has no more instructions than bytes. -/
def instructionsFrom (h : Heap) (c : Chunk) (found : List (String × Nat)) :
    Nat → Nat → Checked (List (String × Nat))
  | 0, _ => .ok found.reverse
  | budget + 1, offset =>
    if offset < c.size then do
      let entry ← instruction h c offset
      instructionsFrom h c (entry :: found) budget entry.2
    else .ok found.reverse

/-- The instructions of a chunk in order: their lines, and the offset behind each. -/
def instructions (h : Heap) (c : Chunk) : Checked (List (String × Nat)) :=
  instructionsFrom h c [] c.size 0

/-- The listing of a function, its own code without nested functions. -/
def own (h : Heap) (o : FunctionObject) : Checked String := do
  let name ← match o.name with
    | some name => h.string name
    | none => .ok "<script>"
  let lines ← instructions h o.chunk
  return String.join (("== " ++ name ++ " ==\n") :: lines.map (·.1))

/-- The function constants of a function. -/
def nested (o : FunctionObject) : List FunctionHandle :=
  o.chunk.constants.toList.filterMap Value.function?

/-- The listing of a function and, each after an empty line, of those nested in it, to a
depth. -/
def toDepth (h : Heap) : Nat → FunctionHandle → Checked String
  | 0, _ => .error .outOfBudget
  | depth + 1, f => do
    let o ← h.function f
    let text ← own h o
    let inner ← (nested o).mapM (toDepth h depth)
    return String.join (text :: inner.map ("\n" ++ ·))

/-- The objects of a function and of those nested in it, each before its own, to a depth. -/
def treeToDepth (h : Heap) : Nat → FunctionHandle → Checked (List FunctionObject)
  | 0, _ => .error .outOfBudget
  | depth + 1, f => do
    let o ← h.function f
    let inner ← (nested o).mapM (treeToDepth h depth)
    return o :: inner.flatten

/-- A depth that functions of a heap can only exceed by containing themselves. -/
def maxDepth (h : Heap) : Nat :=
  h.functions.slots.size + 1

/-- The objects of a function and of those nested in it, each before its own. -/
def functionTree (h : Heap) (f : FunctionHandle) : Checked (List FunctionObject) :=
  treeToDepth h (maxDepth h) f

end Listing

/-- The listing of a function and of those nested in it. -/
def listing (h : Heap) (f : FunctionHandle) : Checked String :=
  Listing.toDepth h (Listing.maxDepth h) f

end LoxBytecode
