/-!
# Opcodes

An instruction is one opcode byte followed by its operand bytes, whose layout depends on the
opcode alone; only the captures of a closure add bytes that the opcode does not announce. The
byte of an opcode is its place in `Opcode.all`.
-/

namespace LoxBytecode

/-- The instructions of the stack machine. -/
inductive Opcode where
  /-- Push a constant, named by one byte or by three. -/
  | constant | constantLong
  | nil | true | false | pop
  | getLocal | setLocal
  | getGlobal | defineGlobal | setGlobal
  | getUpvalue | setUpvalue
  | getProperty | setProperty | delProperty
  | equal | greater | less
  | add | subtract | multiply | divide
  | not | negate | print
  /-- Jump ahead: always, or when the top of the stack is falsey, which stays there. -/
  | jump | jumpIfFalse
  /-- Jump back. -/
  | loop
  | call | closure
  /-- Move the top of the stack to a closed upvalue. -/
  | closeUpvalue
  | ret | newClass
deriving DecidableEq, Repr

/-- The layout of the operand bytes of an instruction. -/
inductive OperandFormat where
  | none
  /-- A slot, an upvalue index or an argument count. -/
  | byte
  /-- A constant index in one byte. -/
  | constantIndex
  /-- A constant index in three bytes, lowest first. -/
  | constantIndexLong
  /-- A distance ahead or back in two bytes, highest first. -/
  | jumpForward | jumpBackward
  /-- The constant index of a function in one byte, and a byte pair per upvalue. -/
  | captures
deriving DecidableEq, Repr

/-- The operand bytes of a format, the capture pairs of a closure left aside. -/
def OperandFormat.size : OperandFormat → Nat
  | .none => 0
  | .byte | .constantIndex | .captures => 1
  | .jumpForward | .jumpBackward => 2
  | .constantIndexLong => 3

namespace Opcode

/-- All opcodes in the order of their bytes. -/
def all : List Opcode :=
  [.constant, .constantLong, .nil, .true, .false, .pop, .getLocal, .setLocal, .getGlobal,
   .defineGlobal, .setGlobal, .getUpvalue, .setUpvalue, .getProperty, .setProperty,
   .delProperty, .equal, .greater, .less, .add, .subtract, .multiply, .divide, .not, .negate,
   .print, .jump, .jumpIfFalse, .loop, .call, .closure, .closeUpvalue, .ret, .newClass]

/-- The byte of an opcode. -/
def toByte (op : Opcode) : UInt8 :=
  op.ctorIdx.toUInt8

/-- The opcode of a byte, if there is one. -/
def ofByte? (byte : UInt8) : Option Opcode :=
  all[byte.toNat]?

/-- Every opcode is found again from its byte. -/
theorem ofByte?_toByte (op : Opcode) : ofByte? op.toByte = some op := by
  cases op <;> rfl

/-- The operand layout of an opcode. -/
def format : Opcode → OperandFormat
  | .constant | .getGlobal | .defineGlobal | .setGlobal | .getProperty | .setProperty
  | .delProperty | .newClass => .constantIndex
  | .constantLong => .constantIndexLong
  | .getLocal | .setLocal | .getUpvalue | .setUpvalue | .call => .byte
  | .jump | .jumpIfFalse => .jumpForward
  | .loop => .jumpBackward
  | .closure => .captures
  | .nil | .true | .false | .pop | .equal | .greater | .less | .add | .subtract | .multiply
  | .divide | .not | .negate | .print | .closeUpvalue | .ret => .none

/-- The operand bytes that an opcode announces. -/
def operandSize (op : Opcode) : Nat :=
  op.format.size

/-- The name of an opcode in a listing. -/
def mnemonic : Opcode → String
  | .constant => "OP_CONSTANT"
  | .constantLong => "OP_CONSTANT_LONG"
  | .nil => "OP_NIL"
  | .true => "OP_TRUE"
  | .false => "OP_FALSE"
  | .pop => "OP_POP"
  | .getLocal => "OP_GET_LOCAL"
  | .setLocal => "OP_SET_LOCAL"
  | .getGlobal => "OP_GET_GLOBAL"
  | .defineGlobal => "OP_DEFINE_GLOBAL"
  | .setGlobal => "OP_SET_GLOBAL"
  | .getUpvalue => "OP_GET_UPVALUE"
  | .setUpvalue => "OP_SET_UPVALUE"
  | .getProperty => "OP_GET_PROPERTY"
  | .setProperty => "OP_SET_PROPERTY"
  | .delProperty => "OP_DEL_PROPERTY"
  | .equal => "OP_EQUAL"
  | .greater => "OP_GREATER"
  | .less => "OP_LESS"
  | .add => "OP_ADD"
  | .subtract => "OP_SUBTRACT"
  | .multiply => "OP_MULTIPLY"
  | .divide => "OP_DIVIDE"
  | .not => "OP_NOT"
  | .negate => "OP_NEGATE"
  | .print => "OP_PRINT"
  | .jump => "OP_JUMP"
  | .jumpIfFalse => "OP_JUMP_IF_FALSE"
  | .loop => "OP_LOOP"
  | .call => "OP_CALL"
  | .closure => "OP_CLOSURE"
  | .closeUpvalue => "OP_CLOSE_UPVALUE"
  | .ret => "OP_RETURN"
  | .newClass => "OP_CLASS"

end Opcode

end LoxBytecode
