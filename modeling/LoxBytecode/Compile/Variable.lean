import LoxBytecode.Compile.Emit

/-!
# Variables

A variable declared outside all scopes is global: it is named by a string constant and bound
when the program runs. Inside a scope it is a local with a stack slot. `resolve` decides how a
name is read and written: a local wins over a capture, and a capture over a global.
-/

namespace LoxBytecode

/-! ### Access -/

/-- How a variable is read and written. -/
structure Access where
  read : Opcode
  write : Opcode
  operand : UInt8
deriving DecidableEq, Repr

/-- The access to a stack slot. -/
def Access.local (slot : UInt8) : Access := ⟨.getLocal, .setLocal, slot⟩

instance : Nonempty Access := ⟨.local 0⟩

/-- The access to a capture. -/
def Access.upvalue (index : UInt8) : Access := ⟨.getUpvalue, .setUpvalue, index⟩

/-- The access to a global. -/
def Access.global (name : UInt8) : Access := ⟨.getGlobal, .setGlobal, name⟩

namespace CompileM

/-! ### Scopes -/

/-- Whether declarations are global here. -/
def atTopScope : CompileM Bool := .ask .atTopScope

/-- Enter a scope. -/
def beginScope : CompileM Unit := .act .beginScope

/-- Leave a scope and remove its locals from the stack, the innermost first. A captured one
moves to its upvalue. -/
def endScope : CompileM Unit := do
  let flags ← act .endScope
  emitAll (flags.map fun captured => if captured then .closeUpvalue else .pop)

/-! ### Declarations -/

/-- Declare the name just passed, unless it is global. -/
def declareVariable : CompileM Unit := do
  unless ← atTopScope do act .declare

/-- Pass the name of a variable and declare it. The answer is its name constant if it is global
and means nothing otherwise. -/
def parseVariable (what : String) : CompileM UInt8 := do
  expect .identifier what
  declareVariable
  if ← atTopScope then nameConstant else return 0

/-- Make the variable declared last readable. -/
def markInitialized : CompileM Unit := .act .markInitialized

/-- Bind the variable declared last to the value on top of the stack. A local is that place on
the stack. -/
def defineVariable (global : UInt8) : CompileM Unit := do
  if ← atTopScope then emit .defineGlobal [global] else markInitialized

/-! ### Uses -/

/-- How the name just passed is read and written here. -/
def resolve : CompileM Access := do
  match ← ask .findLocal with
  | .ok (some slot) => return .local (← narrow slot)
  | .error e =>
    fail (.scope e)
    return .local 0
  | .ok none =>
    match ← act .findUpvalue with
    | .ok (some index) => return .upvalue (← narrow index)
    | .error e =>
      fail (.scope e)
      return .upvalue 0
    | .ok none => return .global (← nameConstant)

end CompileM

end LoxBytecode
