import LoxBytecode.Compile.Variable
import LoxBytecode.Precedence

/-!
# Expressions

`parsePrecedence budget p` compiles an expression whose operators bind at least as tightly as
`p`: what stands at its start, and then every operator behind it that binds tightly enough.
The parts of an expression are compiled through a parameter `parse`, so that each form is a
definition of its own and only `parsePrecedence` is recursive.

The budget bounds the depth of that recursion. A level of it passes at least one token or ends
the expression, so a budget linear in the number of tokens is never used up.
-/

namespace LoxBytecode

namespace CompileM

/-! ### Forms that begin an expression -/

/-- A parenthesised expression. -/
def grouping (parse : Precedence → CompileM Unit) : CompileM Unit := do
  parse .assignment
  expect .rightParen "')' after expression"

/-- A number. -/
def numberLiteral : CompileM Unit := .act .loadNumber

/-- A string. -/
def stringLiteral : CompileM Unit := .act .loadString

/-- The instruction that a literal word stands for. -/
def literalCode : TokenKind → List Opcode
  | .falseWord => [.false]
  | .nilWord => [.nil]
  | .trueWord => [.true]
  | _ => []

/-- A literal word. -/
def literal : CompileM Unit := do
  emitAll (literalCode (← previousKind))

/-- The instruction of an operator in front of its operand. -/
def unaryCode : TokenKind → List Opcode
  | .minus => [.negate]
  | .bang => [.not]
  | _ => []

/-- An operator in front of its operand. -/
def unary (parse : Precedence → CompileM Unit) : CompileM Unit := do
  let operator ← previousKind
  parse .unary
  emitAll (unaryCode operator)

/-- A use of the variable just passed: an assignment where one may stand and `=` follows, and
otherwise a read. -/
def namedVariable (parse : Precedence → CompileM Unit) (canAssign : Bool) : CompileM Unit := do
  let access ← resolve
  if ← acceptIf canAssign .equal then
    parse .assignment
    emit access.write [access.operand]
  else emit access.read [access.operand]

/-- Compile what stands at the start of an expression; its first token has been passed. -/
def atStart (parse : Precedence → CompileM Unit) (canAssign : Bool) :
    PrefixForm → CompileM Unit
  | .grouping => grouping parse
  | .unary => unary parse
  | .identifier => namedVariable parse canAssign
  | .string => stringLiteral
  | .number => numberLiteral
  | .literal => literal

/-! ### Forms that continue an expression -/

/-- The instructions of an operator between its operands. There is no instruction for the
comparisons that are negations of another one. -/
def binaryCode : TokenKind → List Opcode
  | .bangEqual => [.equal, .not]
  | .equalEqual => [.equal]
  | .greater => [.greater]
  | .greaterEqual => [.less, .not]
  | .less => [.less]
  | .lessEqual => [.greater, .not]
  | .plus => [.add]
  | .minus => [.subtract]
  | .star => [.multiply]
  | .slash => [.divide]
  | _ => []

/-- An operator between its operands, grouping to the left. -/
def binary (parse : Precedence → CompileM Unit) : CompileM Unit := do
  let operator ← previousKind
  parse operator.rule.precedence.next
  emitAll (binaryCode operator)

/-- The arguments of a call that has some, with the count of those before: their count. -/
def arguments (parse : Precedence → CompileM Unit) : Nat → Nat → CompileM Nat
  | 0, _ => fault .outOfBudget
  | budget + 1, count => do
    parse .assignment
    if count = 255 then fail .tooManyArguments
    if ← accept .comma then arguments parse budget (count + 1) else return count + 1

/-- A call. -/
def call (parse : Precedence → CompileM Unit) (budget : Nat) : CompileM Unit := do
  let count ← if ← nextIs .rightParen then pure 0 else arguments parse budget 0
  expect .rightParen "')' after arguments"
  emit .call [← narrow (min count 255)]

/-- A property: assigned to where that may be and `=` follows, and otherwise read. -/
def dot (parse : Precedence → CompileM Unit) (canAssign : Bool) : CompileM Unit := do
  expect .identifier "property name after '.'"
  let name ← nameConstant
  if ← acceptIf canAssign .equal then
    parse .assignment
    emit .setProperty [name]
  else emit .getProperty [name]

/-- The right operand of `and` is skipped when the left one is falsey. -/
def conjunction (parse : Precedence → CompileM Unit) : CompileM Unit := do
  let endJump ← emitJump .jumpIfFalse
  emit .pop []
  parse .and
  patchJump endJump

/-- The right operand of `or` is skipped unless the left one is falsey. -/
def disjunction (parse : Precedence → CompileM Unit) : CompileM Unit := do
  let elseJump ← emitJump .jumpIfFalse
  let endJump ← emitJump .jump
  patchJump elseJump
  emit .pop []
  parse .or
  patchJump endJump

/-- Compile what stands behind an expression; its first token has been passed. -/
def behind (parse : Precedence → CompileM Unit) (budget : Nat) (canAssign : Bool) :
    InfixForm → CompileM Unit
  | .call => call parse budget
  | .dot => dot parse canAssign
  | .binary => binary parse
  | .and => conjunction parse
  | .or => disjunction parse

/-- Compile the operators behind an expression that bind at least as tightly as `p`. -/
def operators (parse : Precedence → CompileM Unit) (p : Precedence) (canAssign : Bool) :
    Nat → CompileM Unit
  | 0 => fault .outOfBudget
  | budget + 1 => do
    if p ≤ (← currentKind).rule.precedence then
      advance
      match (← previousKind).rule.behind with
      | some form => behind parse budget canAssign form
      | none => pure ()
      operators parse p canAssign budget

/-! ### Expressions -/

/-- Compile an expression whose operators bind at least as tightly as `p`. Only the weakest
level allows an assignment, and `=` behind anything but a target is reported. -/
def parsePrecedence : Nat → Precedence → CompileM Unit
  | 0, _ => fault .outOfBudget
  | budget + 1, p => do
    advance
    match (← previousKind).rule.atStart with
    | none => fail (.expected "expression")
    | some form =>
      let canAssign := decide (p ≤ .assignment)
      atStart (parsePrecedence budget) canAssign form
      operators (parsePrecedence budget) p canAssign budget
      if ← acceptIf canAssign .equal then fail .invalidAssignmentTarget

/-- Compile an expression. -/
def expression (budget : Nat) : CompileM Unit :=
  parsePrecedence budget .assignment

end CompileM

end LoxBytecode
