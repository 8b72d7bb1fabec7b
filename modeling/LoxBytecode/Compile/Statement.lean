import LoxBytecode.Compile.Expression

/-!
# Statements and Declarations

`declaration budget` compiles one declaration or statement and then, after a diagnostic, skips
to the next one. As with expressions, each kind of statement takes the statements inside it as
a parameter, and only `statement`, `declaration` and the loops over several of them recurse.
-/

namespace LoxBytecode

namespace CompileM

/-! ### Simple statements -/

/-- `print expr ;` -/
def printStatement (budget : Nat) : CompileM Unit := do
  expression budget
  expect .semicolon "';' after value"
  emit .print []

/-- `del name . property ;` -/
def delStatement (budget : Nat) : CompileM Unit := do
  expect .identifier "variable name after 'del'"
  namedVariable (parsePrecedence budget) false
  expect .dot "'.' after variable name"
  expect .identifier "property name after '.'"
  let name ← nameConstant
  emit .delProperty [name]
  expect .semicolon "';' after property"

/-- `return ;` or `return expr ;`, which belong in functions only. -/
def returnStatement (budget : Nat) : CompileM Unit := do
  if (← ask .functionKind) = .script then fail .returnFromScript
  if ← accept .semicolon then emitReturn
  else
    expression budget
    expect .semicolon "';' after return value"
    emit .ret []

/-- `expr ;` -/
def expressionStatement (budget : Nat) : CompileM Unit := do
  expression budget
  expect .semicolon "';' after expression"
  emit .pop []

/-- `var name ;` or `var name = expr ;` -/
def varDeclaration (budget : Nat) : CompileM Unit := do
  let global ← parseVariable "variable name"
  if ← accept .equal then expression budget else emit .nil []
  expect .semicolon "';' after variable declaration"
  defineVariable global

/-- `class name { }` -/
def classDeclaration : CompileM Unit := do
  expect .identifier "class name"
  let name ← nameConstant
  declareVariable
  emit .newClass [name]
  defineVariable name
  expect .leftBrace "'\x7b' before class body"
  expect .rightBrace "'\x7d' after class body"

/-! ### Branches and loops -/

/-- `if ( expr ) statement`, with an optional `else statement`. The condition is popped on both
ways. -/
def ifStatement (statement : CompileM Unit) (budget : Nat) : CompileM Unit := do
  expect .leftParen "'(' after 'if'"
  expression budget
  expect .rightParen "')' after condition"
  let thenJump ← emitJump .jumpIfFalse
  emit .pop []
  statement
  let elseJump ← emitJump .jump
  patchJump thenJump
  emit .pop []
  if ← accept .elseWord then statement
  patchJump elseJump

/-- `while ( expr ) statement` -/
def whileStatement (statement : CompileM Unit) (budget : Nat) : CompileM Unit := do
  let start ← codeSize
  expect .leftParen "'(' after 'while'"
  expression budget
  expect .rightParen "')' after condition"
  let exitJump ← emitJump .jumpIfFalse
  emit .pop []
  statement
  emitLoop start
  patchJump exitJump
  emit .pop []

/-- The first clause of a `for`: nothing, a variable declaration, or an expression. -/
def forInitializer (budget : Nat) : CompileM Unit := do
  if ← accept .semicolon then pure ()
  else if ← accept .varWord then varDeclaration budget
  else expressionStatement budget

/-- The second clause of a `for`. The answer is the jump that leaves the loop, if there is a
condition. -/
def forCondition (budget : Nat) : CompileM (Option Nat) := do
  if ← accept .semicolon then return none
  else
    expression budget
    expect .semicolon "';' after loop condition"
    let exitJump ← emitJump .jumpIfFalse
    emit .pop []
    return some exitJump

/-- The last clause of a `for`. The increment is written before the body but runs behind it:
the way in jumps over it, it loops back to the condition, and the body is to loop back to it.
The answer is where the body loops back to. -/
def forIncrement (budget : Nat) (start : Nat) : CompileM Nat := do
  if ← accept .rightParen then return start
  else
    let bodyJump ← emitJump .jump
    let increment ← codeSize
    expression budget
    emit .pop []
    expect .rightParen "')' after for clauses"
    emitLoop start
    patchJump bodyJump
    return increment

/-- `for ( initializer condition ; increment ) statement`, in a scope of its own. -/
def forStatement (statement : CompileM Unit) (budget : Nat) : CompileM Unit := do
  beginScope
  expect .leftParen "'(' after 'for'"
  forInitializer budget
  let start ← codeSize
  let exitJump ← forCondition budget
  let target ← forIncrement budget start
  statement
  emitLoop target
  match exitJump with
  | some exitJump =>
    patchJump exitJump
    emit .pop []
  | none => pure ()
  endScope

/-! ### Blocks -/

/-- The declarations of a block and its closing brace; the opening one has been passed. -/
def block (declaration : CompileM Unit) : Nat → CompileM Unit
  | 0 => fault .outOfBudget
  | budget + 1 => do
    let kind ← currentKind
    if kind == .rightBrace || kind == .eof then expect .rightBrace "'\x7d' after block"
    else
      declaration
      block declaration budget

/-- A block as a statement, in a scope of its own. -/
def blockStatement (declaration : CompileM Unit) (budget : Nat) : CompileM Unit := do
  beginScope
  block declaration budget
  endScope

/-! ### Functions -/

/-- One parameter. It is counted before it is named. -/
def parameter : CompileM Unit := do
  act .countParameter
  if (← ask .arity) > 255 then failHere .tooManyParameters
  defineVariable (← parseVariable "parameter name")

/-- The parameters of a function that has some. -/
def parameters : Nat → CompileM Unit
  | 0 => fault .outOfBudget
  | budget + 1 => do
    parameter
    if ← accept .comma then parameters budget

/-- The operand bytes of some captures, two for each. -/
def captureBytes : List Capture → Checked (List UInt8)
  | [] => .ok []
  | c :: cs => do
    let index ← narrow c.index
    return (if c.isLocal then 1 else 0) :: index :: (← captureBytes cs)

/-- A function from its parameters on, and the closure that makes it when the program runs. -/
def function (declaration : CompileM Unit) (budget : Nat) : CompileM Unit := do
  act .beginFunction
  act .nameFunction
  beginScope
  expect .leftParen "'(' after function name"
  unless ← nextIs .rightParen do parameters budget
  expect .rightParen "')' after parameters"
  expect .leftBrace "'\x7b' before function body"
  block declaration budget
  emitReturn
  let (constant, captures) ← act .endFunction
  emit .closure (constant :: (← captureBytes captures))

/-- `fun name ( parameters ) { declarations }`. The name is readable in the body. -/
def funDeclaration (declaration : CompileM Unit) (budget : Nat) : CompileM Unit := do
  let global ← parseVariable "function name"
  markInitialized
  function declaration budget
  defineVariable global

/-! ### Statements -/

mutual

/-- Compile one statement. -/
def statement : Nat → CompileM Unit
  | 0 => fault .outOfBudget
  | budget + 1 => part .statement do
    if ← accept .printWord then printStatement budget
    else if ← accept .delWord then delStatement budget
    else if ← accept .returnWord then returnStatement budget
    else if ← accept .ifWord then ifStatement (statement budget) budget
    else if ← accept .whileWord then whileStatement (statement budget) budget
    else if ← accept .forWord then forStatement (statement budget) budget
    else if ← accept .leftBrace then blockStatement (declaration budget) budget
    else expressionStatement budget

/-- Compile one declaration or statement, and recover from what was wrong with it. -/
def declaration : Nat → CompileM Unit
  | 0 => fault .outOfBudget
  | budget + 1 => part .declaration do
    if ← accept .classWord then classDeclaration
    else if ← accept .funWord then funDeclaration (declaration budget) budget
    else if ← accept .varWord then varDeclaration budget
    else statement budget
    if ← isRecovering then synchronize budget

end

/-- Compile declarations up to the end of the source. -/
def declarations (budget : Nat) : CompileM Unit :=
  loop budget
where
  /-- Compile the declarations that are left. -/
  loop : Nat → CompileM Unit
    | 0 => fault .outOfBudget
    | left + 1 => do
      unless ← accept .eof do
        declaration budget
        loop left

end CompileM

end LoxBytecode
