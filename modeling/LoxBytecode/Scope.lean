import LoxBytecode.Chunk

/-!
# Scopes of One Function

While a function is compiled its state holds the code written so far, the locals in scope with
their stack slots, and the captures of variables of enclosing functions.

Locals are held innermost first, so that a local's slot is the number of locals after it in the
list, looking a name up is a search from the front, and leaving a scope drops from the front.
-/

namespace LoxBytecode

/-- The number of locals, and of captures, that a function may have: what one operand byte can
tell apart. The reserved slot counts as a local. -/
def maxSlots : Nat := 256

/-- What can be wrong with a declaration or a use of a variable. -/
inductive ScopeError where
  | alreadyDeclared
  | tooManyLocals
  | tooManyUpvalues
  | ownInitializer
deriving DecidableEq, Repr

/-- The message of a scope error. -/
def ScopeError.message : ScopeError → String
  | .alreadyDeclared => "Already a variable with this name in this scope."
  | .tooManyLocals => "Too many local variables in function."
  | .tooManyUpvalues => "Too many closure variables in function."
  | .ownInitializer => "Can't read local variable in its own initializer."

/-- A variable in a stack slot. -/
structure Local where
  name : String
  /-- The depth of the scope that owns it; none until it is initialized. -/
  depth : Option Nat
  /-- Whether a nested function captures it. -/
  captured : Bool
deriving DecidableEq, Repr

/-- How a closure gets one captured variable when it is made: from a slot of the enclosing
function, or from a capture of that function. -/
structure Capture where
  isLocal : Bool
  index : Nat
deriving DecidableEq, Repr

/-- What kind of code a function state compiles. -/
inductive FunctionKind where
  | script
  | function
deriving DecidableEq, Repr

/-- The state of one function being compiled. -/
structure FunctionState where
  /-- The heap object that receives the code when the function ends. -/
  function : FunctionHandle
  kind : FunctionKind
  chunk : Chunk
  arity : Nat
  /-- The locals in scope, innermost first. -/
  locals : List Local
  /-- The captures, in the order of their indices. -/
  upvalues : List Capture
  scopeDepth : Nat
deriving DecidableEq, Repr

namespace FunctionState

/-- The local in slot 0: the function being called. No identifier is empty, so nothing refers
to it. -/
def reserved : Local := ⟨"", some 0, false⟩

/-- The state of a function of which nothing is compiled yet. -/
def start (function : FunctionHandle) (kind : FunctionKind) : FunctionState :=
  ⟨function, kind, Chunk.empty, 0, [reserved], [], 0⟩

/-! ### Scopes -/

/-- Enter a scope. -/
def beginScope (s : FunctionState) : FunctionState :=
  { s with scopeDepth := s.scopeDepth + 1 }

/-- Whether a local is deeper than a scope, or not initialized. -/
def isWithin (depth : Nat) (l : Local) : Bool :=
  !l.depth.any (· ≤ depth)

/-- Leave the innermost scope: for each local that it owned, innermost first, whether it was
captured, and the state without those locals. -/
def endScope (s : FunctionState) : Checked (List Bool × FunctionState) :=
  match s.scopeDepth with
  | 0 => .error .noOpenScope
  | depth + 1 =>
    .ok ((s.locals.takeWhile (isWithin depth)).map Local.captured,
      { s with locals := s.locals.dropWhile (isWithin depth), scopeDepth := depth })

/-! ### Locals -/

/-- Add a local that is not initialized yet. -/
def addLocal (s : FunctionState) (name : String) : Except ScopeError FunctionState :=
  if s.locals.length < maxSlots then
    .ok { s with locals := ⟨name, none, false⟩ :: s.locals }
  else .error .tooManyLocals

/-- Declare a local in the innermost scope, which must not have one of that name. -/
def declareLocal (s : FunctionState) (name : String) : Except ScopeError FunctionState :=
  let inScope := s.locals.takeWhile fun l => !l.depth.any (· < s.scopeDepth)
  if inScope.any (·.name == name) then .error .alreadyDeclared else s.addLocal name

/-- Make the innermost local readable. Outside all scopes variables are global and there is
nothing to do. -/
def markInitialized (s : FunctionState) : FunctionState :=
  match s.scopeDepth, s.locals with
  | depth + 1, l :: ls => { s with locals := { l with depth := some (depth + 1) } :: ls }
  | _, _ => s

/-- The innermost local of a name, with its slot. -/
def findLocal? (name : String) : List Local → Option (Nat × Local)
  | [] => none
  | l :: ls => if l.name = name then some (ls.length, l) else findLocal? name ls

/-- The slot of the innermost local of a name, if there is one. -/
def resolveLocal (s : FunctionState) (name : String) : Except ScopeError (Option Nat) :=
  match findLocal? name s.locals with
  | none => .ok none
  | some (slot, l) => if l.depth.isNone then .error .ownInitializer else .ok (some slot)

/-- Record that the local in a slot is captured. -/
def capture (s : FunctionState) (slot : Nat) : FunctionState :=
  if slot < s.locals.length then
    { s with
      locals := s.locals.modify (s.locals.length - 1 - slot) fun l => { l with captured := true } }
  else s

/-! ### Upvalues -/

/-- The index of a capture, which is added unless it is there already. -/
def addUpvalue (s : FunctionState) (c : Capture) : Except ScopeError Nat × FunctionState :=
  match s.upvalues.idxOf? c with
  | some index => (.ok index, s)
  | none =>
    if s.upvalues.length < maxSlots then
      (.ok s.upvalues.length, { s with upvalues := s.upvalues ++ [c] })
    else (.error .tooManyUpvalues, s)

end FunctionState

/-- A function being compiled keeps its heap object and the constants of its code alive. -/
instance : HasRoots FunctionState where
  roots s := .function s.function :: s.chunk.constants.toList

end LoxBytecode
