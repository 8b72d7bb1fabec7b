import LoxBytecode.Compile
import LoxBytecode.Proofs.Code.Walk
import LoxBytecode.Proofs.Syntax.Reading

/-!
# Following a Compilation

A compilation can be followed without a heap and without lines, up to the first problem that it
reports (`CompileM.follow`). A `Stage` says how far it has come: the tokens to come, the code
written, and the functions on the way as a walk through a program sees them. Following stops at
a problem, with the tokens from the one on that it is reported at.

The tokens to come need not be all that there are. A stage at the last token that it knows
cannot move on, unless that token is the end of the source.
-/

namespace LoxBytecode

/-! ### Stages -/

/-- How far a compilation has come. -/
structure Stage where
  /-- The tokens from the current one on, as far as they are known. There are none behind the
  end of the source. -/
  tokens : List Token
  previous : Token
  /-- The code of the current function. -/
  code : List UInt8
  /-- The code of the functions around it, innermost first. -/
  outer : List (List UInt8)
  nest : Nest

/-- Why a compilation is not followed any further. -/
inductive Stop where
  /-- A contract is broken. -/
  | fault
  /-- The token to move on to is not known. -/
  | unknown
  /-- A problem is reported at the first of some tokens. -/
  | problem (p : Problem) (tokens : List Token)

/-- A problem with the order of the tokens. -/
def Problem.IsSyntactic : Problem → Prop
  | .expected _ | .invalidAssignmentTarget => True
  | _ => False

/-- A problem with something that a program demands. -/
def Problem.IsLimit : Problem → Prop
  | .expected _ | .invalidAssignmentTarget | .invalidNumber => False
  | _ => True

/-! ### Captures -/

/-- Capture a variable in a function, unless that would be one too many. -/
def Draft.tryCapture (v : Nat × Nat) (d : Draft) :
    Except ScopeError (Option (Nat × Nat)) × Draft :=
  if v ∈ d.captures ∨ d.captures.length < maxSlots then (.ok (some v), d.capture v)
  else (.error .tooManyUpvalues, d)

/-- Find a name among the functions around `inner` and capture it on the way in: the variable,
and the functions as the search leaves them. -/
def resolveAround (name : String) (inner : Draft) :
    List Draft → Except ScopeError (Option (Nat × Nat)) × Draft × List Draft
  | [] => (.ok none, inner, [])
  | outer :: rest =>
    match FunctionState.findLocal? name outer.scope.locals with
    | some (slot, l) =>
      if l.depth.isNone then (.error .ownInitializer, inner, outer :: rest)
      else
        let (found, inner) := inner.tryCapture (0, slot)
        (found, inner, outer.mark slot :: rest)
    | none =>
      let (found, outer, rest) := resolveAround name outer rest
      match found with
      | .ok (some (distance, slot)) =>
        let (found, inner) := inner.tryCapture (distance + 1, slot)
        (found, inner, outer :: rest)
      | .ok none => (.ok none, inner, outer :: rest)
      | .error e => (.error e, inner, outer :: rest)

namespace Stage

/-! ### Steps -/

/-- Stop at a problem with the token just passed. -/
def fail {α : Type} (A : Stage) (p : Problem) : Except Stop α :=
  .error (.problem p (A.previous :: A.tokens))

/-- Stop at a problem with the current token. -/
def failHere {α : Type} (A : Stage) (p : Problem) : Except Stop α :=
  .error (.problem p (if A.tokens = [] then [A.previous] else A.tokens))

/-- Move on by one token. -/
def advance (A : Stage) : Except Stop Stage :=
  match A.tokens with
  | [] => .ok A
  | [t] => if t.kind = .eof then .ok { A with previous := t, tokens := [] } else .error .unknown
  | t :: u :: ts => .ok { A with previous := t, tokens := u :: ts }

/-- Write some bytes. -/
def write (A : Stage) (bytes : List UInt8) : Stage :=
  { A with code := A.code ++ bytes }

/-- Change the current function. -/
def modify (A : Stage) (f : Draft → Draft) : Stage :=
  { A with nest := { A.nest with current := f A.nest.current } }

/-- Change the scope. -/
def modifyScope (A : Stage) (f : Scope → Scope) : Stage :=
  A.modify fun d => { d with scope := f d.scope }

/-- Add a constant. -/
def addConstant (A : Stage) (c : Constant) : Stage :=
  A.modify fun d => { d with constants := d.constants ++ [c] }

/-- Let a jump lead to the end of the code. -/
def patchJump (A : Stage) (offset : Nat) : Except Stop Stage :=
  let size := A.code.length
  if size < offset + 2 then .error .fault
  else
    let distance := size - (offset + 2)
    if distance ≤ Session.maxJump then
      .ok { A with code := (A.code.set offset (distance >>> 8).toUInt8).set (offset + 1)
                    distance.toUInt8 }
    else A.fail .jumpTooLong

/-- Write the load of a constant. -/
def load (A : Stage) (c : Constant) : Except Stop Stage :=
  let index := A.nest.current.constants.length
  if Chunk.maxConstants ≤ index then A.fail (.chunk .tooManyConstants)
  else .ok ((A.addConstant c).write ((Chunk.loadOf index).1.toByte :: (Chunk.loadOf index).2))

/-- Add a constant that an instruction names by one byte. -/
def short (A : Stage) (c : Constant) : Except Stop (UInt8 × Stage) :=
  let index := A.nest.current.constants.length
  if index ≤ Chunk.maxShortConstant then .ok (index.toUInt8, A.addConstant c)
  else A.fail (.chunk .tooManyConstants)

/-- Declare a local. -/
def declare (A : Stage) (name : String) : Except Stop Stage :=
  let scope := A.nest.current.scope
  let inScope := scope.locals.takeWhile fun l => !l.depth.any (· < scope.depth)
  if inScope.any (·.name == name) then A.fail (.scope .alreadyDeclared)
  else if scope.locals.length < maxSlots then .ok (A.modifyScope (·.declare name))
  else A.fail (.scope .tooManyLocals)

/-- Leave a scope. -/
def endScope (A : Stage) : Except Stop (List Bool × Stage) :=
  let scope := A.nest.current.scope
  if scope.depth = 0 then .error .fault
  else .ok (scope.owned.map Local.captured, A.modifyScope Scope.leave)

/-- The slot of the local with the name just passed. -/
def findLocal (A : Stage) : Except ScopeError (Option Nat) :=
  match FunctionState.findLocal? A.previous.lexeme A.nest.current.scope.locals with
  | none => .ok none
  | some (slot, l) => if l.depth.isNone then .error .ownInitializer else .ok (some slot)

/-- The capture of the variable of an enclosing function with the name just passed. -/
def findUpvalue (A : Stage) : Except ScopeError (Option Nat) × Stage :=
  let (found, current, around) :=
    resolveAround A.previous.lexeme A.nest.current A.nest.around
  (found.map (Option.map current.captures.idxOf), { A with nest := ⟨current, around⟩ })

/-- Begin a nested function. -/
def beginFunction (A : Stage) : Stage :=
  { A with
    code := []
    outer := A.code :: A.outer
    nest := ⟨.start .function, A.nest.current :: A.nest.around⟩ }

/-- End the current function. -/
def endFunction (A : Stage) : Except Stop ((UInt8 × List Capture) × Stage) :=
  match A.nest.around, A.outer with
  | d :: ds, code :: codes => do
    let captures := A.nest.current.captures.map (captureOf d.captures)
    let (constant, A) ← { A with code := code, outer := codes, nest := ⟨d, ds⟩ }.short .function
    return ((constant, captures), A)
  | _, _ => .error .fault

end Stage

/-! ### Following -/

/-- The answer to a query at a stage. -/
def Query.answerAt {β : Type} (A : Stage) : Query β → β
  | .currentKind => kindOf A.tokens
  | .previousKind => A.previous.kind
  | .recovering => false
  | .codeSize => A.code.length
  | .functionKind => A.nest.current.kind
  | .arity => A.nest.current.arity
  | .atTopScope => A.nest.current.scope.depth == 0
  | .findLocal => A.findLocal

/-- What an action does at a stage. -/
def Action.applyAt {β : Type} (A : Stage) : Action β → Except Stop (β × Stage)
  | .advance => do return ((), ← A.advance)
  | .fail problem => A.fail problem
  | .failHere problem => A.failHere problem
  | .resume | .nameFunction => .ok ((), A)
  | .emit op operands => .ok ((), A.write (op.toByte :: operands))
  | .patchJump offset => do return ((), ← A.patchJump offset)
  | .loadNumber =>
    match Number.ofText? A.previous.lexeme with
    | some x => do return ((), ← A.load (.plain (.number x)))
    | none => A.fail .invalidNumber
  | .loadString =>
    match Session.unquote A.previous.lexeme with
    | .ok text => do return ((), ← A.load (.text text))
    | .error _ => .error .fault
  | .nameConstant => A.short (.text A.previous.lexeme)
  | .beginScope => .ok ((), A.modifyScope Scope.enter)
  | .endScope => A.endScope
  | .declare => do return ((), ← A.declare A.previous.lexeme)
  | .markInitialized => .ok ((), A.modifyScope Scope.define)
  | .findUpvalue => .ok A.findUpvalue
  | .beginFunction => .ok ((), A.beginFunction)
  | .countParameter => .ok ((), A.modify fun d => { d with arity := d.arity + 1 })
  | .endFunction => A.endFunction

namespace CompileM

/-- Follow a compilation. -/
def follow {α : Type} : CompileM α → Stage → Except Stop (α × Stage)
  | .done (.ok a), A => .ok (a, A)
  | .done (.error _), _ => .error .fault
  | .ask q, A => .ok (q.answerAt A, A)
  | .act a, A => a.applyAt A
  | .chain first next, A =>
    match first.follow A with
    | .ok (b, A) => (next b).follow A
    | .error stop => .error stop
  | .part _ body, A => body.follow A

variable {α β : Type} (A : Stage)

@[simp] theorem follow_pure (a : α) : (pure a : CompileM α).follow A = .ok (a, A) := rfl

@[simp] theorem follow_liftM_ok (a : α) :
    (liftM (.ok a : Checked α) : CompileM α).follow A = .ok (a, A) := rfl

@[simp] theorem follow_fault (f : Fault) :
    (fault f : CompileM α).follow A = .error .fault := rfl

@[simp] theorem follow_ask (q : Query α) : (ask q).follow A = .ok (q.answerAt A, A) := rfl

@[simp] theorem follow_act (a : Action α) : (act a).follow A = a.applyAt A := rfl

@[simp] theorem follow_bind (first : CompileM β) (next : β → CompileM α) :
    (first >>= next).follow A = first.follow A >>= fun (b, A) => (next b).follow A := by
  show (chain first next).follow A = _
  rw [follow]
  rcases first.follow A with stop | ⟨b, B⟩ <;> rfl

@[simp] theorem follow_part (phrase : Phrase) (body : CompileM α) :
    (part phrase body).follow A = body.follow A := rfl

end CompileM

end LoxBytecode
