import LoxBytecode.Compile.Session

/-!
# Queries and Actions

What the compiler does is put together from few parts: a `Query` asks something of the session,
and an `Action` changes it in one step. `CompileM` composes them, and `CompileM.run` carries the
whole out. A compilation is a tree of these parts rather than a function on sessions, so that
one can speak of the states it passes through and not of the last one alone: what every action
preserves, `run` preserves.

No query and no action answers with a handle, a name or a line. So nothing that the compiler
decides depends on where objects lie in the heap, on how variables are called beyond which of
their names are equal, or on how the source is laid out.
-/

namespace LoxBytecode

/-! ### Queries -/

/-- What a compilation can ask about its session, by the type of the answer. -/
inductive Query : Type → Type where
  /-- The kind of the current token. -/
  | currentKind : Query TokenKind
  /-- The kind of the token just passed. -/
  | previousKind : Query TokenKind
  /-- Whether diagnostics are being dropped. -/
  | recovering : Query Bool
  /-- The length of the code being written. -/
  | codeSize : Query Nat
  /-- The kind of the function being compiled. -/
  | functionKind : Query FunctionKind
  /-- The number of parameters counted so far. -/
  | arity : Query Nat
  /-- Whether declarations are global here. -/
  | atTopScope : Query Bool
  /-- The slot of the local with the name just passed, if there is one. -/
  | findLocal : Query (Except ScopeError (Option Nat))

/-- The answer to a query. -/
def Query.answer {β : Type} (s : Session) : Query β → β
  | .currentKind => s.current.kind
  | .previousKind => s.previous.kind
  | .recovering => s.recovering
  | .codeSize => s.chunk.size
  | .functionKind => s.functions.current.kind
  | .arity => s.functions.current.arity
  | .atTopScope => s.functions.current.scopeDepth == 0
  | .findLocal => s.findLocal

/-! ### Actions -/

/-- The steps in which a compilation changes its session, by the type of their answer. -/
inductive Action : Type → Type where
  /-- Move on by one token. -/
  | advance : Action Unit
  /-- Report a problem at the token just passed. -/
  | fail (problem : Problem) : Action Unit
  /-- Report a problem at the current token. -/
  | failHere (problem : Problem) : Action Unit
  /-- Let diagnostics count again. -/
  | resume : Action Unit
  /-- Write an instruction. -/
  | emit (op : Opcode) (operands : List UInt8) : Action Unit
  /-- Let the jump whose distance belongs at an offset lead to the end of the code. -/
  | patchJump (offset : Nat) : Action Unit
  /-- Write the load of the number just passed. -/
  | loadNumber : Action Unit
  /-- Write the load of the string just passed. -/
  | loadString : Action Unit
  /-- Add the name just passed as a constant. -/
  | nameConstant : Action UInt8
  /-- Enter a scope. -/
  | beginScope : Action Unit
  /-- Leave a scope. The answer says of each of its locals whether it was captured. -/
  | endScope : Action (List Bool)
  /-- Declare a local with the name just passed. -/
  | declare : Action Unit
  /-- Make the local declared last readable. -/
  | markInitialized : Action Unit
  /-- Look the name just passed up among the variables of enclosing functions. -/
  | findUpvalue : Action (Except ScopeError (Option Nat))
  /-- Begin a nested function. -/
  | beginFunction : Action Unit
  /-- Name the current function by the token just passed. -/
  | nameFunction : Action Unit
  /-- Count a parameter of the current function. -/
  | countParameter : Action Unit
  /-- End the current function: its constant in the one around it, and its captures. -/
  | endFunction : Action (UInt8 × List Capture)

/-- The answer to an action, and the session after it. -/
def Action.apply {β : Type} (s : Session) : Action β → Checked (β × Session)
  | .advance => .ok ((), s.advance)
  | .fail problem => .ok ((), s.fail problem)
  | .failHere problem => .ok ((), s.failHere problem)
  | .resume => .ok ((), s.resume)
  | .emit op operands => .ok ((), s.emit op operands)
  | .patchJump offset => do return ((), ← s.patchJump offset)
  | .loadNumber => .ok ((), s.loadNumber)
  | .loadString => do return ((), ← s.loadString)
  | .nameConstant => s.nameConstant
  | .beginScope => .ok ((), s.modifyFunction FunctionState.beginScope)
  | .endScope => s.endScope
  | .declare => .ok ((), s.declare)
  | .markInitialized => .ok ((), s.modifyFunction FunctionState.markInitialized)
  | .findUpvalue => .ok s.findUpvalue
  | .beginFunction => .ok ((), s.beginFunction)
  | .nameFunction => do return ((), ← s.nameFunction)
  | .countParameter => .ok ((), s.countParameter)
  | .endFunction => s.endFunction

/-! ### Compilations -/

/-- The phrases of a program whose compilation is a part with a name. -/
inductive Phrase where
  | statement
  | declaration
deriving DecidableEq, Repr

/-- What to do in a compilation, up to an answer or a fault. Faults are broken contracts, never
faults of the source. A part is carried out like its body; its name lets one say where in a
compilation a phrase begins and ends. -/
inductive CompileM : Type → Type 1 where
  | done {α : Type} (result : Checked α) : CompileM α
  | ask {α : Type} (q : Query α) : CompileM α
  | act {α : Type} (a : Action α) : CompileM α
  | chain {α β : Type} (first : CompileM β) (next : β → CompileM α) : CompileM α
  | part {α : Type} (phrase : Phrase) (body : CompileM α) : CompileM α

namespace CompileM

instance : Monad CompileM where
  pure a := .done (.ok a)
  bind := .chain

instance : MonadLift Checked CompileM where
  monadLift := .done

/-- Carry a compilation out. -/
def run {α : Type} : CompileM α → Session → Checked (α × Session)
  | .done (.ok a), s => .ok (a, s)
  | .done (.error fault), _ => .error fault
  | .ask q, s => .ok (q.answer s, s)
  | .act a, s => a.apply s
  | .chain first next, s =>
    match first.run s with
    | .ok (b, s) => (next b).run s
    | .error fault => .error fault
  | .part _ body, s => body.run s

/-! ### Running the parts -/

variable {α β : Type} (s : Session)

@[simp] theorem run_pure (a : α) : (pure a : CompileM α).run s = .ok (a, s) := rfl

@[simp] theorem run_done (result : Checked α) :
    (done result).run s = result >>= fun a => .ok (a, s) := by
  cases result <;> rfl

@[simp] theorem run_liftM (result : Checked α) :
    (liftM result : CompileM α).run s = result >>= fun a => .ok (a, s) :=
  run_done s result

@[simp] theorem run_ask (q : Query α) : (ask q).run s = .ok (q.answer s, s) := rfl

@[simp] theorem run_act (a : Action α) : (act a).run s = a.apply s := rfl

@[simp] theorem run_bind (first : CompileM β) (next : β → CompileM α) :
    (first >>= next).run s = first.run s >>= fun (b, s) => (next b).run s := by
  show (chain first next).run s = _
  rw [run]
  rcases first.run s with fault | ⟨b, t⟩ <;> rfl

@[simp] theorem run_part (phrase : Phrase) (body : CompileM α) :
    (part phrase body).run s = body.run s := rfl

@[simp] theorem run_ite (c : Prop) [Decidable c] (yes no : CompileM α) :
    (if c then yes else no).run s = if c then yes.run s else no.run s := by
  split <;> rfl

/-! ### What a run keeps -/

/-- What every action keeps, a run keeps. Queries change nothing, so nothing is asked of them. -/
theorem run_keeps {α : Type} {P : Session → Prop}
    (keeps : ∀ {β : Type} (a : Action β) {s t : Session} {b : β},
      P s → a.apply s = .ok (b, t) → P t)
    (m : CompileM α) {s t : Session} {a : α} (start : P s) (ran : m.run s = .ok (a, t)) : P t := by
  induction m generalizing s t with
  | done result =>
    cases result with
    | error fault => cases ran
    | ok a =>
      cases ran
      exact start
  | ask q =>
    cases ran
    exact start
  | act action => exact keeps action start ran
  | chain first next ihFirst ihNext =>
    rw [run] at ran
    split at ran
    · next b u first_ran => exact ihNext b (ihFirst start first_ran) ran
    · cases ran
  | part phrase body ih => exact ih start ran

end CompileM

end LoxBytecode
