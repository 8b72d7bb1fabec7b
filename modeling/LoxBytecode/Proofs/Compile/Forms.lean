import LoxBytecode.Proofs.Compile.Only

/-!
# What the Forms of the Language Are Made Of

Much that is proved of compilations says nothing of single forms: it holds of queries and of some
actions, and it is kept when compilations are put together. `Compositional` says so of a property,
relative to the actions that it holds of. Such a property holds of every expression
(`Compositional.expression`), of every form that declares a variable, and, if only the functions
in a program keep it, of all statements and declarations (`Compositional.statement_declaration`).

So the recursion through the forms of the language is carried out here once, and a property that
depends on it has to show what it asks of actions, of chains and of functions.
-/

namespace LoxBytecode

/-- The faults that a compilation can end with by itself, and not in an action. -/
def Fault.Own : Fault → Prop
  | .outOfBudget | .misplacedJump | .wideOperand => True
  | _ => False

/-- A number that is too wide is a fault of the compilation itself. -/
theorem own_of_narrow {n : Nat} {fault : Fault} (h : narrow n = .error fault) : fault.Own := by
  rw [eq_wideOperand_of_narrow h]
  trivial

/-- The actions that expressions are compiled with. -/
def Action.OfExpression {β : Type} : Action β → Prop
  | .advance | .fail _ | .failHere _ | .emit .. | .patchJump _ | .loadNumber | .loadString
  | .nameConstant | .findUpvalue => True
  | _ => False

/-- The actions that let no diagnostics count again and are about no function as a whole. -/
def Action.OfDeclaration {β : Type} : Action β → Prop
  | .resume | .beginFunction | .nameFunction | .endFunction => False
  | _ => True

/-- What expressions are compiled with, declarations are as well. -/
theorem Action.OfExpression.ofDeclaration {β : Type} {a : Action β} (ha : a.OfExpression) :
    a.OfDeclaration := by
  cases a <;> trivial

namespace CompileM

/-- The property holds of queries and of the given actions, of what ends with one of a
compilation's own faults at most, and of what is put together from compilations that have it. -/
structure Compositional (acts : ∀ {β : Type}, Action β → Prop)
    (T : ∀ {α : Type}, CompileM α → Prop) : Prop where
  done {α : Type} {result : Checked α} :
    (∀ fault, result = .error fault → fault.Own) → T (.done result)
  ask {α : Type} (q : Query α) : T (.ask q)
  act {α : Type} {a : Action α} : acts a → T (.act a)
  chain {α β : Type} {first : CompileM β} {next : β → CompileM α} :
    T first → (∀ b, T (next b)) → T (.chain first next)
  part {α : Type} {phrase : Phrase} {body : CompileM α} : T body → T (.part phrase body)

variable {acts acts' : ∀ {β : Type}, Action β → Prop} {T : ∀ {α : Type}, CompileM α → Prop}

/-- What carries over from some actions does so from fewer. -/
theorem Compositional.restrict (hT : Compositional acts T)
    (hacts : ∀ {β : Type} {a : Action β}, acts' a → acts a) : Compositional acts' T where
  done := hT.done
  ask := hT.ask
  act ha := hT.act (hacts ha)
  chain := hT.chain
  part := hT.part

/-- Compilations with these actions only have such a property. -/
theorem compositional_only {faults : Fault → Prop} (hfaults : ∀ fault : Fault, fault.Own → faults fault)
    (hacts : ∀ {β : Type} {a : Action β}, acts a → acts' a) :
    Compositional acts (Only faults acts') where
  done h := only_done.mpr fun fault hfault => hfaults fault (h fault hfault)
  ask _ := trivial
  act := hacts
  chain hfirst hnext := ⟨hfirst, hnext⟩
  part hbody := hbody

/-! ### Without actions -/

section

variable (hT : Compositional acts T) {α β : Type}

include hT

/-- The property holds of every answer. -/
theorem Compositional.pure (a : α) : T (Pure.pure a : CompileM α) :=
  hT.done (by rintro _ ⟨⟩)

/-- The property holds of what goes wrong by itself. -/
theorem Compositional.fault {f : Fault} (hf : f.Own) : T (CompileM.fault f : CompileM α) :=
  hT.done (by
    rintro _ ⟨⟩
    exact hf)

/-- The property holds of the narrowing of a number. -/
theorem Compositional.narrow (n : Nat) : T (liftM (LoxBytecode.narrow n) : CompileM UInt8) :=
  hT.done fun _ => own_of_narrow

/-- The property holds of the writing of captures as bytes. -/
theorem Compositional.captureBytes (cs : List Capture) :
    T (liftM (CompileM.captureBytes cs) : CompileM (List UInt8)) := by
  refine hT.done fun fault h => ?_
  rw [eq_wideOperand_of_captureBytes h]
  trivial

/-- The property carries over to a chain. -/
theorem Compositional.bind {first : CompileM β} {next : β → CompileM α} (hfirst : T first)
    (hnext : ∀ b, T (next b)) : T (first >>= next) :=
  hT.chain hfirst hnext

end

/-- The property carries over to a branch. -/
theorem Compositional.ite (_ : Compositional acts T) {α : Type} {c : Prop} [Decidable c]
    {yes no : CompileM α} (hyes : T yes) (hno : T no) : T (if c then yes else no) := by
  split
  · exact hyes
  · exact hno

/-! ### Tokens and code -/

section

variable (hT : Compositional Action.OfExpression T)

include hT

/-- The property holds of moving on. -/
theorem Compositional.advance : T CompileM.advance := hT.act trivial

/-- The property holds of reporting a problem. -/
theorem Compositional.fail (problem : Problem) : T (CompileM.fail problem) := hT.act trivial

/-- The property holds of emitting an instruction. -/
theorem Compositional.emit (op : Opcode) (operands : List UInt8) :
    T (CompileM.emit op operands) := hT.act trivial

/-- The property holds of adding a name to the constants. -/
theorem Compositional.nameConstant : T CompileM.nameConstant := hT.act trivial

/-- The property holds of patching a jump. -/
theorem Compositional.patchJump (offset : Nat) : T (CompileM.patchJump offset) := hT.act trivial

/-- The property holds of a test of the current token. -/
theorem Compositional.nextIs (kind : TokenKind) : T (CompileM.nextIs kind) :=
  hT.bind (hT.ask _) fun _ => hT.pure _

/-- The property holds of accepting a token. -/
theorem Compositional.accept (kind : TokenKind) : T (CompileM.accept kind) :=
  hT.bind (hT.nextIs kind) fun _ => hT.ite (hT.bind hT.advance fun _ => hT.pure _) (hT.pure _)

/-- The property holds of accepting a token where it is allowed. -/
theorem Compositional.acceptIf (allowed : Bool) (kind : TokenKind) :
    T (CompileM.acceptIf allowed kind) :=
  hT.ite (hT.accept kind) (hT.pure _)

/-- The property holds of expecting a token. -/
theorem Compositional.expect (kind : TokenKind) (what : String) : T (CompileM.expect kind what) :=
  hT.bind (hT.nextIs kind) fun _ => hT.ite hT.advance (hT.act trivial)

/-- The property holds of skipping to a statement, by induction on the budget. -/
theorem Compositional.skipToStatement (budget : Nat) : T (CompileM.skipToStatement budget) := by
  induction budget with
  | zero => exact hT.fault trivial
  | succ budget ih =>
      exact hT.bind (hT.ask _) fun _ => hT.bind (hT.ask _) fun _ =>
        hT.ite (hT.pure _) (hT.bind hT.advance fun _ => ih)

/-- The property holds of emitting several instructions. -/
theorem Compositional.emitAll (ops : List Opcode) : T (CompileM.emitAll ops) := by
  induction ops with
  | nil => exact hT.pure _
  | cons op ops ih => exact hT.bind (hT.emit op []) fun _ => ih

/-- The property holds of emitting a jump. -/
theorem Compositional.emitJump (op : Opcode) : T (CompileM.emitJump op) :=
  hT.bind (hT.emit ..) fun _ => hT.bind (hT.ask _) fun _ => hT.pure _

/-- The property holds of emitting a jump back. -/
theorem Compositional.emitLoop (target : Nat) : T (CompileM.emitLoop target) :=
  hT.bind (hT.ask _) fun _ => hT.ite (hT.fault trivial) <|
    hT.ite (hT.emit ..) (hT.bind (hT.fail _) fun _ => hT.emit ..)

/-- The property holds of resolving a name. -/
theorem Compositional.resolve : T CompileM.resolve := by
  refine hT.bind (hT.ask _) fun found => ?_
  rcases found with e | (- | slot)
  · exact hT.bind (hT.fail _) fun _ => hT.pure _
  · refine hT.bind (hT.act trivial) fun found => ?_
    rcases found with e | (- | index)
    · exact hT.bind (hT.fail _) fun _ => hT.pure _
    · exact hT.bind hT.nameConstant fun _ => hT.pure _
    · exact hT.bind (hT.narrow _) fun _ => hT.pure _
  · exact hT.bind (hT.narrow _) fun _ => hT.pure _

/-! ### Expressions -/

section

variable {parse : Precedence → CompileM Unit} (hparse : ∀ p, T (parse p))

include hparse

/-- The property holds of names that are read or assigned. -/
theorem Compositional.namedVariable (canAssign : Bool) :
    T (CompileM.namedVariable parse canAssign) :=
  hT.bind hT.resolve fun _ => hT.bind (hT.acceptIf ..) fun _ =>
    hT.ite (hT.bind (hparse _) fun _ => hT.emit ..) (hT.emit ..)

/-- The property holds of what begins with a prefix. -/
theorem Compositional.atStart (canAssign : Bool) (form : PrefixForm) :
    T (CompileM.atStart parse canAssign form) := by
  cases form with
  | grouping => exact hT.bind (hparse _) fun _ => hT.expect ..
  | unary => exact hT.bind (hT.ask _) fun _ => hT.bind (hparse _) fun _ => hT.emitAll _
  | identifier => exact hT.namedVariable hparse canAssign
  | string | number => exact hT.act trivial
  | literal => exact hT.bind (hT.ask _) fun _ => hT.emitAll _

/-- The property holds of arguments. -/
theorem Compositional.arguments (budget count : Nat) :
    T (CompileM.arguments parse budget count) := by
  induction budget generalizing count with
  | zero => exact hT.fault trivial
  | succ budget ih =>
      have hmore : T (CompileM.accept .comma >>= fun more =>
          if more = true then CompileM.arguments parse budget (count + 1)
          else Pure.pure (count + 1)) :=
        hT.bind (hT.accept _) fun _ => hT.ite (ih _) (hT.pure _)
      exact hT.bind (hparse _) fun _ => hT.ite (hT.bind (hT.fail _) fun _ => hmore) hmore

/-- The property holds of what stands behind an operand. -/
theorem Compositional.behind (budget : Nat) (canAssign : Bool) (form : InfixForm) :
    T (CompileM.behind parse budget canAssign form) := by
  cases form with
  | call =>
      have hrest (count : Nat) : T (CompileM.expect .rightParen "')' after arguments" >>= fun _ =>
          liftM (LoxBytecode.narrow (min count 255)) >>= fun n => CompileM.emit .call [n]) :=
        hT.bind (hT.expect ..) fun _ => hT.bind (hT.narrow _) fun _ => hT.emit ..
      exact hT.bind (hT.nextIs _) fun _ => hT.ite (hT.bind (hT.pure 0) hrest)
        (hT.bind (hT.arguments hparse budget 0) hrest)
  | dot =>
      exact hT.bind (hT.expect ..) fun _ => hT.bind hT.nameConstant fun _ =>
        hT.bind (hT.acceptIf ..) fun _ =>
          hT.ite (hT.bind (hparse _) fun _ => hT.emit ..) (hT.emit ..)
  | binary => exact hT.bind (hT.ask _) fun _ => hT.bind (hparse _) fun _ => hT.emitAll _
  | and =>
      exact hT.bind (hT.emitJump _) fun _ => hT.bind (hT.emit ..) fun _ =>
        hT.bind (hparse _) fun _ => hT.patchJump _
  | or =>
      exact hT.bind (hT.emitJump _) fun _ => hT.bind (hT.emitJump _) fun _ =>
        hT.bind (hT.patchJump _) fun _ => hT.bind (hT.emit ..) fun _ =>
          hT.bind (hparse _) fun _ => hT.patchJump _

/-- The property holds of any number of operators. -/
theorem Compositional.operators (p : Precedence) (canAssign : Bool) (budget : Nat) :
    T (CompileM.operators parse p canAssign budget) := by
  induction budget with
  | zero => exact hT.fault trivial
  | succ budget ih =>
      refine hT.bind (hT.ask _) fun _ => hT.ite ?_ (hT.pure _)
      refine hT.bind hT.advance fun _ => hT.bind (hT.ask _) fun kind => ?_
      cases kind.rule.behind with
      | none => exact ih
      | some form => exact hT.bind (hT.behind hparse budget canAssign form) fun _ => ih

end

/-- The property holds of operands at any level, by induction on the budget. -/
theorem Compositional.parsePrecedence (budget : Nat) (p : Precedence) :
    T (CompileM.parsePrecedence budget p) := by
  induction budget generalizing p with
  | zero => exact hT.fault trivial
  | succ budget ih =>
      refine hT.bind hT.advance fun _ => hT.bind (hT.ask _) fun kind => ?_
      cases kind.rule.atStart with
      | none => exact hT.fail _
      | some form =>
          exact hT.bind (hT.atStart ih _ form) fun _ => hT.bind (hT.operators ih p _ budget)
            fun _ => hT.bind (hT.acceptIf ..) fun _ => hT.ite (hT.fail _) (hT.pure _)

/-- The property holds of expressions. -/
theorem Compositional.expression (budget : Nat) : T (CompileM.expression budget) :=
  hT.parsePrecedence budget .assignment

/-! ### Statements without declarations -/

/-- The property holds of print statements. -/
theorem Compositional.printStatement (budget : Nat) : T (CompileM.printStatement budget) :=
  hT.bind (hT.expression budget) fun _ => hT.bind (hT.expect ..) fun _ => hT.emit ..

/-- The property holds of deletions. -/
theorem Compositional.delStatement (budget : Nat) : T (CompileM.delStatement budget) :=
  hT.bind (hT.expect ..) fun _ =>
    hT.bind (hT.namedVariable (hT.parsePrecedence budget) _) fun _ =>
      hT.bind (hT.expect ..) fun _ => hT.bind (hT.expect ..) fun _ =>
        hT.bind hT.nameConstant fun _ => hT.bind (hT.emit ..) fun _ => hT.expect ..

/-- The property holds of returns. -/
theorem Compositional.returnStatement (budget : Nat) : T (CompileM.returnStatement budget) := by
  have hrest : T (CompileM.accept .semicolon >>= fun b => if b = true then emitReturn else
      CompileM.expression budget >>= fun _ =>
        CompileM.expect .semicolon "';' after return value" >>= fun _ => CompileM.emit .ret []) :=
    hT.bind (hT.accept _) fun _ => hT.ite (hT.emitAll _) <|
      hT.bind (hT.expression budget) fun _ => hT.bind (hT.expect ..) fun _ => hT.emit ..
  exact hT.bind (hT.ask _) fun _ => hT.ite (hT.bind (hT.fail _) fun _ => hrest) hrest

/-- The property holds of expression statements. -/
theorem Compositional.expressionStatement (budget : Nat) :
    T (CompileM.expressionStatement budget) :=
  hT.bind (hT.expression budget) fun _ => hT.bind (hT.expect ..) fun _ => hT.emit ..

/-- The property holds of the condition of a for loop. -/
theorem Compositional.forCondition (budget : Nat) : T (CompileM.forCondition budget) :=
  hT.bind (hT.accept _) fun _ => hT.ite (hT.pure _) <|
    hT.bind (hT.expression budget) fun _ => hT.bind (hT.expect ..) fun _ =>
      hT.bind (hT.emitJump _) fun _ => hT.bind (hT.emit ..) fun _ => hT.pure _

/-- The property holds of the last clause of a for loop. -/
theorem Compositional.forIncrement (budget start : Nat) :
    T (CompileM.forIncrement budget start) :=
  hT.bind (hT.accept _) fun _ => hT.ite (hT.pure _) <|
    hT.bind (hT.emitJump _) fun _ => hT.bind (hT.ask _) fun _ =>
      hT.bind (hT.expression budget) fun _ => hT.bind (hT.emit ..) fun _ =>
        hT.bind (hT.expect ..) fun _ => hT.bind (hT.emitLoop _) fun _ =>
          hT.bind (hT.patchJump _) fun _ => hT.pure _

section

variable {statement : CompileM Unit} (hstatement : T statement)

include hstatement

/-- The property carries over from statements to branches. -/
theorem Compositional.ifStatement (budget : Nat) : T (CompileM.ifStatement statement budget) :=
  hT.bind (hT.expect ..) fun _ => hT.bind (hT.expression budget) fun _ =>
    hT.bind (hT.expect ..) fun _ => hT.bind (hT.emitJump _) fun _ =>
      hT.bind (hT.emit ..) fun _ => hT.bind hstatement fun _ => hT.bind (hT.emitJump _) fun _ =>
        hT.bind (hT.patchJump _) fun _ => hT.bind (hT.emit ..) fun _ =>
          hT.bind (hT.accept _) fun _ =>
            hT.ite (hT.bind hstatement fun _ => hT.patchJump _) (hT.patchJump _)

/-- The property carries over from statements to while loops. -/
theorem Compositional.whileStatement (budget : Nat) :
    T (CompileM.whileStatement statement budget) :=
  hT.bind (hT.ask _) fun _ => hT.bind (hT.expect ..) fun _ =>
    hT.bind (hT.expression budget) fun _ => hT.bind (hT.expect ..) fun _ =>
      hT.bind (hT.emitJump _) fun _ => hT.bind (hT.emit ..) fun _ =>
        hT.bind hstatement fun _ => hT.bind (hT.emitLoop _) fun _ =>
          hT.bind (hT.patchJump _) fun _ => hT.emit ..

end

end

/-! ### Statements and declarations -/

section

variable (hT : Compositional Action.OfDeclaration T)

include hT

/-- Fewer actions are enough for expressions. -/
theorem Compositional.ofExpression : Compositional Action.OfExpression T :=
  hT.restrict Action.OfExpression.ofDeclaration

/-- The property holds of ending a scope. -/
theorem Compositional.endScope : T CompileM.endScope :=
  hT.bind (hT.act trivial) fun _ => hT.ofExpression.emitAll _

/-- The property holds of declaring a variable. -/
theorem Compositional.declareVariable : T CompileM.declareVariable :=
  hT.bind (hT.ask _) fun _ => hT.ite (hT.pure _) (hT.act trivial)

/-- The property holds of a name to declare. -/
theorem Compositional.parseVariable (what : String) : T (CompileM.parseVariable what) :=
  hT.bind (hT.ofExpression.expect ..) fun _ => hT.bind hT.declareVariable fun _ =>
    hT.bind (hT.ask _) fun _ => hT.ite hT.ofExpression.nameConstant (hT.pure _)

/-- The property holds of defining a variable. -/
theorem Compositional.defineVariable (global : UInt8) : T (CompileM.defineVariable global) :=
  hT.bind (hT.ask _) fun _ => hT.ite (hT.ofExpression.emit ..) (hT.act trivial)

/-- The property holds of variable declarations. -/
theorem Compositional.varDeclaration (budget : Nat) : T (CompileM.varDeclaration budget) := by
  have hrest (global : UInt8) :
      T (CompileM.expect .semicolon "';' after variable declaration" >>= fun _ =>
        CompileM.defineVariable global) :=
    hT.bind (hT.ofExpression.expect ..) fun _ => hT.defineVariable global
  exact hT.bind (hT.parseVariable _) fun global => hT.bind (hT.ofExpression.accept _) fun _ =>
    hT.ite (hT.bind (hT.ofExpression.expression budget) fun _ => hrest global)
      (hT.bind (hT.ofExpression.emit ..) fun _ => hrest global)

/-- The property holds of classes. -/
theorem Compositional.classDeclaration : T CompileM.classDeclaration :=
  hT.bind (hT.ofExpression.expect ..) fun _ => hT.bind hT.ofExpression.nameConstant fun name =>
    hT.bind hT.declareVariable fun _ => hT.bind (hT.ofExpression.emit ..) fun _ =>
      hT.bind (hT.defineVariable name) fun _ => hT.bind (hT.ofExpression.expect ..) fun _ =>
        hT.ofExpression.expect ..

/-- The property holds of the first clause of a for loop. -/
theorem Compositional.forInitializer (budget : Nat) : T (CompileM.forInitializer budget) :=
  hT.bind (hT.ofExpression.accept _) fun _ => hT.ite (hT.pure _) <|
    hT.bind (hT.ofExpression.accept _) fun _ =>
      hT.ite (hT.varDeclaration budget) (hT.ofExpression.expressionStatement budget)

/-- The property holds of parameters. -/
theorem Compositional.parameters (budget : Nat) : T (CompileM.parameters budget) := by
  have hnamed : T (CompileM.parseVariable "parameter name" >>= CompileM.defineVariable) :=
    hT.bind (hT.parseVariable _) hT.defineVariable
  have hparameter : T CompileM.parameter :=
    hT.bind (hT.act trivial) fun _ => hT.bind (hT.ask _) fun _ =>
      hT.ite (hT.bind (hT.act trivial) fun _ => hnamed) hnamed
  induction budget with
  | zero => exact hT.fault trivial
  | succ budget ih =>
      exact hT.bind hparameter fun _ => hT.bind (hT.ofExpression.accept _) fun _ =>
        hT.ite ih (hT.pure _)

/-- The property carries over from statements to for loops. -/
theorem Compositional.forStatement {statement : CompileM Unit} (hstatement : T statement)
    (budget : Nat) : T (CompileM.forStatement statement budget) := by
  refine hT.bind (hT.act trivial) fun _ => hT.bind (hT.ofExpression.expect ..) fun _ =>
    hT.bind (hT.forInitializer budget) fun _ => hT.bind (hT.ask _) fun start =>
      hT.bind (hT.ofExpression.forCondition budget) fun exitJump =>
        hT.bind (hT.ofExpression.forIncrement budget start) fun target =>
          hT.bind hstatement fun _ => hT.bind (hT.ofExpression.emitLoop target) fun _ => ?_
  cases exitJump with
  | none => exact hT.endScope
  | some exitJump =>
      exact hT.bind (hT.ofExpression.patchJump exitJump) fun _ =>
        hT.bind (hT.ofExpression.emit ..) fun _ => hT.endScope

section

variable {declaration : CompileM Unit} (hdeclaration : T declaration)

include hdeclaration

/-- The property carries over from declarations to blocks. -/
theorem Compositional.block (budget : Nat) : T (CompileM.block declaration budget) := by
  induction budget with
  | zero => exact hT.fault trivial
  | succ budget ih =>
      exact hT.bind (hT.ask _) fun _ =>
        hT.ite (hT.ofExpression.expect ..) (hT.bind hdeclaration fun _ => ih)

/-- A function behind its name. -/
theorem Compositional.behindName (hend : T (CompileM.act .endFunction)) (budget : Nat) :
    T (do
      CompileM.beginScope
      CompileM.expect .leftParen "'(' after function name"
      unless ← CompileM.nextIs .rightParen do CompileM.parameters budget
      CompileM.expect .rightParen "')' after parameters"
      CompileM.expect .leftBrace "'\x7b' before function body"
      CompileM.block declaration budget
      CompileM.emitReturn
      let (constant, captures) ← CompileM.act .endFunction
      CompileM.emit .closure (constant :: (← CompileM.captureBytes captures))) := by
  have hE := hT.ofExpression
  refine hT.bind (hT.act trivial) fun _ => hT.bind (hE.expect ..) fun _ =>
    hT.bind (hE.nextIs _) fun _ => ?_
  have hbody : T (do
      CompileM.expect .rightParen "')' after parameters"
      CompileM.expect .leftBrace "'\x7b' before function body"
      CompileM.block declaration budget
      CompileM.emitReturn
      let (constant, captures) ← CompileM.act .endFunction
      CompileM.emit .closure (constant :: (← CompileM.captureBytes captures))) :=
    hT.bind (hE.expect ..) fun _ => hT.bind (hE.expect ..) fun _ =>
      hT.bind (hT.block hdeclaration budget) fun _ => hT.bind (hE.emitAll _) fun _ =>
        hT.bind hend fun ⟨_, captures⟩ => hT.bind (hT.captureBytes captures) fun _ => hE.emit ..
  exact hT.ite hbody (hT.bind (hT.parameters budget) fun _ => hbody)

end

variable (hresume : T (CompileM.act .resume))
  (hfunction : ∀ {declaration : CompileM Unit} (budget : Nat), T declaration →
    T (CompileM.function declaration budget))

include hresume hfunction

/-- The property holds of statements and declarations, by induction on the budget of both. -/
theorem Compositional.statement_declaration (budget : Nat) :
    T (CompileM.statement budget) ∧ T (CompileM.declaration budget) := by
  induction budget with
  | zero => exact ⟨hT.fault trivial, hT.fault trivial⟩
  | succ budget ih =>
      obtain ⟨hstatement, hdeclaration⟩ := ih
      have hE := hT.ofExpression
      have haccept {kind : TokenKind} {yes no : CompileM Unit} (hyes : T yes) (hno : T no) :
          T (CompileM.accept kind >>= fun b => if b = true then yes else no) :=
        hT.bind (hE.accept kind) fun _ => hT.ite hyes hno
      have hrecovered {body : CompileM Unit} (hbody : T body) :
          T (body >>= fun _ => isRecovering >>= fun b =>
            if b = true then CompileM.synchronize budget else Pure.pure ()) :=
        hT.bind hbody fun _ => hT.bind (hT.ask _) fun _ =>
          hT.ite (hT.bind hresume fun _ => hE.skipToStatement budget) (hT.pure _)
      have hfun : T (CompileM.funDeclaration (CompileM.declaration budget) budget) :=
        hT.bind (hT.parseVariable _) fun global => hT.bind (hT.act trivial) fun _ =>
          hT.bind (hfunction budget hdeclaration) fun _ => hT.defineVariable global
      have hblock : T (CompileM.blockStatement (CompileM.declaration budget) budget) :=
        hT.bind (hT.act trivial) fun _ => hT.bind (hT.block hdeclaration budget) fun _ =>
          hT.endScope
      rw [CompileM.statement, CompileM.declaration]
      refine ⟨hT.part ?_, hT.part ?_⟩
      · exact haccept (hE.printStatement budget) <|
          haccept (hE.delStatement budget) <|
          haccept (hE.returnStatement budget) <|
          haccept (hE.ifStatement hstatement budget) <|
          haccept (hE.whileStatement hstatement budget) <|
          haccept (hT.forStatement hstatement budget) <|
          haccept hblock (hE.expressionStatement budget)
      · exact haccept (hrecovered hT.classDeclaration) <|
          haccept (hrecovered hfun) <|
          haccept (hrecovered (hT.varDeclaration budget)) (hrecovered hstatement)

/-- The property holds of the declarations of a file. -/
theorem Compositional.declarations (budget : Nat) : T (CompileM.declarations budget) := by
  have hloop : ∀ left, T (CompileM.declarations.loop budget left) := by
    intro left
    induction left with
    | zero => exact hT.fault trivial
    | succ left ih =>
        exact hT.bind (hT.ofExpression.accept _) fun _ => hT.ite (hT.pure _) <|
          hT.bind (hT.statement_declaration hresume hfunction budget).2 fun _ => ih
  exact hloop budget

end

end CompileM

end LoxBytecode
