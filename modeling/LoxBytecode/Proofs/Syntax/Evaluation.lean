import LoxBytecode.Number.Shortest
import LoxBytecode.Proofs.Syntax.Tree

/-!
# Evaluating a Program

What a program without functions and classes does, read off its syntax tree. Blocks are
lexically scoped: a block forgets its locals at its end. Globals are bound late, so that a name
without a local is looked up only when it is used. What numbers do is left open
(`Arithmetic`), except that three of the comparisons are negations.

A loop may go on for ever. The evaluator therefore takes the number of rounds that any loop may
go, and its answer is an `Outcome`: how far it has come, whether that is the end or not.
-/

namespace LoxBytecode

/-! ### Data -/

/-- What the operators do with numbers. -/
structure Arithmetic where
  add : Number → Number → Number
  subtract : Number → Number → Number
  multiply : Number → Number → Number
  divide : Number → Number → Number
  negate : Number → Number
  equal : Number → Number → Bool
  greater : Number → Number → Bool
  less : Number → Number → Bool

/-- A value that an expression has. -/
inductive Datum where
  | nil
  | bool (b : Bool)
  | number (x : Number)
  | string (text : String)
deriving DecidableEq, Repr

namespace Datum

/-- Only nil and false count as false in a condition. -/
def isFalsey : Datum → Bool
  | .nil | .bool false => true
  | _ => false

/-- What is printed. -/
def text : Datum → String
  | .nil => "nil"
  | .bool true => "true"
  | .bool false => "false"
  | .number x => x.text
  | .string text => text

/-- Equality as programs see it. -/
def equals (A : Arithmetic) : Datum → Datum → Bool
  | .number x, .number y => A.equal x y
  | v, w => v == w

end Datum

/-! ### Outcomes -/

/-- How a run ends. -/
inductive Ending where
  | finished
  /-- A global is used that has not been defined. -/
  | undefined (name : String)
  /-- An operator for numbers gets something else. -/
  | type
  /-- Something is met that is not part of the fragment. -/
  | fault
deriving DecidableEq, Repr

/-- How far a run has come: how it ended, if it has, and the texts that it printed. -/
abbrev Outcome := Option Ending × List String

/-- The state of a run. -/
structure Store where
  globals : String → Option Datum
  /-- The locals in scope, innermost first. -/
  locals : List (String × Datum)
  output : List String

namespace Store

/-- The state in which a program begins. -/
def start : Store :=
  ⟨fun _ => none, [], []⟩

/-- The value of a name. -/
def find? (σ : Store) (name : String) : Option Datum :=
  match σ.locals.lookup name with
  | some v => some v
  | none => σ.globals name

/-- Give the innermost local of a name another value. -/
def assignLocal? (name : String) (v : Datum) :
    List (String × Datum) → Option (List (String × Datum))
  | [] => none
  | b :: bs =>
    if b.1 = name then some ((name, v) :: bs) else (assignLocal? name v bs).map (b :: ·)

/-- Give a global a value. -/
def define (σ : Store) (name : String) (v : Datum) : Store :=
  { σ with globals := fun n => if n = name then some v else σ.globals n }

/-- Give what a name refers to another value. -/
def assign? (σ : Store) (name : String) (v : Datum) : Option Store :=
  match assignLocal? name v σ.locals with
  | some locals => some { σ with locals := locals }
  | none => if (σ.globals name).isSome then some (σ.define name v) else none

/-- Declare a variable, outside all blocks or in one. -/
def declare (σ : Store) (top : Bool) (name : String) (v : Datum) : Store :=
  if top then σ.define name v else { σ with locals := (name, v) :: σ.locals }

/-- Forget the locals but for the outermost ones. -/
def leave (σ : Store) (count : Nat) : Store :=
  { σ with locals := σ.locals.drop (σ.locals.length - count) }

/-- Print a value. -/
def print (σ : Store) (v : Datum) : Store :=
  { σ with output := σ.output ++ [v.text] }

end Store

/-! ### Expressions -/

/-- The value of a literal. -/
def Literal.datum : Literal → Datum
  | .nil => .nil
  | .true => .bool Bool.true
  | .false => .bool Bool.false

/-- An operator between two numbers. -/
def Datum.numeric (f : Number → Number → Datum) : Datum → Datum → Except Ending Datum
  | .number x, .number y => .ok (f x y)
  | _, _ => .error .type

/-- What an operator in front of its operand does. -/
def UnaryOp.eval (A : Arithmetic) : UnaryOp → Datum → Except Ending Datum
  | .negate, .number x => .ok (.number (A.negate x))
  | .negate, _ => .error .type
  | .not, v => .ok (.bool v.isFalsey)

/-- What an operator between its operands does. -/
def BinaryOp.eval (A : Arithmetic) : BinaryOp → Datum → Datum → Except Ending Datum
  | .equal, v, w => .ok (.bool (v.equals A w))
  | .notEqual, v, w => .ok (.bool (!v.equals A w))
  | .greater, v, w => Datum.numeric (fun x y => .bool (A.greater x y)) v w
  | .greaterEqual, v, w => Datum.numeric (fun x y => .bool (!A.less x y)) v w
  | .less, v, w => Datum.numeric (fun x y => .bool (A.less x y)) v w
  | .lessEqual, v, w => Datum.numeric (fun x y => .bool (!A.greater x y)) v w
  | .add, v, w => Datum.numeric (fun x y => .number (A.add x y)) v w
  | .subtract, v, w => Datum.numeric (fun x y => .number (A.subtract x y)) v w
  | .multiply, v, w => Datum.numeric (fun x y => .number (A.multiply x y)) v w
  | .divide, v, w => Datum.numeric (fun x y => .number (A.divide x y)) v w

/-- The value of an expression and the state behind it. -/
def Expr.eval (A : Arithmetic) : Expr → Store → Except Ending (Datum × Store)
  | .literal l, σ => .ok (l.datum, σ)
  | .number x, σ => .ok (.number x, σ)
  | .string text, σ => .ok (.string text, σ)
  | .variable name, σ =>
    match σ.find? name with
    | some v => .ok (v, σ)
    | none => .error (.undefined name)
  | .assign name e, σ => do
    let (v, σ) ← e.eval A σ
    match σ.assign? name v with
    | some σ => .ok (v, σ)
    | none => .error (.undefined name)
  | .unary op e, σ => do
    let (v, σ) ← e.eval A σ
    return (← op.eval A v, σ)
  | .binary op l r, σ => do
    let (v, σ) ← l.eval A σ
    let (w, σ) ← r.eval A σ
    return (← op.eval A v w, σ)
  | .and l r, σ => do
    let (v, σ) ← l.eval A σ
    if v.isFalsey then return (v, σ) else r.eval A σ
  | .or l r, σ => do
    let (v, σ) ← l.eval A σ
    if v.isFalsey then r.eval A σ else return (v, σ)
  | .call .., _ | .get .., _ | .set .., _ => .error .fault

/-- An expression has no calls and no properties. -/
def Expr.FunctionFree : Expr → Prop
  | .literal _ | .number _ | .string _ | .variable _ => True
  | .assign _ e | .unary _ e => e.FunctionFree
  | .binary _ l r | .and l r | .or l r => l.FunctionFree ∧ r.FunctionFree
  | .call .. | .get .. | .set .. => False

/-! ### Statements -/

/-- The value of an expression in the course of a run, or nil if it is left out. -/
def evalOf (A : Arithmetic) (e : Option Expr) (σ : Store) : Except Outcome (Datum × Store) :=
  match e with
  | none => .ok (.nil, σ)
  | some e => (e.eval A σ).mapError fun ending => (some ending, σ.output)

/-- Whether a condition holds that is true if it is left out. -/
def testOf (A : Arithmetic) (c : Option Expr) (σ : Store) : Except Outcome (Bool × Store) :=
  match c with
  | none => .ok (true, σ)
  | some c => do
    let (v, σ) ← evalOf A (some c) σ
    return (!v.isFalsey, σ)

/-- As many rounds of a loop as there are, up to a bound. -/
def rounds (test : Store → Except Outcome (Bool × Store)) (body : Store → Except Outcome Store) :
    Nat → Store → Except Outcome Store
  | 0, σ => .error (none, σ.output)
  | n + 1, σ => do
    let (more, σ) ← test σ
    if more then rounds test body n (← body σ) else return σ

/-- The state behind a statement, where a loop goes some rounds at most. -/
def Stmt.exec (A : Arithmetic) (fuel : Nat) : Bool → Stmt → Store → Except Outcome Store
  | _, .skip => fun σ => .ok σ
  | top, .seq first second => fun σ => do second.exec A fuel top (← first.exec A fuel top σ)
  | _, .expression e => fun σ => do return (← evalOf A (some e) σ).2
  | _, .print e => fun σ => do
    let (v, σ) ← evalOf A (some e) σ
    return σ.print v
  | top, .branch c yes no => fun σ => do
    let (holds, σ) ← testOf A (some c) σ
    if holds then yes.exec A fuel top σ else no.exec A fuel top σ
  | top, .whileLoop c body => rounds (testOf A (some c)) (body.exec A fuel top) fuel
  | _, .forLoop first c step body => fun σ => do
    let round σ := do return (← evalOf A step (← body.exec A fuel false σ)).2
    let behind ← rounds (testOf A c) round fuel (← first.exec A fuel false σ)
    return behind.leave σ.locals.length
  | _, .block body => fun σ => do
    let behind ← body.exec A fuel false σ
    return behind.leave σ.locals.length
  | top, .varDecl name value => fun σ => do
    let (v, σ) ← evalOf A value σ
    return σ.declare top name v
  | _, .del .. | _, .ret _ | _, .classDecl _ | _, .funDecl .. =>
    fun σ => .error (some .fault, σ.output)

/-- A statement has no functions, classes, calls and properties, and returns from nowhere. -/
def Stmt.FunctionFree : Stmt → Prop
  | .skip => True
  | .seq first second => first.FunctionFree ∧ second.FunctionFree
  | .expression e | .print e => e.FunctionFree
  | .branch c yes no => c.FunctionFree ∧ yes.FunctionFree ∧ no.FunctionFree
  | .whileLoop c body => c.FunctionFree ∧ body.FunctionFree
  | .forLoop first c step body =>
    first.FunctionFree ∧ (∀ e ∈ c, e.FunctionFree) ∧ (∀ e ∈ step, e.FunctionFree) ∧
      body.FunctionFree
  | .block body => body.FunctionFree
  | .varDecl _ value => ∀ e ∈ value, e.FunctionFree
  | .del .. | .ret _ | .classDecl _ | .funDecl .. => False

/-- How far a program comes when a loop goes some rounds at most. -/
def Stmt.evaluate (A : Arithmetic) (program : Stmt) (fuel : Nat) : Outcome :=
  match program.exec A fuel true .start with
  | .ok σ => (some .finished, σ.output)
  | .error outcome => outcome

end LoxBytecode
