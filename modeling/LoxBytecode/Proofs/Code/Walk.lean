import LoxBytecode.Proofs.Code.Scope
import LoxBytecode.Proofs.Syntax.Tree

/-!
# Walking a Program

The code of a program, read off its syntax tree in the order of evaluation: `Expr.walk` and
`Stmt.walk`. A walk never fails. It puts the constants of each function into its pool, keeps the
locals in scope and the variables captured, and notes what the program `Demand`s on its way: a
name that is new in its scope, a slot for a local, a distance that a jump has to cover. A
program is in order when all that it demands is `Met`.

A capture is known here by the variable that it leads to. A function that uses a variable of a
function further out captures it, and so does every function in between.
-/

namespace LoxBytecode

/-! ### Demands -/

/-- What a program asks for somewhere. -/
inductive Demand where
  /-- A name that is declared in a block scope is none of those declared there before. -/
  | fresh (name : String) (others : List String)
  /-- A local that is used belongs to a scope. It does not while its initializer is compiled. -/
  | use (depth : Option Nat)
  /-- A `return` stands in a function. -/
  | returns (kind : FunctionKind)
  /-- A function has so many parameters. -/
  | parameter (n : Nat)
  /-- A call has so many arguments. -/
  | argument (n : Nat)
  /-- A function has so many named locals in scope. -/
  | named (n : Nat)
  /-- A function captures so many variables. -/
  | capture (n : Nat)
  /-- A constant that is named by one byte has an index in the pool. -/
  | shortConstant (index : Nat)
  /-- A constant has an index in the pool. -/
  | constant (index : Nat)
  /-- A jump ahead covers a distance. -/
  | jump (distance : Nat)
  /-- A jump back covers a distance. -/
  | loop (distance : Nat)
deriving DecidableEq, Repr

/-- The demand is met. -/
def Demand.Met : Demand → Prop
  | .fresh name others => name ∉ others
  | .use depth => depth ≠ none
  | .returns kind => kind = .function
  | .parameter n | .argument n | .named n => n ≤ 255
  | .capture n => n ≤ 256
  | .shortConstant index => index ≤ 255
  | .constant index => index < 0x1000000
  | .jump distance | .loop distance => distance ≤ 0xffff

instance : DecidablePred Demand.Met
  | .fresh name others => inferInstanceAs (Decidable (name ∉ others))
  | .use depth => inferInstanceAs (Decidable (depth ≠ none))
  | .returns kind => inferInstanceAs (Decidable (kind = .function))
  | .parameter n | .argument n | .named n => inferInstanceAs (Decidable (n ≤ 255))
  | .capture n => inferInstanceAs (Decidable (n ≤ 256))
  | .shortConstant index => inferInstanceAs (Decidable (index ≤ 255))
  | .constant index => inferInstanceAs (Decidable (index < 0x1000000))
  | .jump distance | .loop distance => inferInstanceAs (Decidable (distance ≤ 0xffff))

/-! ### Functions on the way -/

/-- A constant, without its object in the heap. -/
inductive Constant where
  | plain (v : Value)
  | text (text : String)
  | function
deriving DecidableEq

/-- A function as far as the walk has come in it. -/
structure Draft where
  kind : FunctionKind
  arity : Nat
  scope : Scope
  constants : List Constant
  /-- The variables captured, in the order of their first use: for each how many functions lie
  between, and its slot. -/
  captures : List (Nat × Nat)

namespace Draft

/-- A function of which nothing is walked yet. -/
def start (kind : FunctionKind) : Draft :=
  ⟨kind, 0, ⟨[FunctionState.reserved], 0⟩, [], []⟩

instance (v : Nat × Nat) (d : Draft) : Decidable (v ∈ d.captures) :=
  List.instDecidableMemOfLawfulBEq v d.captures

/-- Capture a variable, once. -/
def capture (v : Nat × Nat) (d : Draft) : Draft :=
  if v ∈ d.captures then d else { d with captures := d.captures ++ [v] }

/-- What capturing a variable demands. -/
def captureDemands (v : Nat × Nat) (d : Draft) : List Demand :=
  if v ∈ d.captures then [] else [.capture (d.captures.length + 1)]

/-- Mark the local in a slot as captured. -/
def mark (slot : Nat) (d : Draft) : Draft :=
  let ls := d.scope.locals
  let marked := ls.modify (ls.length - 1 - slot) fun l => { l with captured := true }
  { d with scope := ⟨marked, d.scope.depth⟩ }

end Draft

/-- The innermost local with a name in some functions, innermost first: the variable, seen from
inside them, and the depth of its scope. -/
def findAround? (name : String) : List Draft → Option ((Nat × Nat) × Option Nat)
  | [] => none
  | d :: ds =>
    match FunctionState.findLocal? name d.scope.locals with
    | some (slot, l) => some ((0, slot), l.depth)
    | none => (findAround? name ds).map fun ((distance, slot), depth) =>
        ((distance + 1, slot), depth)

/-- Capture a variable of the functions around in a function and in those in between. -/
def captureFrom (slot : Nat) : Nat → Draft → List Draft → Draft × List Draft
  | 0, inner, outer :: rest => (inner.capture (0, slot), outer.mark slot :: rest)
  | distance + 1, inner, outer :: rest =>
    let around := captureFrom slot distance outer rest
    (inner.capture (distance + 1, slot), around.1 :: around.2)
  | _, inner, [] => (inner, [])

/-- What that demands. -/
def captureFromDemands (slot : Nat) : Nat → Draft → List Draft → List Demand
  | 0, inner, _ :: _ => inner.captureDemands (0, slot)
  | distance + 1, inner, outer :: rest =>
    captureFromDemands slot distance outer rest ++ inner.captureDemands (distance + 1, slot)
  | _, _, [] => []

/-- How a closure gets a variable that its function captures, when those that the function
around captures are known. -/
def captureOf (outer : List (Nat × Nat)) : Nat × Nat → Capture
  | (0, slot) => ⟨true, slot⟩
  | (distance + 1, slot) => ⟨false, outer.idxOf (distance, slot)⟩

/-- The operand bytes of a capture. -/
def Capture.bytes (c : Capture) : List UInt8 :=
  [if c.isLocal then 1 else 0, c.index.toUInt8]

/-! ### The walk -/

/-- The functions on the way. -/
structure Nest where
  current : Draft
  /-- The functions around the current one, innermost first. -/
  around : List Draft

/-- How far a walk has come. -/
structure Walk extends Nest where
  /-- What was demanded so far. -/
  demands : List Demand

/-- A phrase that was walked: its code, and how far the walk has come behind it. -/
structure Passage where
  code : List UInt8
  after : Walk

namespace Walk

/-- Note a demand. -/
def ask (w : Walk) (d : Demand) : Walk :=
  { w with demands := w.demands ++ [d] }

/-- Change the function being walked. -/
def modify (w : Walk) (f : Draft → Draft) : Walk :=
  { w with current := f w.current }

/-- Change the scope. -/
def modifyScope (w : Walk) (f : Scope → Scope) : Walk :=
  w.modify fun d => { d with scope := f d.scope }

/-! ### Constants -/

/-- The index of the next constant. -/
def pool (w : Walk) : Nat :=
  w.current.constants.length

/-- Add a constant. -/
def addConstant (w : Walk) (c : Constant) : Walk :=
  w.modify fun d => { d with constants := d.constants ++ [c] }

/-- Load a constant. -/
def load (w : Walk) (c : Constant) : Passage :=
  let load := Chunk.loadOf w.pool
  ⟨load.1.toByte :: load.2, (w.addConstant c).ask (.constant w.pool)⟩

/-- Add a constant that an instruction names by one byte. -/
def short (w : Walk) (c : Constant) : UInt8 × Walk :=
  (w.pool.toUInt8, (w.addConstant c).ask (.shortConstant w.pool))

/-! ### Variables -/

/-- How a name is read and written. -/
def access (w : Walk) (name : String) : Access × Walk :=
  match FunctionState.findLocal? name w.current.scope.locals with
  | some (slot, l) => (.local slot.toUInt8, w.ask (.use l.depth))
  | none =>
    match findAround? name w.around with
    | some ((distance, slot), depth) =>
      let drafts := captureFrom slot distance w.current w.around
      (.upvalue (drafts.1.captures.idxOf (distance, slot)).toUInt8,
        { current := drafts.1
          around := drafts.2
          demands := w.demands ++
            (captureFromDemands slot distance w.current w.around ++ [.use depth]) })
    | none =>
      let constant := w.short (.text name)
      (.global constant.1, constant.2)

/-- Declare a local. -/
def declare (w : Walk) (name : String) : Walk :=
  let scope := w.current.scope
  ((w.modifyScope (·.declare name)).ask (.fresh name (scope.owned.map Local.name))).ask
    (.named scope.locals.length)

/-- Declare a variable. A global is named by a constant. -/
def newName (w : Walk) (name : String) : UInt8 × Walk :=
  if w.current.scope.depth = 0 then w.short (.text name) else (0, w.declare name)

/-- Let the variable declared last have its value. -/
def bind (w : Walk) (global : UInt8) : Passage :=
  if w.current.scope.depth = 0 then ⟨[Opcode.defineGlobal.toByte, global], w⟩
  else ⟨[], w.modifyScope Scope.define⟩

/-- Leave a scope. -/
def leave (w : Walk) : Passage :=
  ⟨w.current.scope.owned.map fun l => (if l.captured then Opcode.closeUpvalue else .pop).toByte,
    w.modifyScope Scope.leave⟩

/-! ### Functions -/

/-- Begin a function. -/
def push (w : Walk) : Walk :=
  ⟨⟨.start .function, w.current :: w.around⟩, w.demands⟩

/-- The next parameter of the function. -/
def parameter (w : Walk) (name : String) : Walk :=
  let counted := (w.modify fun d => { d with arity := d.arity + 1 }).ask
    (.parameter (w.current.arity + 1))
  (counted.declare name).modifyScope Scope.define

/-- End the function: how a closure gets its captures, and the function around it. -/
def pop (w : Walk) : List Capture × Walk :=
  match w.around with
  | [] => ([], w)
  | d :: ds => (w.current.captures.map (captureOf d.captures), ⟨⟨d, ds⟩, w.demands⟩)

/-- End the function and make a closure of it. -/
def closure (w : Walk) : Passage :=
  let closed := w.pop
  let constant := closed.2.short .function
  ⟨Opcode.closure.toByte :: constant.1 :: closed.1.flatMap Capture.bytes, constant.2⟩

end Walk

/-! ### Expressions -/

/-- The code of a jump over a distance. -/
def jumpCode (o : Opcode) (distance : Nat) : List UInt8 :=
  o.toByte :: Chunk.bytesOf16 distance

mutual

/-- Walk an expression. -/
def Expr.walk (w : Walk) : Expr → Passage
  | .literal l => ⟨[l.code.toByte], w⟩
  | .number x => w.load (.plain (.number x))
  | .string text => w.load (.text text)
  | .variable name =>
    let found := w.access name
    ⟨[found.1.read.toByte, found.1.operand], found.2⟩
  | .assign name e =>
    let found := w.access name
    let value := e.walk found.2
    ⟨value.code ++ [found.1.write.toByte, found.1.operand], value.after⟩
  | .unary o e =>
    let operand := e.walk w
    ⟨operand.code ++ [o.code.toByte], operand.after⟩
  | .binary o l r =>
    let left := l.walk w
    let right := r.walk left.after
    ⟨left.code ++ right.code ++ o.code.map Opcode.toByte, right.after⟩
  | .and l r =>
    let left := l.walk w
    let right := r.walk left.after
    let skipped := Opcode.pop.toByte :: right.code
    ⟨left.code ++ jumpCode .jumpIfFalse skipped.length ++ skipped,
      right.after.ask (.jump skipped.length)⟩
  | .or l r =>
    let left := l.walk w
    let right := r.walk (left.after.ask (.jump 3))
    let skipped := Opcode.pop.toByte :: right.code
    ⟨left.code ++ jumpCode .jumpIfFalse 3 ++ jumpCode .jump skipped.length ++ skipped,
      right.after.ask (.jump skipped.length)⟩
  | .call f es =>
    let callee := f.walk w
    let values := Expr.walkArguments callee.after 0 es
    ⟨callee.code ++ values.code ++ [Opcode.call.toByte, (min es.length 255).toUInt8],
      values.after⟩
  | .get e name =>
    let object := e.walk w
    let constant := object.after.short (.text name)
    ⟨object.code ++ [Opcode.getProperty.toByte, constant.1], constant.2⟩
  | .set e name v =>
    let object := e.walk w
    let constant := object.after.short (.text name)
    let value := v.walk constant.2
    ⟨object.code ++ value.code ++ [Opcode.setProperty.toByte, constant.1], value.after⟩

/-- Walk the arguments of a call, behind some others. -/
def Expr.walkArguments (w : Walk) (count : Nat) : List Expr → Passage
  | [] => ⟨[], w⟩
  | e :: es =>
    let first := e.walk w
    let others := Expr.walkArguments (first.after.ask (.argument (count + 1))) (count + 1) es
    ⟨first.code ++ others.code, others.after⟩

end

/-- Walk an expression that may be left out. -/
def Expr.walkOption (w : Walk) : Option Expr → Option (List UInt8) × Walk
  | none => (none, w)
  | some e => (some (e.walk w).code, (e.walk w).after)

/-- Walk what a variable or a `return` gets: the value of an expression, or nil. -/
def Expr.walkValue (w : Walk) : Option Expr → Passage
  | none => ⟨[Opcode.nil.toByte], w⟩
  | some e => e.walk w

/-! ### Loops -/

/-- The code of the parts of a loop: of its condition and its step, which may be missing, and of
its body. -/
structure LoopCode where
  condition : Option (List UInt8)
  step : Option (List UInt8)
  body : List UInt8

namespace LoopCode

/-- The length of the test at the head of a loop. -/
def headSize : Option (List UInt8) → Nat
  | none => 0
  | some a => a.length + 4

/-- The distance from behind a step back to the head. -/
def stepBack (condition : Option (List UInt8)) (step : List UInt8) : Nat :=
  headSize condition + 3 + step.length + 4

/-- The code of a step, with the jump back to the head. -/
def stepCode (condition : Option (List UInt8)) (step : List UInt8) : List UInt8 :=
  step ++ Opcode.pop.toByte :: jumpCode .loop (stepBack condition step)

/-- What a step demands. -/
def stepDemands (condition : Option (List UInt8)) : Option (List UInt8) → List Demand
  | none => []
  | some a => [.loop (stepBack condition a), .jump (stepCode condition a).length]

variable (p : LoopCode)

/-- The step with the jump over it. -/
def stepPart : List UInt8 :=
  match p.step with
  | none => []
  | some a => jumpCode .jump (stepCode p.condition a).length ++ stepCode p.condition a

/-- The distance from the end of the loop back to where it goes on. -/
def back : Nat :=
  match p.step with
  | none => headSize p.condition + p.body.length + 3
  | some a => a.length + 4 + p.body.length + 3

/-- What stands between the head of the loop and its exit. -/
def inner : List UInt8 :=
  p.stepPart ++ p.body ++ jumpCode .loop p.back

/-- The whole loop. -/
def code : List UInt8 :=
  match p.condition with
  | none => p.inner
  | some a =>
    a ++ jumpCode .jumpIfFalse (p.inner.length + 1) ++
      Opcode.pop.toByte :: (p.inner ++ [Opcode.pop.toByte])

/-- What the end of the loop demands. -/
def endDemands : List Demand :=
  match p.condition with
  | none => [.loop p.back]
  | some _ => [.loop p.back, .jump (p.inner.length + 1)]

end LoopCode

/-! ### Statements -/

/-- Note some demands. -/
def Walk.askAll (w : Walk) (ds : List Demand) : Walk :=
  { w with demands := w.demands ++ ds }

@[simp] theorem Walk.askAll_nil (w : Walk) : w.askAll [] = w := by
  simp only [askAll, List.append_nil]

@[simp] theorem Walk.askAll_cons (w : Walk) (d : Demand) (ds : List Demand) :
    w.askAll (d :: ds) = (w.ask d).askAll ds := by
  simp only [askAll, ask, List.append_assoc, List.singleton_append]

/-- Walk a statement. -/
def Stmt.walk (w : Walk) : Stmt → Passage
  | .skip => ⟨[], w⟩
  | .seq first second =>
    let a := first.walk w
    let b := second.walk a.after
    ⟨a.code ++ b.code, b.after⟩
  | .expression e =>
    let value := e.walk w
    ⟨value.code ++ [Opcode.pop.toByte], value.after⟩
  | .print e =>
    let value := e.walk w
    ⟨value.code ++ [Opcode.print.toByte], value.after⟩
  | .del object property =>
    let found := w.access object
    let constant := found.2.short (.text property)
    ⟨[found.1.read.toByte, found.1.operand, Opcode.delProperty.toByte, constant.1], constant.2⟩
  | .ret e =>
    let value := Expr.walkValue (w.ask (.returns w.current.kind)) e
    ⟨value.code ++ [Opcode.ret.toByte], value.after⟩
  | .branch c yes no =>
    let condition := c.walk w
    let a := yes.walk condition.after
    let thenSize := a.code.length + 4
    let b := no.walk (a.after.ask (.jump thenSize))
    let elseSize := b.code.length + 1
    ⟨condition.code ++ jumpCode .jumpIfFalse thenSize ++ Opcode.pop.toByte :: a.code ++
        jumpCode .jump elseSize ++ Opcode.pop.toByte :: b.code,
      b.after.ask (.jump elseSize)⟩
  | .whileLoop c s =>
    let condition := c.walk w
    let body := s.walk condition.after
    let loop : LoopCode := ⟨some condition.code, none, body.code⟩
    ⟨loop.code, body.after.askAll loop.endDemands⟩
  | .forLoop first c e s =>
    let start := first.walk (w.modifyScope Scope.enter)
    let condition := Expr.walkOption start.after c
    let step := Expr.walkOption condition.2 e
    let body := s.walk (step.2.askAll (LoopCode.stepDemands condition.1 step.1))
    let loop : LoopCode := ⟨condition.1, step.1, body.code⟩
    let last := (body.after.askAll loop.endDemands).leave
    ⟨start.code ++ loop.code ++ last.code, last.after⟩
  | .block s =>
    let body := s.walk (w.modifyScope Scope.enter)
    let last := body.after.leave
    ⟨body.code ++ last.code, last.after⟩
  | .varDecl name e =>
    let declared := w.newName name
    let value := Expr.walkValue declared.2 e
    let last := value.after.bind declared.1
    ⟨value.code ++ last.code, last.after⟩
  | .classDecl name =>
    let constant := w.short (.text name)
    let declared :=
      if w.current.scope.depth = 0 then constant.2 else constant.2.declare name
    let last := declared.bind constant.1
    ⟨Opcode.newClass.toByte :: constant.1 :: last.code, last.after⟩
  | .funDecl name parameters s =>
    let declared := w.newName name
    let start := (declared.2.modifyScope Scope.define).push.modifyScope Scope.enter
    let body := s.walk (parameters.foldl Walk.parameter start)
    let closure := body.after.closure
    let last := closure.after.bind declared.1
    ⟨closure.code ++ last.code, last.after⟩

/-- The walk at the beginning of a script. -/
def Walk.script : Walk :=
  ⟨⟨.start .script, []⟩, []⟩

/-- What a script demands. -/
def Stmt.demands (program : Stmt) : List Demand :=
  (program.walk .script).after.demands

/-! ### Demands stay -/

namespace Walk

/-- A walk goes on from another one, whose demands it keeps. -/
def Precedes (w w' : Walk) : Prop :=
  ∃ ds, w'.demands = w.demands ++ ds

variable {w w₁ w' : Walk}

/-- A walk precedes itself. -/
theorem Precedes.refl (w : Walk) : w.Precedes w :=
  ⟨[], (List.append_nil _).symm⟩

/-- A walk precedes another with the same demands. -/
theorem Precedes.of_eq (h : w'.demands = w.demands) : w.Precedes w' :=
  ⟨[], h.trans (List.append_nil _).symm⟩

/-- Of three walks in a row the first precedes the last. -/
theorem Precedes.trans (h₁ : w.Precedes w₁) (h₂ : w₁.Precedes w') : w.Precedes w' := by
  obtain ⟨ds, hds⟩ := h₁
  obtain ⟨ds', hds'⟩ := h₂
  exact ⟨ds ++ ds', by rw [hds', hds, List.append_assoc]⟩

/-- One more demand comes behind the others. -/
theorem Precedes.ask (h : w.Precedes w') (d : Demand) : w.Precedes (w'.ask d) :=
  h.trans ⟨[d], rfl⟩

/-- Several more demands come behind the others. -/
theorem Precedes.askAll (h : w.Precedes w') (ds : List Demand) : w.Precedes (w'.askAll ds) :=
  h.trans ⟨ds, rfl⟩

/-- Loading a constant only adds demands. -/
theorem precedes_load (w : Walk) (c : Constant) : w.Precedes (w.load c).after :=
  ⟨_, rfl⟩

/-- Adding a constant only adds demands. -/
theorem precedes_short (w : Walk) (c : Constant) : w.Precedes (w.short c).2 :=
  ⟨_, rfl⟩

/-- Using a name only adds demands. -/
theorem precedes_access (w : Walk) (name : String) : w.Precedes (w.access name).2 := by
  rw [access]
  split
  · exact ⟨_, rfl⟩
  · split
    · exact ⟨_, rfl⟩
    · exact w.precedes_short _

/-- Declaring a name only adds demands. -/
theorem precedes_declare (w : Walk) (name : String) : w.Precedes (w.declare name) :=
  ((Precedes.of_eq rfl).ask _).ask _

/-- Naming a variable, which may be global, only adds demands. -/
theorem precedes_newName (w : Walk) (name : String) : w.Precedes (w.newName name).2 := by
  rw [newName]
  split
  · exact w.precedes_short _
  · exact w.precedes_declare name

/-- Binding a name only adds demands. -/
theorem precedes_bind (w : Walk) (global : UInt8) : w.Precedes (w.bind global).after := by
  rw [bind]
  split
  · exact .refl w
  · exact .of_eq rfl

/-- A parameter only adds demands. -/
theorem precedes_parameter (w : Walk) (name : String) : w.Precedes (w.parameter name) :=
  (((Precedes.of_eq rfl).ask _).trans (precedes_declare _ name)).trans (.of_eq rfl)

/-- All parameters together only add demands. -/
theorem precedes_parameters (w : Walk) (names : List String) :
    w.Precedes (names.foldl parameter w) := by
  induction names generalizing w with
  | nil => exact .refl w
  | cons name names ih => exact (w.precedes_parameter name).trans (ih _)

/-- Ending a function only adds demands. -/
theorem precedes_closure (w : Walk) : w.Precedes w.closure.after := by
  have hpop : w.Precedes w.pop.2 := by
    rw [pop]
    split <;> exact .of_eq rfl
  exact hpop.trans (precedes_short _ _)

end Walk

open Walk

mutual

/-- An expression only adds demands. -/
theorem Expr.precedes_walk (w : Walk) (e : Expr) : w.Precedes (e.walk w).after := by
  cases e <;> rw [Expr.walk]
  case literal => exact .refl w
  case number | string => exact w.precedes_load _
  case «variable» name => exact w.precedes_access name
  case assign name e => exact (w.precedes_access name).trans (e.precedes_walk _)
  case unary o e => exact e.precedes_walk w
  case binary o l r => exact (l.precedes_walk w).trans (r.precedes_walk _)
  case and l r => exact ((l.precedes_walk w).trans (r.precedes_walk _)).ask _
  case or l r => exact (((l.precedes_walk w).ask _).trans (r.precedes_walk _)).ask _
  case call f es => exact (f.precedes_walk w).trans (Expr.precedes_walkArguments _ 0 es)
  case get e name => exact (e.precedes_walk w).trans (precedes_short _ _)
  case set e name v =>
    exact ((e.precedes_walk w).trans (precedes_short _ _)).trans (v.precedes_walk _)

/-- The arguments of a call only add demands. -/
theorem Expr.precedes_walkArguments (w : Walk) (n : Nat) (es : List Expr) :
    w.Precedes (Expr.walkArguments w n es).after := by
  cases es <;> rw [Expr.walkArguments]
  case nil => exact .refl w
  case cons e es =>
    exact ((e.precedes_walk w).ask _).trans (Expr.precedes_walkArguments _ (n + 1) es)

end

/-- A clause only adds demands. -/
theorem Expr.precedes_walkOption (w : Walk) (e : Option Expr) :
    w.Precedes (Expr.walkOption w e).2 := by
  cases e with
  | none => exact .refl w
  | some e => exact e.precedes_walk w

/-- A value only adds demands. -/
theorem Expr.precedes_walkValue (w : Walk) (e : Option Expr) :
    w.Precedes (Expr.walkValue w e).after := by
  cases e with
  | none => exact .refl w
  | some e => exact e.precedes_walk w

/-- A statement only adds demands. -/
theorem Stmt.precedes_walk (w : Walk) (s : Stmt) : w.Precedes (s.walk w).after := by
  have hmodify {w w' : Walk} (h : w.Precedes w') (f : Scope → Scope) :
      w.Precedes (w'.modifyScope f) := h.trans (.of_eq rfl)
  induction s generalizing w with
  | skip => exact .refl w
  | seq first second ih₁ ih₂ => exact (ih₁ w).trans (ih₂ _)
  | expression e | print e => exact e.precedes_walk w
  | del object property => exact (w.precedes_access object).trans (precedes_short _ _)
  | ret e => exact ((Precedes.refl w).ask _).trans (Expr.precedes_walkValue _ e)
  | branch c yes no ih₁ ih₂ =>
      exact ((((c.precedes_walk w).trans (ih₁ _)).ask _).trans (ih₂ _)).ask _
  | whileLoop c s ih => exact ((c.precedes_walk w).trans (ih _)).askAll _
  | forLoop first c e s ih₁ ih₂ =>
      refine hmodify (((((hmodify (.refl w) _).trans (ih₁ _)).trans
        (Expr.precedes_walkOption _ c)).trans (Expr.precedes_walkOption _ e)).askAll _
          |>.trans (ih₂ _) |>.askAll _) _
  | block s ih => exact hmodify ((hmodify (.refl w) _).trans (ih _)) _
  | varDecl name e =>
      exact ((w.precedes_newName name).trans (Expr.precedes_walkValue _ e)).trans
        (precedes_bind _ _)
  | classDecl name =>
      have hdeclare (w : Walk) (c : Prop) [Decidable c] :
          w.Precedes (if c then w else w.declare name) := by
        split
        · exact .refl w
        · exact w.precedes_declare name
      exact ((w.precedes_short (.text name)).trans (hdeclare _ _)).trans (precedes_bind _ _)
  | funDecl name parameters s ih =>
      have hpush {w w' : Walk} (h : w.Precedes w') : w.Precedes w'.push := h.trans (.of_eq rfl)
      have hstart := hmodify (hpush (hmodify (w.precedes_newName name) Scope.define)) Scope.enter
      have hbody := (hstart.trans (precedes_parameters _ parameters)).trans (ih _)
      exact (hbody.trans (precedes_closure _)).trans (precedes_bind _ _)

end LoxBytecode
