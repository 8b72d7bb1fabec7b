import LoxBytecode.Proofs.Code.Scope
import LoxBytecode.Proofs.Heap.Reachability
import LoxBytecode.Proofs.Syntax.Tree
import LoxBytecode.Compile.Statement

/-!
# The Code of a Program

The relations `ExprCode` and `StmtCode` say which code a program may have: in evaluation order,
with every jump leading exactly over the code that it is to skip, and with every operand naming
what it should in the function's `World`, its constants and captures. They leave open only what
the compiler is free to choose, which constant has which index.

A world grows while a function is compiled, and what code means in it stays the same
(`ExprCode.mono`, `StmtCode.mono`).
-/

namespace LoxBytecode

open Heap

/-! ### Worlds -/

/-- What the operands of a function's code refer to. -/
structure World where
  constants : List Value
  heap : Heap
  /-- The captures of the function, and those of the functions around it, innermost first. -/
  tables : List (List Capture)
  /-- The locals in scope of the functions around, innermost first. -/
  around : List Frame

namespace World

/-- The number of the function's captures. -/
def upvalues (w : World) : Nat :=
  (w.tables.headD []).length

/-- A later world of the same function. -/
structure Le (w w' : World) : Prop where
  constants : w.constants <+: w'.constants
  agree : ∀ v, w.heap.Reach w.constants v → w.heap.Agree w'.heap v
  tables : List.Forall₂ (· <+: ·) w.tables w'.tables
  around : w'.around = w.around

/-- Tables that only grow have only grown in the end. -/
theorem forall₂_prefix_trans {ts ts' ts'' : List (List Capture)}
    (h₁ : List.Forall₂ (· <+: ·) ts ts') (h₂ : List.Forall₂ (· <+: ·) ts' ts'') :
    List.Forall₂ (· <+: ·) ts ts'' := by
  induction h₁ generalizing ts'' with
  | nil => exact h₂
  | cons hmore _ ih =>
      cases h₂ with
      | cons hmore' hrest => exact .cons (hmore.trans hmore') (ih hrest)

/-- Every world is as late as itself. -/
theorem Le.refl (w : World) : w.Le w :=
  ⟨List.prefix_refl _, fun v _ => .refl w.heap v,
    List.forall₂_same.mpr fun _ _ => List.prefix_refl _, rfl⟩

/-- Of three worlds in a row the last is later than the first. -/
theorem Le.trans {w w' w'' : World} (h₁ : w.Le w') (h₂ : w'.Le w'') : w.Le w'' where
  constants := h₁.constants.trans h₂.constants
  agree v hv := (h₁.agree v hv).trans
    (h₂.agree v ((hv.of_agree h₁.agree).mono h₁.constants.subset))
  tables := forall₂_prefix_trans h₁.tables h₂.tables
  around := h₂.around.trans h₁.around

/-- Captures only become more. -/
theorem Le.upvalues {w w' : World} (h : w.Le w') : w.upvalues ≤ w'.upvalues := by
  have htables := h.tables
  rw [World.upvalues, World.upvalues]
  generalize w.tables = tables at htables ⊢
  generalize w'.tables = tables' at htables ⊢
  cases htables with
  | nil => exact Nat.le_refl _
  | cons hmore _ => exact hmore.length_le

/-- A constant stays where it is, and so does its object. -/
theorem Le.getElem? {w w' : World} (h : w.Le w') {i : Nat} {v : Value}
    (hv : w.constants[i]? = some v) : w'.constants[i]? = some v ∧ w.heap.Agree w'.heap v := by
  refine ⟨?_, h.agree v (.root (List.mem_of_getElem? hv))⟩
  obtain ⟨rest, hrest⟩ := h.constants
  rw [← hrest, List.getElem?_append_left (List.getElem?_eq_some_iff.mp hv).1, hv]

/-- A string constant with a text. -/
def HasText (w : World) (i : Nat) (text : String) : Prop :=
  ∃ s, w.constants[i]? = some (.string s) ∧ w.heap.strings.get? s.index = some text

/-- The text of a constant stays the same. -/
theorem HasText.mono {w w' : World} (h : w.Le w') {i : Nat} {text : String}
    (hi : w.HasText i text) : w'.HasText i text := by
  obtain ⟨s, hs, htext⟩ := hi
  obtain ⟨hs', hagree⟩ := h.getElem? hs
  exact ⟨s, hs', Eq.trans hagree htext⟩

/-- How a name is read and written at a place: as a local; when there is no such local, as a
capture that leads to the innermost local of a function around; or as a global. -/
inductive Resolves (w : World) (Γ : Scope) (name : String) : Access → Prop
  | local {slot : UInt8} {l : Local} :
      FunctionState.findLocal? name Γ.locals = some (slot.toNat, l) → l.depth ≠ none →
        Resolves w Γ name (.local slot)
  | upvalue {index : UInt8} {p : Nat × Nat} :
      FunctionState.findLocal? name Γ.locals = none → findIn? name w.around = some p →
        originOf? w.tables index.toNat = some p → Resolves w Γ name (.upvalue index)
  | global {i : UInt8} :
      FunctionState.findLocal? name Γ.locals = none → findIn? name w.around = none →
        w.HasText i.toNat name → Resolves w Γ name (.global i)

/-- A name resolves to the same in every later world. -/
theorem Resolves.mono {w w' : World} (h : w.Le w') {Γ : Scope} {name : String}
    {access : Access} (hr : w.Resolves Γ name access) : w'.Resolves Γ name access := by
  cases hr with
  | «local» hfind hdepth => exact .local hfind hdepth
  | upvalue hfind haround horigin =>
      exact .upvalue hfind (h.around ▸ haround) (originOf?_mono h.tables horigin)
  | global hfind haround htext => exact .global hfind (h.around ▸ haround) (htext.mono h)

/-- No access makes a closure. -/
theorem Resolves.ne_closure {w : World} {Γ : Scope} {name : String} {access : Access}
    (h : w.Resolves Γ name access) : access.read ≠ .closure ∧ access.write ≠ .closure := by
  cases h <;> exact ⟨nofun, nofun⟩

/-- A capture that leads somewhere is one of the function's. -/
theorem lt_upvalues {w : World} {index : Nat} {p : Nat × Nat}
    (h : originOf? w.tables index = some p) : index < w.upvalues := by
  rw [upvalues]
  cases htables : w.tables with
  | nil =>
      rw [htables] at h
      cases h
  | cons captures tables =>
      rw [htables] at h
      exact lt_of_originOf? h

/-- The operands of a closure: a function constant with its object, and a pair of bytes for each
of its captures. A capture names a slot in scope, or a capture of the function around. -/
structure MakesClosure (w : World) (Γ : Scope) (o : FunctionObject) (k : UInt8)
    (captures : List Capture) (pairs : List UInt8) : Prop where
  function : ∃ f, w.constants[k.toNat]? = some (.function f) ∧
    w.heap.functions.get? f.index = some o
  count : o.upvalueCount = captures.length
  pairs_eq : CompileM.captureBytes captures = .ok pairs
  valid : ∀ c ∈ captures,
    if c.isLocal then c.index < Γ.locals.length else c.index < w.upvalues

/-- The world of a function that is made at a place. -/
def inside (w : World) (Γ : Scope) (o : FunctionObject) (captures : List Capture) : World :=
  ⟨o.chunk.constants.toList, w.heap, captures :: w.tables, Γ.frame :: w.around⟩

variable {w w' : World} {Γ : Scope} {o : FunctionObject} {k : UInt8} {captures : List Capture}
  {pairs : List UInt8}

/-- A closure makes the same function in every later world. -/
theorem MakesClosure.mono (h : w.Le w') (hm : w.MakesClosure Γ o k captures pairs) :
    w'.MakesClosure Γ o k captures pairs := by
  obtain ⟨⟨f, hf, ho⟩, hcount, hpairs, hvalid⟩ := hm
  obtain ⟨hf', hagree⟩ := h.getElem? hf
  refine ⟨⟨f, hf', Eq.trans hagree ho⟩, hcount, hpairs, fun c hc => ?_⟩
  have hold := hvalid c hc
  split at hold
  next hlocal => rwa [if_pos hlocal]
  next hlocal =>
    rw [if_neg hlocal]
    exact Nat.lt_of_lt_of_le hold h.upvalues

/-- The world of a function grows with that of the function around it. -/
theorem MakesClosure.le_inside (h : w.Le w') (hm : w.MakesClosure Γ o k captures pairs) :
    (w.inside Γ o captures).Le (w'.inside Γ o captures) where
  constants := List.prefix_refl _
  agree v hv := by
    obtain ⟨⟨f, hf, ho⟩, -⟩ := hm
    cases hobject : v.isObject with
    | false => cases v <;> trivial
    | true =>
        refine h.agree v ((reach_function_of_constants ho hv hobject).trans fun u hu => ?_)
        rw [List.mem_singleton.mp hu]
        exact .root (List.mem_of_getElem? hf)
  tables := .cons (List.prefix_refl _) h.tables
  around := congrArg (Γ.frame :: ·) h.around

end World

/-! ### Expressions -/

/-- The distance of a jump over some code fits its operand. -/
def Item.Fits (is : List Item) : Prop :=
  Item.size is ≤ Session.maxJump

/-- The code of some expressions, one behind the other. -/
inductive ExprCode (w : World) (Γ : Scope) : List Expr → List Item → Prop
  | nil : ExprCode w Γ [] []
  | cons {e : Expr} {es : List Expr} {a b : List Item} :
      ExprCode w Γ [e] a → ExprCode w Γ es b → ExprCode w Γ (e :: es) (a ++ b)
  | literal (l : Literal) : ExprCode w Γ [.literal l] [Γ.op l.code []]
  | number {x : Number} {o : Opcode} {operands : List UInt8} {i : Nat} :
      (o, operands) = Chunk.loadOf i → i < Chunk.maxConstants →
        w.constants[i]? = some (.number x) →
          ExprCode w Γ [.number x] [Γ.op o operands]
  | string {text : String} {o : Opcode} {operands : List UInt8} {i : Nat} :
      (o, operands) = Chunk.loadOf i → i < Chunk.maxConstants → w.HasText i text →
        ExprCode w Γ [.string text] [Γ.op o operands]
  | variable {name : String} {access : Access} :
      w.Resolves Γ name access →
        ExprCode w Γ [.variable name] [Γ.op access.read [access.operand]]
  | assign {name : String} {access : Access} {e : Expr} {a : List Item} :
      w.Resolves Γ name access → ExprCode w Γ [e] a →
        ExprCode w Γ [.assign name e] (a ++ [Γ.op access.write [access.operand]])
  | unary {o : UnaryOp} {e : Expr} {a : List Item} :
      ExprCode w Γ [e] a → ExprCode w Γ [.unary o e] (a ++ [Γ.op o.code []])
  | binary {o : BinaryOp} {l r : Expr} {a b : List Item} :
      ExprCode w Γ [l] a → ExprCode w Γ [r] b →
        ExprCode w Γ [.binary o l r] (a ++ b ++ o.code.map (Γ.op · []))
  | and {l r : Expr} {a b : List Item} :
      ExprCode w Γ [l] a → ExprCode w Γ [r] b → Item.Fits (Γ.op .pop [] :: b) →
        ExprCode w Γ [.and l r]
          (a ++ Γ.jump .jumpIfFalse (Γ.op .pop [] :: b) :: Γ.op .pop [] :: b)
  | or {l r : Expr} {a b : List Item} :
      ExprCode w Γ [l] a → ExprCode w Γ [r] b → Item.Fits (Γ.op .pop [] :: b) →
        ExprCode w Γ [.or l r]
          (a ++ Γ.jump .jumpIfFalse [Γ.jump .jump (Γ.op .pop [] :: b)] ::
            Γ.jump .jump (Γ.op .pop [] :: b) :: Γ.op .pop [] :: b)
  | call {f : Expr} {args : List Expr} {a b : List Item} {count : UInt8} :
      ExprCode w Γ [f] a → ExprCode w Γ args b → args.length = count.toNat →
        ExprCode w Γ [.call f args] (a ++ b ++ [Γ.op .call [count]])
  | get {e : Expr} {name : String} {i : UInt8} {a : List Item} :
      ExprCode w Γ [e] a → w.HasText i.toNat name →
        ExprCode w Γ [.get e name] (a ++ [Γ.op .getProperty [i]])
  | set {e v : Expr} {name : String} {i : UInt8} {a b : List Item} :
      ExprCode w Γ [e] a → ExprCode w Γ [v] b → w.HasText i.toNat name →
        ExprCode w Γ [.set e name v] (a ++ b ++ [Γ.op .setProperty [i]])

/-- Code of an expression is code of it in every later world. -/
theorem ExprCode.mono {w w' : World} (h : w.Le w') {Γ : Scope} {es : List Expr}
    {is : List Item} (hc : ExprCode w Γ es is) : ExprCode w' Γ es is := by
  induction hc with
  | nil => exact .nil
  | cons _ _ ihHead ihTail => exact .cons ihHead ihTail
  | literal l => exact .literal l
  | number hload hlt hv => exact .number hload hlt (h.getElem? hv).1
  | string hload hlt htext => exact .string hload hlt (htext.mono h)
  | «variable» hr => exact .variable (hr.mono h)
  | assign hr _ ih => exact .assign (hr.mono h) ih
  | unary _ ih => exact .unary ih
  | binary _ _ ihLeft ihRight => exact .binary ihLeft ihRight
  | and _ _ hfits ihLeft ihRight => exact .and ihLeft ihRight hfits
  | or _ _ hfits ihLeft ihRight => exact .or ihLeft ihRight hfits
  | call _ _ hcount ihCallee ihArguments => exact .call ihCallee ihArguments hcount
  | get _ htext ih => exact .get ih (htext.mono h)
  | set _ _ htext ihObject ihValue => exact .set ihObject ihValue (htext.mono h)

/-- The code of an expression that may be left out. -/
def OptionCode (w : World) (Γ : Scope) : Option Expr → Option (List Item) → Prop :=
  Option.Rel fun e is => ExprCode w Γ [e] is

/-- Code of a clause that may be missing is code of it in every later world. -/
theorem OptionCode.mono {w w' : World} (h : w.Le w') {Γ : Scope} {e : Option Expr}
    {is : Option (List Item)} (hc : OptionCode w Γ e is) : OptionCode w' Γ e is := by
  cases hc with
  | none => exact .none
  | some hc => exact .some (hc.mono h)

/-- The code that pushes a value to start with: that of an expression, or nil. -/
inductive ValueCode (w : World) (Γ : Scope) : Option Expr → List Item → Prop
  | none : ValueCode w Γ none [Γ.op .nil []]
  | some {e : Expr} {is : List Item} : ExprCode w Γ [e] is → ValueCode w Γ (some e) is

/-- Code of a value that may be missing is code of it in every later world. -/
theorem ValueCode.mono {w w' : World} (h : w.Le w') {Γ : Scope} {e : Option Expr}
    {is : List Item} (hc : ValueCode w Γ e is) : ValueCode w' Γ e is := by
  cases hc with
  | none => exact .none
  | some hc => exact .some (hc.mono h)

/-! ### Loops -/

/-- The parts of a loop's code: those of its condition and of its step, which may be missing,
and its body. The scope behind the body is that before it, up to marks. -/
structure LoopParts where
  before : Scope
  after : Scope
  condition : Option (List Item)
  step : Option (List Item)
  body : List Item

namespace LoopParts

variable (p : LoopParts)

/-- The length of the test at the head of the loop. -/
def headSize : Nat :=
  match p.condition with
  | none => 0
  | some a => Item.size a + 4

/-- The step behind the head, up to the jump back to the head. -/
def stepCode (a : List Item) : List Item :=
  a ++ [p.before.op .pop [], p.before.back (p.headSize + 3 + Item.size a + 4)]

/-- The step with the jump over it. -/
def stepPart : List Item :=
  match p.step with
  | none => []
  | some a => p.before.jump .jump (p.stepCode a) :: p.stepCode a

/-- The distance from the end of the loop back to where it goes on. -/
def backDistance : Nat :=
  match p.step with
  | none => p.headSize + Item.size p.body + 3
  | some a => Item.size a + 4 + Item.size p.body + 3

/-- What stands between the head of the loop and its exit. -/
def inner : List Item :=
  p.stepPart ++ p.body ++ [p.after.back p.backDistance]

/-- The whole loop. -/
def items : List Item :=
  match p.condition with
  | none => p.inner
  | some a =>
    a ++ p.before.jump .jumpIfFalse (p.before.op .pop [] :: p.inner) ::
      p.before.op .pop [] :: p.inner ++ [p.after.op .pop []]

/-- All distances fit their operands. -/
structure Fits : Prop where
  exit : ∀ a, p.condition = some a → Item.Fits (p.before.op .pop [] :: p.inner)
  skip : ∀ a, p.step = some a → Item.Fits (p.stepCode a)
  head : ∀ a, p.step = some a → p.headSize + 3 + Item.size a + 4 ≤ Session.maxJump
  back : p.backDistance ≤ Session.maxJump

end LoopParts

/-! ### Statements -/

/-- The code of a statement that begins and ends in some scopes. A function that is declared has
code of its own, which is that of its body and the return of nil. -/
inductive StmtCode : World → Scope → Stmt → List Item → Scope → Prop
  | skip {w : World} (Γ : Scope) : StmtCode w Γ .skip [] Γ
  | seq {w : World} {Γ Γ₁ Γ₂ : Scope} {s₁ s₂ : Stmt} {a b : List Item} :
      StmtCode w Γ s₁ a Γ₁ → StmtCode w Γ₁ s₂ b Γ₂ → StmtCode w Γ (.seq s₁ s₂) (a ++ b) Γ₂
  | marked {w : World} {Γ Γ₁ : Scope} {st : Stmt} {a : List Item} (phrase : Phrase) :
      StmtCode w Γ st a Γ₁ →
        StmtCode w Γ st (Γ.mark (.begins phrase) :: a ++ [Γ₁.mark (.ends phrase)]) Γ₁
  | expression {w : World} {Γ : Scope} {e : Expr} {a : List Item} :
      ExprCode w Γ [e] a → StmtCode w Γ (.expression e) (a ++ [Γ.op .pop []]) Γ
  | print {w : World} {Γ : Scope} {e : Expr} {a : List Item} :
      ExprCode w Γ [e] a → StmtCode w Γ (.print e) (a ++ [Γ.op .print []]) Γ
  | del {w : World} {Γ : Scope} {object property : String} {access : Access} {i : UInt8} :
      w.Resolves Γ object access → w.HasText i.toNat property →
        StmtCode w Γ (.del object property)
          [Γ.op access.read [access.operand], Γ.op .delProperty [i]] Γ
  | ret {w : World} {Γ : Scope} {value : Option Expr} {a : List Item} :
      ValueCode w Γ value a → StmtCode w Γ (.ret value) (a ++ [Γ.op .ret []]) Γ
  | branch {w : World} {Γ Γ₁ Γ₂ : Scope} {c : Expr} {yes no : Stmt} {a b d : List Item} :
      ExprCode w Γ [c] a → StmtCode w Γ yes b Γ₁ → StmtCode w Γ₁ no d Γ₂ →
        Γ.Same Γ₁ → Γ₁.Same Γ₂ →
        Item.Fits (Γ.op .pop [] :: b ++ [Γ₁.jump .jump (Γ₁.op .pop [] :: d)]) →
          Item.Fits (Γ₁.op .pop [] :: d) →
            StmtCode w Γ (.branch c yes no)
              (a ++ Γ.jump .jumpIfFalse
                (Γ.op .pop [] :: b ++ [Γ₁.jump .jump (Γ₁.op .pop [] :: d)]) ::
              Γ.op .pop [] :: b ++ Γ₁.jump .jump (Γ₁.op .pop [] :: d) :: Γ₁.op .pop [] :: d) Γ₂
  | whileLoop {w : World} {Γ Γ₁ : Scope} {c : Expr} {body : Stmt} {a b : List Item} :
      ExprCode w Γ [c] a → StmtCode w Γ body b Γ₁ → Γ.Same Γ₁ →
        (LoopParts.mk Γ Γ₁ (some a) none b).Fits →
          StmtCode w Γ (.whileLoop c body) (LoopParts.mk Γ Γ₁ (some a) none b).items Γ₁
  | forLoop {w : World} {Γ Γ₁ Γ₂ : Scope} {first body : Stmt} {c step : Option Expr}
      {a b : List Item} {head tail : Option (List Item)} :
      StmtCode w Γ.enter first a Γ₁ → OptionCode w Γ₁ c head → OptionCode w Γ₁ step tail →
        StmtCode w Γ₁ body b Γ₂ → Γ₁.Same Γ₂ → (LoopParts.mk Γ₁ Γ₂ head tail b).Fits →
          StmtCode w Γ (.forLoop first c step body)
            (a ++ (LoopParts.mk Γ₁ Γ₂ head tail b).items ++ Γ₂.pops) Γ₂.leave
  | block {w : World} {Γ Γ₁ : Scope} {body : Stmt} {a : List Item} :
      StmtCode w Γ.enter body a Γ₁ → StmtCode w Γ (.block body) (a ++ Γ₁.pops) Γ₁.leave
  | varGlobal {w : World} {Γ : Scope} {name : String} {value : Option Expr} {i : UInt8} {a : List Item} :
      Γ.depth = 0 → w.HasText i.toNat name → ValueCode w Γ value a →
        StmtCode w Γ (.varDecl name value) (a ++ [Γ.op .defineGlobal [i]]) Γ
  | varLocal {w : World} {Γ : Scope} {name : String} {value : Option Expr} {a : List Item} :
      Γ.depth ≠ 0 → Γ.locals.length < maxSlots → ValueCode w (Γ.declare name) value a →
        StmtCode w Γ (.varDecl name value) a (Γ.declare name).define
  | classGlobal {w : World} {Γ : Scope} {name : String} {i : UInt8} :
      Γ.depth = 0 → w.HasText i.toNat name →
        StmtCode w Γ (.classDecl name) [Γ.op .newClass [i], Γ.op .defineGlobal [i]] Γ
  | classLocal {w : World} {Γ : Scope} {name : String} {i : UInt8} :
      Γ.depth ≠ 0 → Γ.locals.length < maxSlots → w.HasText i.toNat name →
        StmtCode w Γ (.classDecl name) [(Γ.declare name).op .newClass [i]] (Γ.declare name).define
  | funGlobal {w : World} {Γ Γ₁ Γ₂ : Scope} {name : String} {parameters : List String}
      {body : Stmt} {i k : UInt8} {o : FunctionObject} {captures : List Capture}
      {pairs : List UInt8} {a : List Item} :
      Γ.depth = 0 → w.HasText i.toNat name → Γ.Same Γ₁ → w.MakesClosure Γ₁ o k captures pairs →
        StmtCode (w.inside Γ₁ o captures) (.ofParameters parameters) body a Γ₂ →
          o.chunk.code.toList = Item.code (a ++ [Γ₂.op .nil [], Γ₂.op .ret []]) →
            StmtCode w Γ (.funDecl name parameters body)
              [Γ₁.op .closure (k :: pairs), Γ₁.op .defineGlobal [i]] Γ₁
  | funLocal {w : World} {Γ Γ₁ Γ₂ : Scope} {name : String} {parameters : List String}
      {body : Stmt} {k : UInt8} {o : FunctionObject} {captures : List Capture}
      {pairs : List UInt8} {a : List Item} :
      Γ.depth ≠ 0 → Γ.locals.length < maxSlots → (Γ.declare name).define.Same Γ₁ →
        w.MakesClosure Γ₁ o k captures pairs →
          StmtCode (w.inside Γ₁ o captures) (.ofParameters parameters) body a Γ₂ →
            o.chunk.code.toList = Item.code (a ++ [Γ₂.op .nil [], Γ₂.op .ret []]) →
              StmtCode w Γ (.funDecl name parameters body) [Γ₁.op .closure (k :: pairs)] Γ₁

/-- Code of a statement is code of it in every later world. -/
theorem StmtCode.mono {w w' : World} (h : w.Le w') {Γ Γ' : Scope} {st : Stmt}
    {is : List Item} (hc : StmtCode w Γ st is Γ') : StmtCode w' Γ st is Γ' := by
  induction hc generalizing w' with
  | skip Γ => exact .skip Γ
  | seq _ _ ihFirst ihSecond => exact .seq (ihFirst h) (ihSecond h)
  | marked phrase _ ih => exact .marked phrase (ih h)
  | expression he => exact .expression (he.mono h)
  | print he => exact .print (he.mono h)
  | del hr htext => exact .del (hr.mono h) (htext.mono h)
  | ret hv => exact .ret (hv.mono h)
  | branch hc _ _ hyes hno hfitsYes hfitsNo ihYes ihNo =>
      exact .branch (hc.mono h) (ihYes h) (ihNo h) hyes hno hfitsYes hfitsNo
  | whileLoop hc _ hsame hfits ih => exact .whileLoop (hc.mono h) (ih h) hsame hfits
  | forLoop _ hc hstep _ hsame hfits ihFirst ihBody =>
      exact .forLoop (ihFirst h) (hc.mono h) (hstep.mono h) (ihBody h) hsame hfits
  | block _ ih => exact .block (ih h)
  | varGlobal hdepth htext hv => exact .varGlobal hdepth (htext.mono h) (hv.mono h)
  | varLocal hdepth hroom hv => exact .varLocal hdepth hroom (hv.mono h)
  | classGlobal hdepth htext => exact .classGlobal hdepth (htext.mono h)
  | classLocal hdepth hroom htext => exact .classLocal hdepth hroom (htext.mono h)
  | funGlobal hdepth htext hsame hm _ hcode ih =>
      exact .funGlobal hdepth (htext.mono h) hsame (hm.mono h) (ih (hm.le_inside h)) hcode
  | funLocal hdepth hroom hsame hm _ hcode ih =>
      exact .funLocal hdepth hroom hsame (hm.mono h) (ih (hm.le_inside h)) hcode

/-- A statement ends in the scope in which it began, with the locals that it declares there. -/
theorem StmtCode.extends {w : World} {Γ Γ' : Scope} {st : Stmt} {is : List Item}
    (hc : StmtCode w Γ st is Γ') (hs : Γ.Settled) : Γ.Extends Γ' := by
  induction hc with
  | skip Γ => exact (Scope.Same.refl Γ).extends
  | seq _ _ ihFirst ihSecond =>
      have hfirst := ihFirst hs
      exact hfirst.trans (ihSecond (hfirst.settled hs))
  | marked _ _ ih => exact ih hs
  | expression | print | del | ret | varGlobal | classGlobal => exact (Scope.Same.refl _).extends
  | branch _ _ _ hyes hno => exact (hyes.trans hno).extends
  | whileLoop _ _ hsame => exact hsame.extends
  | forLoop _ _ _ _ hsame _ ihFirst ihBody =>
      exact (((ihFirst hs.enter).trans hsame.extends).leave hs).1.extends
  | block _ ih => exact ((ih hs.enter).leave hs).1.extends
  | varLocal hdepth _ _ | classLocal hdepth _ _ => exact Scope.extends_define_declare _ hdepth _
  | funGlobal _ _ hsame => exact hsame.extends
  | funLocal hdepth _ hsame =>
      exact (Scope.extends_define_declare _ hdepth _).trans hsame.extends

/-! ### Closures -/

/-- The operands of the closure that makes a function at a place. -/
inductive ClosureCode (w : World) (Γ : Scope) (parameters : List String) (body : Stmt)
    (k : UInt8) (pairs : List UInt8) : Prop
  | intro {Γ₁ : Scope} {o : FunctionObject} {captures : List Capture} {a : List Item} :
      w.MakesClosure Γ o k captures pairs →
        StmtCode (w.inside Γ o captures) (.ofParameters parameters) body a Γ₁ →
          o.chunk.code.toList = Item.code (a ++ [Γ₁.op .nil [], Γ₁.op .ret []]) →
            ClosureCode w Γ parameters body k pairs

/-- Operands of a closure are operands of it in every later world. -/
theorem ClosureCode.mono {w w' : World} (h : w.Le w') {Γ : Scope} {parameters : List String}
    {body : Stmt} {k : UInt8} {pairs : List UInt8} (hc : ClosureCode w Γ parameters body k pairs) :
    ClosureCode w' Γ parameters body k pairs := by
  obtain ⟨hm, hbody, hcode⟩ := hc
  exact .intro (hm.mono h) (hbody.mono (hm.le_inside h)) hcode

end LoxBytecode
