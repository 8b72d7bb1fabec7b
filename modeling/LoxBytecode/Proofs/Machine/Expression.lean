import LoxBytecode.Proofs.Code.Wrote
import LoxBytecode.Proofs.Code.Decoding
import LoxBytecode.Proofs.Machine.Execution

/-!
# Running Expressions

The code of an expression puts the expression's value on the stack. The machine `Mirrors` the
state of an evaluation: above the function that runs, the stack holds the locals in scope, each
in its slot, and above them the values that are waiting to be used. From such a state on, the
code of an expression does what its evaluation does (`ExprCode.computes`).
-/

namespace LoxBytecode

open Heap

/-! ### Values -/

/-- A value of the machine stands for one of a program. -/
inductive Represents (h : Heap) : Datum → Value → Prop
  | nil : Represents h .nil .nil
  | bool (b : Bool) : Represents h (.bool b) (.bool b)
  | number (x : Number) : Represents h (.number x) (.number x)
  | string {text : String} {s : StringHandle} : h.strings.get? s.index = some text →
      Represents h (.string text) (.string s)

section

variable {A : Arithmetic} {h : Heap} {v v' : Datum} {w w' : Value}

/-- A value is falsey if what it represents is. -/
theorem Represents.isFalsey (hr : Represents h v w) : w.isFalsey = v.isFalsey := by
  cases hr with
  | bool b => cases b <;> rfl
  | nil | number | string => rfl

/-- A value is displayed as what it represents. -/
theorem Represents.display (hr : Represents h v w) : h.display w = .ok v.text := by
  cases hr with
  | bool b => cases b <;> rfl
  | nil | number => rfl
  | string htext => rw [Heap.display, Heap.string, htext]; rfl

/-- Strings are interned, so that equal texts have equal handles. -/
theorem Represents.equals (hw : h.Wf) (hr : Represents h v w) (hr' : Represents h v' w') :
    w.equalsBy A w' = v.equals A v' := by
  cases hr with
  | string htext =>
      rename_i text s
      cases hr' with
      | string htext' =>
          rename_i text' s'
          show (Value.string s == Value.string s') = (Datum.string text == Datum.string text')
          rw [Bool.eq_iff_iff, beq_iff_eq, beq_iff_eq, Value.string.injEq, Datum.string.injEq]
          constructor
          · rintro rfl
            exact Option.some.inj (htext.symm.trans htext')
          · rintro rfl
            obtain ⟨i⟩ := s
            obtain ⟨j⟩ := s'
            exact congrArg StringHandle.mk (hw.unique _ _ _ htext htext')
      | nil | bool | number => rfl
  | bool b =>
      cases hr' with
      | bool b' => cases b <;> cases b' <;> rfl
      | nil | number | string => rfl
  | nil | number => cases hr' <;> rfl

end

/-! ### Stacks -/

namespace Machine

/-- A slot is counted from the bottom of the stack. -/
theorem slot?_append (vs : List Value) (v : Value) (ws : List Value) :
    slot? ws.length (vs ++ v :: ws) = some v := by
  induction vs with
  | nil => rw [List.nil_append, slot?, if_pos rfl]
  | cons v' vs ih =>
      rw [List.cons_append, slot?, if_neg, ih]
      simp only [List.length_append, List.length_cons]
      omega

/-- A slot that is assigned to is counted from the bottom of the stack. -/
theorem setSlot_append (vs : List Value) (v u : Value) (ws : List Value) :
    setSlot ws.length u (vs ++ v :: ws) = vs ++ u :: ws := by
  induction vs with
  | nil => rw [List.nil_append, setSlot, if_pos rfl, List.nil_append]
  | cons v' vs ih =>
      rw [List.cons_append, setSlot, if_neg, ih, List.cons_append]
      simp only [List.length_append, List.length_cons]
      omega

end Machine

/-- The bindings of a name: those before and behind the innermost one, whose slot is counted from
behind. Slot 0 belongs to no name. -/
theorem Store.binding_cases {name : String} (hname : name ≠ "") (bs : List (String × Datum)) :
    (bs.lookup name = none ∧ (∀ v, assignLocal? name v bs = none) ∧
      slotOf? name (bs.map Prod.fst ++ [""]) = none) ∨
    ∃ before v after, bs = before ++ (name, v) :: after ∧ bs.lookup name = some v ∧
      (∀ u, assignLocal? name u bs = some (before ++ (name, u) :: after)) ∧
      slotOf? name (bs.map Prod.fst ++ [""]) = some (after.length + 1) := by
  induction bs with
  | nil =>
      refine Or.inl ⟨rfl, fun _ => rfl, ?_⟩
      rw [List.map_nil, List.nil_append, slotOf?, if_neg (Ne.symm hname), slotOf?]
  | cons b bs ih =>
      obtain ⟨name', v⟩ := b
      by_cases heq : name' = name
      · subst heq
        refine Or.inr ⟨[], v, bs, rfl, by simp, fun u => ?_, ?_⟩
        · rw [assignLocal?, if_pos rfl, List.nil_append]
        · simp [slotOf?]
      · have hlookup : ((name', v) :: bs).lookup name = bs.lookup name := by
          rw [List.lookup_cons, beq_false_of_ne (Ne.symm heq)]
        have hslot : slotOf? name (((name', v) :: bs).map Prod.fst ++ [""]) =
            slotOf? name (bs.map Prod.fst ++ [""]) := by
          rw [List.map_cons, List.cons_append, slotOf?, if_neg heq]
        have hassign : ∀ u, assignLocal? name u ((name', v) :: bs) =
            (assignLocal? name u bs).map ((name', v) :: ·) := by
          intro u
          rw [assignLocal?, if_neg heq]
        rw [hlookup, hslot]
        rcases ih with ⟨hnone, hassignNone, hslotNone⟩ | ⟨before, u, after, rfl, hfind, hset, hat⟩
        · exact Or.inl ⟨hnone, fun u => by rw [hassign, hassignNone]; rfl, hslotNone⟩
        · exact Or.inr ⟨(name', v) :: before, u, after, rfl, hfind,
            fun u => by rw [hassign, hset]; rfl, hat⟩

/-! ### States -/

/-- The machine is where an evaluation is, with some values waiting on the stack. -/
structure Mirrors (h : Heap) (Γ : Scope) (σ : Store) (waiting : List Datum) (pc : Nat)
    (m : Machine) : Prop where
  pc : m.pc = pc
  stack : ∃ vs bottom, m.stack = vs ++ [bottom] ∧
    List.Forall₂ (Represents h) (waiting ++ σ.locals.map Prod.snd) vs
  frame : Γ.frame = σ.locals.map Prod.fst ++ [""]
  globals : ∀ name, Option.Rel (Represents h) (σ.globals name) (m.globals name)
  output : m.output = σ.output

section

variable {A : Arithmetic} {h : Heap} {Γ Γ' : Scope} {σ : Store} {waiting : List Datum} {pc : Nat}
  {m : Machine} {v : Datum} {w : Value}

/-- Only the names and slots of a scope matter to what mirrors it. -/
theorem Mirrors.of_same (hm : Mirrors h Γ σ waiting pc m) (hsame : Γ.Same Γ') :
    Mirrors h Γ' σ waiting pc m :=
  { hm with frame := hsame.frame.trans hm.frame }

/-- Another value is pushed. -/
theorem Mirrors.push (hm : Mirrors h Γ σ waiting pc m) (hr : Represents h v w) (next : Nat) :
    Mirrors h Γ σ (v :: waiting) next ({ m with pc := next }.push w) := by
  obtain ⟨vs, bottom, hstack, hvs⟩ := hm.stack
  refine { hm with pc := rfl, stack := ⟨w :: vs, bottom, ?_, .cons hr hvs⟩ }
  rw [Machine.push, hstack]
  rfl

/-- The topmost values are exchanged for another one. -/
theorem Mirrors.pop (hm : Mirrors h Γ σ (v :: waiting) pc m) :
    ∃ w ws, m.stack = w :: ws ∧ Represents h v w ∧
      ∀ next, Mirrors h Γ σ waiting next { m with pc := next, stack := ws } := by
  obtain ⟨vs, bottom, hstack, hvs⟩ := hm.stack
  cases hvs with
  | @cons _ w _ ws hr hws =>
      exact ⟨w, ws ++ [bottom], hstack, hr,
        fun next => { hm with pc := rfl, stack := ⟨ws, bottom, rfl, hws⟩ }⟩

end

/-! ### Computations -/

section

variable {A : Arithmetic} {h : Heap} {c : Chunk} {m : Machine} {α β : Type}

/-- The machine does what the evaluation of an expression does, without printing. -/
def Machine.Computes (A : Arithmetic) (h : Heap) (c : Chunk) (m : Machine)
    (result : Except Ending α) (Q : α → Machine → Prop) : Prop :=
  match result with
  | .ok a => ∃ n m', Machine.Steps A h c n m m' ∧ m'.output = m.output ∧ Q a m'
  | .error ending => ending ≠ .fault ∧
    ∃ n, Machine.execute A h c n m = (some ending, m.output)

namespace Machine.Computes

/-- A machine that is there has computed. -/
theorem here {a : α} {Q : α → Machine → Prop} (hQ : Q a m) :
    Machine.Computes A h c m (.ok a) Q :=
  ⟨0, m, .refl m, rfl, hQ⟩

/-- One step that prints nothing computes what it leads to. -/
theorem step {a : α} {m' : Machine} {Q : α → Machine → Prop}
    (hstep : Machine.step A h c m = .ok m') (houtput : m'.output = m.output) (hQ : Q a m') :
    Machine.Computes A h c m (.ok a) Q :=
  ⟨1, m', .one hstep, houtput, hQ⟩

/-- One step that ends computes that end. -/
theorem ends {ending : Ending} {Q : α → Machine → Prop}
    (hstep : Machine.step A h c m = .error ending) (hfault : ending ≠ .fault) :
    Machine.Computes A h c m (.error ending) Q := by
  refine ⟨hfault, 1, ?_⟩
  rw [Machine.execute, hstep]

/-- Steps that print nothing may come first. -/
theorem behind {n : Nat} {m' : Machine} {result : Except Ending α} {Q : α → Machine → Prop}
    (hs : Machine.Steps A h c n m m') (houtput : m'.output = m.output)
    (hc : Machine.Computes A h c m' result Q) : Machine.Computes A h c m result Q := by
  cases result with
  | ok a =>
      obtain ⟨k, m'', hs', houtput', hQ⟩ := hc
      exact ⟨n + k, m'', hs.trans hs', houtput'.trans houtput, hQ⟩
  | error ending =>
      obtain ⟨hfault, k, hend⟩ := hc
      exact ⟨hfault, n + k, houtput ▸ (Machine.execute_add hs k).trans hend⟩

/-- To compute one thing after the other is to compute both. -/
theorem bind {result : Except Ending α} {f : α → Except Ending β} {Q : α → Machine → Prop}
    {R : β → Machine → Prop} (hc : Machine.Computes A h c m result Q)
    (hnext : ∀ a m', Q a m' → Machine.Computes A h c m' (f a) R) :
    Machine.Computes A h c m (result >>= f) R := by
  cases result with
  | ok a =>
      obtain ⟨k, m', hs, houtput, hQ⟩ := hc
      exact (hnext a m' hQ).behind hs houtput
  | error ending => exact hc

/-- Behind a computation that ends well. -/
theorem next {a : α} {result : Except Ending β} {Q : α → Machine → Prop}
    {R : β → Machine → Prop} (hc : Machine.Computes A h c m (.ok a) Q)
    (hnext : ∀ m', Q a m' → Machine.Computes A h c m' result R) :
    Machine.Computes A h c m result R := by
  obtain ⟨k, m', hs, houtput, hQ⟩ := hc
  exact (hnext m' hQ).behind hs houtput

/-- What computes a value follows it in the course of a run. -/
theorem follows {least : Nat} {result : Except Ending α} {Q : α → Machine → Prop}
    (hc : Machine.Computes A h c m result Q) :
    Machine.Follows A h c least m
      (result.mapError fun ending => (some ending, m.output)) Q := by
  cases result with
  | ok a =>
      obtain ⟨k, m', hs, -, hQ⟩ := hc
      exact ⟨k, m', hs, hQ⟩
  | error ending =>
      obtain ⟨hfault, k, hend⟩ := hc
      exact ⟨fun heq => hfault (Option.some.inj heq), k, hend, by simp⟩

/-- A computation that ends well, before the rest of a run. -/
theorem before {least : Nat} {a : α} {result : Except Outcome β} {Q : α → Machine → Prop}
    {R : β → Machine → Prop} (hc : Machine.Computes A h c m (.ok a) Q)
    (hnext : ∀ m', Q a m' → Machine.Follows A h c least m' result R) :
    Machine.Follows A h c least m result R := by
  obtain ⟨k, m', hs, -, hQ⟩ := hc
  exact (hnext m' hQ).behind hs

end Machine.Computes

end

/-! ### Instructions -/

section

variable {A : Arithmetic} {h : Heap} {o : FunctionObject} {Γ Γ' : Scope} {σ : Store}
  {waiting : List Datum} {pc : Nat} {m : Machine} {v : Datum} {is : List Item} {op : Opcode}
  {operands : List UInt8} {operand : Operand}

/-- A step performs the instruction at its place. -/
theorem Machine.step_eq (hpc : m.pc = pc) (hholds : o.chunk.Holds pc (Γ'.op op operands :: is))
    (hencoded : Operand.Encoded op.format operands operand) :
    Machine.step A h o.chunk m =
      Machine.perform A h o.chunk { m with pc := pc + 1 + op.operandSize } op operand := by
  rw [step, hpc, hholds.decode hencoded]

/-- A step of a machine that mirrors the environment performs the instruction at its place. -/
theorem Mirrors.step_eq (hm : Mirrors h Γ σ waiting pc m)
    (hholds : o.chunk.Holds pc (Γ'.op op operands :: is))
    (hencoded : Operand.Encoded op.format operands operand) :
    Machine.step A h o.chunk m =
      Machine.perform A h o.chunk { m with pc := pc + 1 + op.operandSize } op operand :=
  Machine.step_eq hm.pc hholds hencoded

/-- The value of an expression waits on the stack, and the code goes on at an offset. -/
abbrev Waits (h : Heap) (Γ : Scope) (waiting : List Datum) (pc : Nat)
    (result : Datum × Store) (m : Machine) : Prop :=
  Mirrors h Γ result.2 (result.1 :: waiting) pc m

/-- An instruction that pushes a value. -/
theorem Mirrors.computes_push {w : Value} {next : Nat} (hm : Mirrors h Γ σ waiting pc m)
    (hr : Represents h v w)
    (hstep : Machine.step A h o.chunk m = .ok ({ m with pc := next }.push w)) :
    Machine.Computes A h o.chunk m (.ok (v, σ)) (Waits h Γ waiting next) :=
  .step hstep rfl (hm.push hr next)

/-- An operator of the machine does what one of programs does. -/
inductive Agrees (h : Heap) : Except Ending Datum → Except Ending Value → Prop
  | ok {v : Datum} {w : Value} : Represents h v w → Agrees h (.ok v) (.ok w)
  | error {ending : Ending} : ending ≠ .fault → Agrees h (.error ending) (.error ending)

/-- To replace the value on top is to apply a function to it. -/
theorem Machine.replace_eq {v : Value} {vs : List Value} (hstack : m.stack = v :: vs)
    (f : Value → Except Ending Value) :
    m.replace f = (f v).map fun w => { m with stack := w :: vs } := by
  rw [replace, hstack]
  cases hv : f v <;> simp only [hv] <;> rfl

/-- To combine the two on top is to apply one to both. -/
theorem Machine.combine_eq {v w : Value} {vs : List Value} (hstack : m.stack = w :: v :: vs)
    (f : Value → Value → Except Ending Value) :
    m.combine f = (f v w).map fun u => { m with stack := u :: vs } := by
  rw [combine, hstack]
  cases hv : f v w <;> simp only [hv] <;> rfl

/-- An operator on one operand is computed by a step that agrees with it. -/
theorem Mirrors.computes_replace {f : Datum → Except Ending Datum}
    {g : Value → Except Ending Value} {next : Nat} (hm : Mirrors h Γ σ (v :: waiting) pc m)
    (hfg : ∀ w, Represents h v w → Agrees h (f v) (g w))
    (hstep : Machine.step A h o.chunk m = { m with pc := next }.replace g) :
    Machine.Computes A h o.chunk m (do return (← f v, σ)) (Waits h Γ waiting next) := by
  obtain ⟨w, ws, hstack, hr, hpop⟩ := hm.pop
  rw [Machine.replace_eq (m := { m with pc := next }) hstack] at hstep
  have hagrees := hfg w hr
  generalize f v = result at hagrees ⊢
  generalize g w = result' at hagrees hstep
  cases hagrees with
  | ok hr' => exact .step hstep rfl ((hpop next).push hr' next)
  | error hfault => exact .ends hstep hfault

/-- An operator on two operands is computed by a step that agrees with it. -/
theorem Mirrors.computes_combine {f : Datum → Datum → Except Ending Datum}
    {g : Value → Value → Except Ending Value} {v' : Datum} {next : Nat}
    (hm : Mirrors h Γ σ (v' :: v :: waiting) pc m)
    (hfg : ∀ w w', Represents h v w → Represents h v' w' → Agrees h (f v v') (g w w'))
    (hstep : Machine.step A h o.chunk m = { m with pc := next }.combine g) :
    Machine.Computes A h o.chunk m (do return (← f v v', σ)) (Waits h Γ waiting next) := by
  obtain ⟨w', ws', hstack', hr', hpop'⟩ := hm.pop
  obtain ⟨w, ws, hstack, hr, hpop⟩ := (hpop' next).pop
  obtain rfl : ws' = w :: ws := hstack
  rw [Machine.combine_eq (m := { m with pc := next }) hstack'] at hstep
  have hagrees := hfg w w' hr hr'
  generalize f v v' = result at hagrees ⊢
  generalize g w w' = result' at hagrees hstep
  cases hagrees with
  | ok hr' => exact .step hstep rfl ((hpop next).push hr' next)
  | error hfault => exact .ends hstep hfault

/-- An operator in front of its operand is computed by its instruction. -/
theorem Mirrors.computes_unary (hm : Mirrors h Γ σ (v :: waiting) pc m) (u : UnaryOp)
    (hholds : o.chunk.Holds pc (Γ'.op u.code [] :: is)) :
    Machine.Computes A h o.chunk m (do return (← u.eval A v, σ)) (Waits h Γ waiting (pc + 1)) := by
  cases u with
  | not =>
      refine hm.computes_replace (fun w hr => .ok ?_) (hm.step_eq hholds (.none []))
      rw [hr.isFalsey]
      exact .bool _
  | negate =>
      refine hm.computes_replace (fun w hr => ?_) (hm.step_eq hholds (.none []))
      cases hr with
      | number x => exact .ok (.number _)
      | nil | bool | string => exact .error (by decide)

/-- Operations on numbers agree if they agree on numbers; on others both end. -/
theorem agrees_numeric {f : Number → Number → Datum} {g : Number → Number → Value}
    (hfg : ∀ x y, Represents h (f x y) (g x y)) {v v' : Datum} {w w' : Value}
    (hr : Represents h v w) (hr' : Represents h v' w') :
    Agrees h (Datum.numeric f v v') (Value.numeric g w w') := by
  cases hr with
  | number x =>
      cases hr' with
      | number y => exact .ok (hfg x y)
      | nil | bool | string => exact .error (by decide)
  | nil | bool | string => exact .error (by decide)

/-- A comparison that is the negation of another one. -/
theorem numeric_not (f : Number → Number → Bool) (v v' : Datum) (A : Arithmetic) :
    Datum.numeric (fun x y => .bool (!f x y)) v v' =
      (do UnaryOp.not.eval A (← Datum.numeric (fun x y => .bool (f x y)) v v')) := by
  cases v with
  | number x =>
      cases v' with
      | number y =>
          show Except.ok (Datum.bool (!f x y)) = .ok (.bool (Datum.bool (f x y)).isFalsey)
          cases f x y <;> rfl
      | nil | bool | string => rfl
  | nil | bool | string => rfl

/-- A negation behind another operator negates its result. -/
theorem Mirrors.computes_not {result : Except Ending Datum}
    (hresult : Machine.Computes A h o.chunk m (do return (← result, σ)) (Waits h Γ waiting pc))
    (hholds : o.chunk.Holds pc (Γ'.op .not [] :: is)) :
    Machine.Computes A h o.chunk m (do return (← (do UnaryOp.not.eval A (← result)), σ))
      (Waits h Γ waiting (pc + 1)) := by
  have hboth := hresult.bind fun a m' hm' => hm'.computes_unary (A := A) .not hholds
  cases result <;> exact hboth

/-- An operator between its operands is computed by its instructions. -/
theorem Mirrors.computes_binary (hw : h.Wf) {v' : Datum}
    (hm : Mirrors h Γ σ (v' :: v :: waiting) pc m) (b : BinaryOp)
    (hholds : o.chunk.Holds pc (b.code.map (Γ'.op · []))) :
    Machine.Computes A h o.chunk m (do return (← b.eval A v v', σ))
      (Waits h Γ waiting (pc + Item.size (b.code.map (Γ'.op · [])))) := by
  have hequal : ∀ {is : List Item}, o.chunk.Holds pc (Γ'.op .equal [] :: is) →
      Machine.Computes A h o.chunk m (do return (← BinaryOp.equal.eval A v v', σ))
        (Waits h Γ waiting (pc + 1)) := fun hholds =>
    hm.computes_combine (fun w w' hr hr' => .ok (hr.equals hw hr' ▸ .bool _))
      (hm.step_eq hholds (.none []))
  have hgreater : ∀ {is : List Item}, o.chunk.Holds pc (Γ'.op .greater [] :: is) →
      Machine.Computes A h o.chunk m (do return (← BinaryOp.greater.eval A v v', σ))
        (Waits h Γ waiting (pc + 1)) := fun hholds =>
    hm.computes_combine (fun w w' => agrees_numeric fun x y => .bool _)
      (hm.step_eq hholds (.none []))
  have hless : ∀ {is : List Item}, o.chunk.Holds pc (Γ'.op .less [] :: is) →
      Machine.Computes A h o.chunk m (do return (← BinaryOp.less.eval A v v', σ))
        (Waits h Γ waiting (pc + 1)) := fun hholds =>
    hm.computes_combine (fun w w' => agrees_numeric fun x y => .bool _)
      (hm.step_eq hholds (.none []))
  cases b with
  | equal => exact hequal hholds
  | greater => exact hgreater hholds
  | less => exact hless hholds
  | add | subtract | multiply | divide =>
      exact hm.computes_combine (fun w w' => agrees_numeric fun x y => .number _)
        (hm.step_eq hholds (.none []))
  | notEqual =>
      have heval : BinaryOp.notEqual.eval A v v' =
          (do UnaryOp.not.eval A (← BinaryOp.equal.eval A v v')) := by
        show Except.ok (Datum.bool (!v.equals A v')) =
          .ok (.bool (Datum.bool (v.equals A v')).isFalsey)
        cases v.equals A v' <;> rfl
      rw [heval]
      exact Mirrors.computes_not (hequal hholds) hholds.of_instr
  | greaterEqual =>
      rw [BinaryOp.eval, numeric_not A.less]
      exact Mirrors.computes_not (hless hholds) hholds.of_instr
  | lessEqual =>
      rw [BinaryOp.eval, numeric_not A.greater]
      exact Mirrors.computes_not (hgreater hholds) hholds.of_instr

end

/-! ### Variables -/

section

variable {A : Arithmetic} {w : World} {h : Heap} {o : FunctionObject} {Γ Γ' : Scope} {σ : Store}
  {waiting : List Datum} {pc : Nat} {m : Machine} {v : Datum} {is : List Item} {name : String}
  {access : Access}

/-- The machine reads the name that the compiler wrote. -/
theorem World.HasText.name? (hw : w.Describes h o) {i : Nat} {text : String}
    (htext : w.HasText i text) : Machine.name? h o.chunk i = some text := by
  obtain ⟨s, hs, hget⟩ := htext
  rw [hw.constants, Array.getElem?_toList] at hs
  rw [hw.heap] at hget
  rw [Machine.name?, hs]
  exact hget

/-- What corresponds to two lists in a row is two lists in a row. -/
theorem exists_append_of_forall₂ {α β : Type} {R : α → β → Prop} {xs ys : List α} {zs : List β}
    (hall : List.Forall₂ R (xs ++ ys) zs) :
    ∃ us vs, zs = us ++ vs ∧ List.Forall₂ R xs us ∧ List.Forall₂ R ys vs := by
  induction xs generalizing zs with
  | nil => exact ⟨[], zs, rfl, .nil, hall⟩
  | cons x xs ih =>
      cases hall with
      | cons hx hrest =>
          obtain ⟨us, vs, rfl, hus, hvs⟩ := ih hrest
          exact ⟨_ :: us, vs, rfl, .cons hx hus, hvs⟩

/-- A local lies in its slot, with the values of the others above it and below. -/
theorem Mirrors.exists_local (hm : Mirrors h Γ σ waiting pc m) (hname : name ≠ "") {slot : Nat}
    (hslot : slotOf? name Γ.frame = some slot) : ∃ before v after us u ws bottom,
      σ.locals = before ++ (name, v) :: after ∧ σ.locals.lookup name = some v ∧
      (∀ v', Store.assignLocal? name v' σ.locals = some (before ++ (name, v') :: after)) ∧
      m.stack = us ++ u :: (ws ++ [bottom]) ∧ (ws ++ [bottom]).length = slot ∧
      List.Forall₂ (Represents h) (waiting ++ before.map Prod.snd) us ∧ Represents h v u ∧
      List.Forall₂ (Represents h) (after.map Prod.snd) ws := by
  obtain ⟨vs, bottom, hstack, hvs⟩ := hm.stack
  rw [hm.frame] at hslot
  rcases Store.binding_cases hname σ.locals with
    ⟨-, -, hnone⟩ | ⟨before, v, after, hlocals, hfind, hassign, hat⟩
  · rw [hnone] at hslot
    cases hslot
  · obtain rfl : after.length + 1 = slot := Option.some.inj (hat.symm.trans hslot)
    rw [hlocals, List.map_append, List.map_cons, ← List.append_assoc] at hvs
    obtain ⟨us, ws', rfl, hus, hws'⟩ := exists_append_of_forall₂ hvs
    cases hws' with
    | @cons _ u _ ws hr hws =>
      refine ⟨before, v, after, us, u, ws, bottom, hlocals, hfind, hassign, ?_, ?_, hus, hr, hws⟩
      · rw [hstack, List.append_assoc, List.cons_append]
      · rw [List.length_append, ← hws.length_eq, List.length_map, List.length_singleton]

/-- A name without a slot is none of the locals. -/
theorem Mirrors.lookup_eq_none (hm : Mirrors h Γ σ waiting pc m) (hname : name ≠ "")
    (hslot : slotOf? name Γ.frame = none) : σ.locals.lookup name = none ∧
      ∀ v, Store.assignLocal? name v σ.locals = none := by
  rw [hm.frame] at hslot
  rcases Store.binding_cases hname σ.locals with
    ⟨hnone, hassign, -⟩ | ⟨before, v, after, -, -, -, hat⟩
  · exact ⟨hnone, hassign⟩
  · rw [hslot] at hat
    cases hat

/-- Reading a variable pushes its value. -/
theorem Mirrors.computes_read (hw : w.Describes h o) (haround : w.around = [])
    (hm : Mirrors h Γ σ waiting pc m) (hname : name ≠ "") (hr : w.Resolves Γ name access)
    (hholds : o.chunk.Holds pc (Γ'.op access.read [access.operand] :: is)) :
    Machine.Computes A h o.chunk m ((Expr.variable name).eval A σ)
      (Waits h Γ waiting (pc + 2)) := by
  have hfound := slotOf?_eq name Γ.locals
  cases hr with
  | @«local» slot l hlocal =>
      replace hfound : slotOf? name Γ.frame = some slot.toNat := by rwa [hlocal] at hfound
      obtain ⟨before, v, after, us, u, ws, bottom, -, hfind, -, hstack, hlength, -, hu, -⟩ :=
        hm.exists_local hname hfound
      have hstep : Machine.step A h o.chunk m =
          Machine.perform A h o.chunk { m with pc := pc + 2 } .getLocal (.byte slot) :=
        hm.step_eq hholds (.byte slot [])
      have hslot : Machine.slot? slot.toNat m.stack = some u := by
        rw [hstack, ← hlength, Machine.slot?_append]
      rw [Machine.perform, hslot] at hstep
      rw [Expr.eval, Store.find?, hfind]
      exact hm.computes_push hu hstep
  | upvalue _ hout =>
      rw [haround] at hout
      cases hout
  | @global i hlocal _ htext =>
      rw [hlocal] at hfound
      obtain ⟨hnone, -⟩ := hm.lookup_eq_none hname hfound
      have hstep : Machine.step A h o.chunk m =
          Machine.perform A h o.chunk { m with pc := pc + 2 } .getGlobal (.constant i.toNat) :=
        hm.step_eq hholds (.constant i [])
      rw [Machine.perform, htext.name? hw] at hstep
      rw [Expr.eval, Store.find?, hnone]
      have hglobal := hm.globals name
      generalize σ.globals name = found at hglobal ⊢
      cases hfound' : m.globals name with
      | none =>
          rw [hfound'] at hglobal
          simp only [hfound'] at hstep
          cases hglobal with
          | none => exact .ends hstep (by simp)
      | some u =>
          rw [hfound'] at hglobal
          simp only [hfound'] at hstep
          cases hglobal with
          | some hu => exact hm.computes_push hu hstep

/-- A global has a value for the machine when it has one for the program. -/
theorem Mirrors.isSome_globals (hm : Mirrors h Γ σ waiting pc m) (name : String) :
    (m.globals name).isSome = (σ.globals name).isSome := by
  have hglobal := hm.globals name
  generalize σ.globals name = found at hglobal ⊢
  generalize m.globals name = found' at hglobal ⊢
  cases hglobal <;> rfl

/-- Giving a global a value does so on both sides. -/
theorem Mirrors.define {u : Value} (hm : Mirrors h Γ σ waiting pc m) (hu : Represents h v u)
    (name : String) : Mirrors h Γ (σ.define name v) waiting pc (m.define name u) where
  pc := hm.pc
  stack := hm.stack
  frame := hm.frame
  globals name' := by
    show Option.Rel _ (if name' = name then some v else σ.globals name')
      (if name' = name then some u else m.globals name')
    split
    · exact .some hu
    · exact hm.globals name'
  output := hm.output

/-- Assigning to a variable leaves the value on the stack. -/
theorem Mirrors.computes_write (hw : w.Describes h o) (haround : w.around = [])
    (hm : Mirrors h Γ σ (v :: waiting) pc m) (hname : name ≠ "")
    (hr : w.Resolves Γ name access)
    (hholds : o.chunk.Holds pc (Γ'.op access.write [access.operand] :: is)) :
    Machine.Computes A h o.chunk m
      (match σ.assign? name v with
        | some σ => .ok (v, σ)
        | none => .error (.undefined name)) (Waits h Γ waiting (pc + 2)) := by
  have hfound := slotOf?_eq name Γ.locals
  obtain ⟨u, vs, htop, hu, -⟩ := hm.pop
  cases hr with
  | @«local» slot l hlocal =>
      replace hfound : slotOf? name Γ.frame = some slot.toNat := by rwa [hlocal] at hfound
      obtain ⟨before, v', after, us, u', ws, bottom, hlocals, -, hassign, hstack, hlength, hus, -,
        hws⟩ := hm.exists_local hname hfound
      have hstep : Machine.step A h o.chunk m =
          Machine.perform A h o.chunk { m with pc := pc + 2 } .setLocal (.byte slot) :=
        hm.step_eq hholds (.byte slot [])
      have hlt : slot.toNat < m.stack.length := by
        rw [hstack, ← hlength]
        simp only [List.length_append, List.length_cons]
        omega
      have hset : Machine.setSlot slot.toNat u m.stack = us ++ u :: (ws ++ [bottom]) := by
        rw [hstack, ← hlength, Machine.setSlot_append]
      rw [Machine.perform] at hstep
      simp only [htop] at hstep hlt hset
      rw [if_pos hlt, hset] at hstep
      rw [Store.assign?, hassign]
      refine .step hstep rfl
        { hm with pc := rfl, stack := ⟨us ++ u :: ws, bottom, ?_, ?_⟩, frame := ?_ }
      · rw [List.append_assoc, List.cons_append]
      · show List.Forall₂ _ ((v :: waiting) ++ (before ++ (name, v) :: after).map Prod.snd) _
        rw [List.map_append, List.map_cons, ← List.append_assoc]
        exact List.rel_append hus (.cons hu hws)
      · rw [hm.frame, hlocals]
        simp
  | upvalue _ hout =>
      rw [haround] at hout
      cases hout
  | @global i hlocal _ htext =>
      rw [hlocal] at hfound
      obtain ⟨-, hassign⟩ := hm.lookup_eq_none hname hfound
      have hstep : Machine.step A h o.chunk m =
          Machine.perform A h o.chunk { m with pc := pc + 2 } .setGlobal (.constant i.toNat) :=
        hm.step_eq hholds (.constant i [])
      rw [Machine.perform, htext.name? hw] at hstep
      simp only [htop, hm.isSome_globals] at hstep
      rw [Store.assign?, hassign]
      cases hdefined : (σ.globals name).isSome with
      | true =>
          simp only [hdefined, if_true] at hstep ⊢
          exact .step hstep rfl
            { hm.define hu name with pc := rfl, stack := htop ▸ (hm.define hu name).stack }
      | false =>
          simp only [hdefined, Bool.false_eq_true, if_false] at hstep ⊢
          exact .ends hstep (by simp)

end

/-! ### Moving on -/

section

variable {A : Arithmetic} {w : World} {h : Heap} {o : FunctionObject} {Γ Γ' : Scope} {σ : Store}
  {waiting : List Datum} {pc : Nat} {m : Machine} {v : Datum} {is body : List Item}

/-- Dropping a value leaves those below it. -/
theorem Mirrors.computes_pop (hm : Mirrors h Γ σ (v :: waiting) pc m)
    (hholds : o.chunk.Holds pc (Γ'.op .pop [] :: is)) :
    Machine.Computes A h o.chunk m (.ok ()) fun _ => Mirrors h Γ σ waiting (pc + 1) := by
  obtain ⟨u, vs, hstack, -, hpop⟩ := hm.pop
  have hstep : Machine.step A h o.chunk m = .ok { m with pc := pc + 1, stack := m.stack.tail } :=
    hm.step_eq hholds (.none [])
  rw [hstack] at hstep
  exact .step hstep rfl (hpop (pc + 1))

/-- A jump over some code. -/
theorem Mirrors.computes_jump (hm : Mirrors h Γ σ waiting pc m)
    (hholds : o.chunk.Holds pc (Γ'.jump .jump body :: is)) (hfits : Item.Fits body) :
    Machine.Computes A h o.chunk m (.ok ()) fun _ =>
      Mirrors h Γ σ waiting (pc + 3 + Item.size body) := by
  have hstep : Machine.step A h o.chunk m = .ok { m with pc := pc + 3 + Item.size body } :=
    hm.step_eq hholds (encoded_bytesOf16 hfits).1
  exact .step hstep rfl { hm with pc := rfl }

/-- A jump over some code if a value is false. The value stays. -/
theorem Mirrors.computes_test (hm : Mirrors h Γ σ (v :: waiting) pc m)
    (hholds : o.chunk.Holds pc (Γ'.jump .jumpIfFalse body :: is)) (hfits : Item.Fits body) :
    Machine.Computes A h o.chunk m (.ok ()) fun _ =>
      Mirrors h Γ σ (v :: waiting) (if v.isFalsey then pc + 3 + Item.size body else pc + 3) := by
  obtain ⟨u, vs, hstack, hu, -⟩ := hm.pop
  have hstep : Machine.step A h o.chunk m = Machine.perform A h o.chunk
      { m with pc := pc + 3 } .jumpIfFalse (.ahead (Item.size body)) :=
    hm.step_eq hholds (encoded_bytesOf16 hfits).1
  rw [Machine.perform] at hstep
  simp only [hstack, hu.isFalsey] at hstep
  exact .step hstep rfl { hm with pc := rfl, stack := hstack ▸ hm.stack }

/-- Loading a constant pushes what it represents. -/
theorem Mirrors.computes_load (hw : w.Describes h o) (hm : Mirrors h Γ σ waiting pc m)
    {op : Opcode} {operands : List UInt8} {i : Nat} {u : Value}
    (hload : (op, operands) = Chunk.loadOf i) (hi : i < Chunk.maxConstants)
    (hconstant : w.constants[i]? = some u) (hu : Represents h v u)
    (hholds : o.chunk.Holds pc (Γ'.op op operands :: is)) :
    Machine.Computes A h o.chunk m (.ok (v, σ))
      (Waits h Γ waiting (pc + 1 + operands.length)) := by
  obtain ⟨hop, hlength, hencoded⟩ := encoded_loadOf hload hi
  have hstep := hm.step_eq (A := A) hholds hencoded
  rw [hw.constants, Array.getElem?_toList] at hconstant
  rw [← hlength] at hstep
  refine hm.computes_push hu (hstep.trans ?_)
  rcases hop with rfl | rfl <;> simp only [Machine.perform, hconstant]

end

/-! ### Expressions -/

/-- A function object is a script in a world and its heap. -/
structure World.IsScript (w : World) (h : Heap) (o : FunctionObject) : Prop
    extends w.Describes h o where
  around : w.around = []
  wf : h.Wf

section

variable {A : Arithmetic} {w : World} {h : Heap} {o : FunctionObject} {Γ Γ' : Scope} {σ : Store}
  {waiting : List Datum} {pc : Nat} {m : Machine} {p : Place}

/-- The code of an expression does what its evaluation does. The names in it are resolved as they
are where the machine is. -/
theorem ExprCode.computes {es : List Expr} {is : List Item} (hc : ExprCode w Γ' es is)
    (hw : w.IsScript h o)
    (hresolves : ∀ name access, w.Resolves Γ' name access → w.Resolves Γ name access)
    {e : Expr} (he : es = [e]) (hfree : e.FunctionFree)
    (hnames : ∀ r ∈ e.references p, r.name ≠ "") (hm : Mirrors h Γ σ waiting pc m)
    (hholds : o.chunk.Holds pc is) :
    Machine.Computes A h o.chunk m (e.eval A σ) (Waits h Γ waiting (pc + Item.size is)) := by
  induction hc generalizing e σ waiting pc m with
  | nil => cases he
  | @cons _ _ a b hhead htail ihHead =>
      cases he
      cases htail
      rw [List.append_nil] at hholds ⊢
      exact ihHead rfl hfree hnames hm hholds
  | literal l =>
      cases he
      cases l with
      | nil => exact hm.computes_push .nil (hm.step_eq hholds (.none []))
      | «true» | «false» => exact hm.computes_push (.bool _) (hm.step_eq hholds (.none []))
  | number hload hi hconstant =>
      cases he
      rw [Scope.size_op_cons, Item.size_nil, Nat.add_zero, ← Nat.add_assoc]
      exact hm.computes_load hw.toDescribes hload hi hconstant (.number _) hholds
  | string hload hi htext =>
      cases he
      obtain ⟨s, hconstant, hs⟩ := htext
      rw [Scope.size_op_cons, Item.size_nil, Nat.add_zero, ← Nat.add_assoc]
      exact hm.computes_load hw.toDescribes hload hi hconstant (.string (hw.heap ▸ hs)) hholds
  | @«variable» name access hr =>
      cases he
      exact hm.computes_read hw.toDescribes hw.around (hnames _ (List.mem_singleton_self _))
        (hresolves _ _ hr) hholds
  | @assign name access e a hr _ ih =>
      cases he
      obtain ⟨hnames, hname⟩ := List.forall_mem_append.mp hnames
      rw [Item.size_append, ← Nat.add_assoc]
      refine (ih rfl hfree hnames hm hholds.left).bind fun r m' hm' => ?_
      exact hm'.computes_write hw.toDescribes hw.around (hname _ (List.mem_singleton_self _))
        (hresolves _ _ hr) hholds.right
  | @unary u e a _ ih =>
      cases he
      rw [Item.size_append, ← Nat.add_assoc]
      refine (ih rfl hfree hnames hm hholds.left).bind fun r m' hm' => ?_
      exact hm'.computes_unary u hholds.right
  | @binary b l r a d _ _ ihLeft ihRight =>
      cases he
      obtain ⟨hnamesLeft, hnamesRight⟩ := List.forall_mem_append.mp hnames
      rw [Item.size_append, Item.size_append, ← Nat.add_assoc, ← Nat.add_assoc]
      have hright := hholds.right
      rw [Item.size_append, ← Nat.add_assoc] at hright
      refine (ihLeft rfl hfree.1 hnamesLeft hm hholds.left.left).bind fun r m' hm' => ?_
      refine (ihRight rfl hfree.2 hnamesRight hm' hholds.left.right).bind fun r m' hm' => ?_
      exact hm'.computes_binary hw.wf b hright
  | @and l r a b _ _ hfits ihLeft ihRight =>
      cases he
      obtain ⟨hnamesLeft, hnamesRight⟩ := List.forall_mem_append.mp hnames
      have hjump := hholds.right
      have hpop : o.chunk.Holds (pc + Item.size a + 3) (Γ'.op .pop [] :: b) := hjump.of_instr
      have hrest : o.chunk.Holds (pc + Item.size a + 4) b := hpop.of_instr
      rw [Item.size_append, Scope.size_jump_cons, ← Nat.add_assoc, ← Nat.add_assoc]
      refine (ihLeft rfl hfree.1 hnamesLeft hm hholds.left).bind fun ⟨v, σ'⟩ m' hm' => ?_
      refine (hm'.computes_test hjump hfits).next fun m' hm' => ?_
      cases hv : v.isFalsey with
      | true =>
          simp only [hv, if_true] at hm' ⊢
          exact .here hm'
      | false =>
          simp only [hv, Bool.false_eq_true, if_false] at hm' ⊢
          refine (hm'.computes_pop hpop).next fun m' hm' => ?_
          rw [Scope.size_op_cons, ← Nat.add_assoc]
          exact ihRight rfl hfree.2 hnamesRight hm' hrest
  | @or l r a b _ _ hfits ihLeft ihRight =>
      cases he
      obtain ⟨hnamesLeft, hnamesRight⟩ := List.forall_mem_append.mp hnames
      have htest := hholds.right
      have hjump : o.chunk.Holds (pc + Item.size a + 3)
          (Γ'.jump .jump (Γ'.op .pop [] :: b) :: Γ'.op .pop [] :: b) := htest.of_instr
      have hpop : o.chunk.Holds (pc + Item.size a + 6) (Γ'.op .pop [] :: b) := hjump.of_instr
      have hrest : o.chunk.Holds (pc + Item.size a + 7) b := hpop.of_instr
      rw [Item.size_append, Scope.size_jump_cons, Scope.size_jump_cons, ← Nat.add_assoc,
        ← Nat.add_assoc, ← Nat.add_assoc]
      refine (ihLeft rfl hfree.1 hnamesLeft hm hholds.left).bind fun ⟨v, σ'⟩ m' hm' => ?_
      refine (hm'.computes_test htest (by simp [Item.Fits, Session.maxJump])).next fun m' hm' => ?_
      cases hv : v.isFalsey with
      | true =>
          simp only [hv, if_true] at hm' ⊢
          refine (hm'.computes_pop hpop).next fun m' hm' => ?_
          rw [Scope.size_op_cons, ← Nat.add_assoc]
          exact ihRight rfl hfree.2 hnamesRight hm' hrest
      | false =>
          simp only [hv, Bool.false_eq_true, if_false] at hm' ⊢
          exact (hm'.computes_jump hjump hfits).next fun m' hm' => .here hm'
  | call | get | set =>
      cases he
      exact hfree.elim

end

end LoxBytecode
