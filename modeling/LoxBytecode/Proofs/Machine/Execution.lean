import LoxBytecode.Chunk.Decode
import LoxBytecode.Heap
import LoxBytecode.Proofs.Syntax.Evaluation

/-!
# The Stack Machine

The machine that the opcodes are made for, as far as functions and properties leave it. It reads
the instruction at its counter and carries it out on a stack, whose lowest value is the function
that runs, and on the globals. What numbers do is left open as it is for programs.

`execute` lets the machine run some steps and answers how far it has come. To compare it with an
evaluator, `Follows` says that the machine does what an evaluation does: it gets where the
evaluation ends, or it ends in the same way with the same output, and while the evaluation has
not come to an end, neither has the machine.
-/

namespace LoxBytecode

/-! ### Values -/

namespace Value

/-- Equality as programs see it. -/
def equalsBy (A : Arithmetic) : Value → Value → Bool
  | .number x, .number y => A.equal x y
  | v, w => v == w

/-- An operator between two numbers. -/
def numeric (f : Number → Number → Value) : Value → Value → Except Ending Value
  | .number x, .number y => .ok (f x y)
  | _, _ => .error .type

/-- The operator in front of a number. -/
def negate (A : Arithmetic) : Value → Except Ending Value
  | .number x => .ok (.number (A.negate x))
  | _ => .error .type

end Value

/-! ### Instructions -/

/-- The state of the machine. -/
structure Machine where
  /-- The offset of the next instruction. -/
  pc : Nat
  /-- The values on the stack, the top first. -/
  stack : List Value
  globals : String → Option Value
  output : List String

namespace Machine

/-- The machine before a script. -/
def start (script : FunctionHandle) : Machine :=
  ⟨0, [.function script], fun _ => none, []⟩

/-- The value in a stack slot, which is the number of values below it. -/
def slot? (slot : Nat) : List Value → Option Value
  | [] => none
  | v :: vs => if vs.length = slot then some v else slot? slot vs

/-- Give a stack slot another value. -/
def setSlot (slot : Nat) (w : Value) : List Value → List Value
  | [] => []
  | v :: vs => if vs.length = slot then w :: vs else v :: setSlot slot w vs

/-- Push a value. -/
def push (m : Machine) (v : Value) : Machine :=
  { m with stack := v :: m.stack }

/-- Exchange the top of the stack for another value. -/
def replace (m : Machine) (f : Value → Except Ending Value) : Except Ending Machine :=
  match m.stack with
  | v :: vs => do return { m with stack := (← f v) :: vs }
  | [] => .error .fault

/-- Exchange the two topmost values for one. -/
def combine (m : Machine) (f : Value → Value → Except Ending Value) : Except Ending Machine :=
  match m.stack with
  | w :: v :: vs => do return { m with stack := (← f v w) :: vs }
  | _ => .error .fault

/-- Give a global a value. -/
def define (m : Machine) (name : String) (v : Value) : Machine :=
  { m with globals := fun n => if n = name then some v else m.globals n }

/-- The text of a string constant. -/
def name? (h : Heap) (c : Chunk) (i : Nat) : Option String :=
  match c.constants[i]? with
  | some (.string s) => h.strings.get? s.index
  | _ => none

/-- Carry out an instruction. The counter is behind it. -/
def perform (A : Arithmetic) (h : Heap) (c : Chunk) (m : Machine) :
    Opcode → Operand → Except Ending Machine
  | .constant, .constant i | .constantLong, .constant i =>
    match c.constants[i]? with
    | some v => .ok (m.push v)
    | none => .error .fault
  | .nil, _ => .ok (m.push .nil)
  | .true, _ => .ok (m.push (.bool true))
  | .false, _ => .ok (m.push (.bool false))
  | .pop, _ => .ok { m with stack := m.stack.tail }
  | .getLocal, .byte b =>
    match slot? b.toNat m.stack with
    | some v => .ok (m.push v)
    | none => .error .fault
  | .setLocal, .byte b =>
    match m.stack with
    | v :: _ =>
      if b.toNat < m.stack.length then .ok { m with stack := setSlot b.toNat v m.stack }
      else .error .fault
    | [] => .error .fault
  | .getGlobal, .constant i =>
    match name? h c i with
    | some name =>
      match m.globals name with
      | some v => .ok (m.push v)
      | none => .error (.undefined name)
    | none => .error .fault
  | .defineGlobal, .constant i =>
    match name? h c i, m.stack with
    | some name, v :: vs => .ok { m.define name v with stack := vs }
    | _, _ => .error .fault
  | .setGlobal, .constant i =>
    match name? h c i, m.stack with
    | some name, v :: _ =>
      if (m.globals name).isSome then .ok (m.define name v) else .error (.undefined name)
    | _, _ => .error .fault
  | .equal, _ => m.combine fun v w => .ok (.bool (v.equalsBy A w))
  | .greater, _ => m.combine (Value.numeric fun x y => .bool (A.greater x y))
  | .less, _ => m.combine (Value.numeric fun x y => .bool (A.less x y))
  | .add, _ => m.combine (Value.numeric fun x y => .number (A.add x y))
  | .subtract, _ => m.combine (Value.numeric fun x y => .number (A.subtract x y))
  | .multiply, _ => m.combine (Value.numeric fun x y => .number (A.multiply x y))
  | .divide, _ => m.combine (Value.numeric fun x y => .number (A.divide x y))
  | .not, _ => m.replace fun v => .ok (.bool v.isFalsey)
  | .negate, _ => m.replace (Value.negate A)
  | .print, _ =>
    match m.stack with
    | v :: vs =>
      match h.display v with
      | .ok text => .ok { m with stack := vs, output := m.output ++ [text] }
      | .error _ => .error .fault
    | [] => .error .fault
  | .jump, .ahead d => .ok { m with pc := m.pc + d }
  | .jumpIfFalse, .ahead d =>
    match m.stack with
    | v :: _ => .ok { m with pc := if v.isFalsey then m.pc + d else m.pc }
    | [] => .error .fault
  | .loop, .back d => if d ≤ m.pc then .ok { m with pc := m.pc - d } else .error .fault
  | .ret, _ => .error .finished
  | _, _ => .error .fault

/-! ### Steps -/

/-- Carry out the instruction at the counter. -/
def step (A : Arithmetic) (h : Heap) (c : Chunk) (m : Machine) : Except Ending Machine :=
  match c.decode m.pc with
  | .ok (.instruction op operand next) => perform A h c { m with pc := next } op operand
  | _ => .error .fault

/-- How far the machine comes in some steps. -/
def execute (A : Arithmetic) (h : Heap) (c : Chunk) : Nat → Machine → Outcome
  | 0, m => (none, m.output)
  | n + 1, m =>
    match step A h c m with
    | .ok m' => execute A h c n m'
    | .error ending => (some ending, m.output)

/-- Some steps lead from one state to another. -/
inductive Steps (A : Arithmetic) (h : Heap) (c : Chunk) : Nat → Machine → Machine → Prop
  | refl (m : Machine) : Steps A h c 0 m m
  | head {n : Nat} {m m' m'' : Machine} :
      step A h c m = .ok m' → Steps A h c n m' m'' → Steps A h c (n + 1) m m''

section

variable {A : Arithmetic} {h : Heap} {c : Chunk} {n k : Nat} {m m' m'' : Machine}

/-- One step is a run of length one. -/
theorem Steps.one (hstep : step A h c m = .ok m') : Steps A h c 1 m m' :=
  .head hstep (.refl m')

/-- Two runs in a row are one run. -/
theorem Steps.trans (h₁ : Steps A h c n m m') (h₂ : Steps A h c k m' m'') :
    Steps A h c (n + k) m m'' := by
  induction h₁ with
  | refl => rwa [Nat.zero_add]
  | head hstep _ ih => exact (Nat.succ_add _ k) ▸ .head hstep (ih h₂)

/-- Executing goes on where a run has come to. -/
theorem execute_add (hs : Steps A h c n m m') (k : Nat) :
    execute A h c (n + k) m = execute A h c k m' := by
  induction hs with
  | refl => rw [Nat.zero_add]
  | head hstep _ ih =>
      rw [Nat.succ_add, execute, hstep]
      exact ih

/-- A run that has ended stays as it is. -/
theorem execute_of_ended {ending : Ending} {output : List String}
    (hended : execute A h c n m = (some ending, output)) (hle : n ≤ k) :
    execute A h c k m = (some ending, output) := by
  induction n generalizing m k with
  | zero => cases hended
  | succ n ih =>
      obtain ⟨k, rfl⟩ := Nat.exists_eq_succ_of_ne_zero (Nat.ne_zero_of_lt hle)
      rw [execute] at hended ⊢
      cases hstep : step A h c m with
      | ok m' =>
          rw [hstep] at hended
          exact ih hended (Nat.le_of_succ_le_succ hle)
      | error e =>
          rw [hstep] at hended
          exact hended

/-! ### Output -/

/-- Replacing the value on top prints nothing. -/
theorem output_replace {f : Value → Except Ending Value} (hf : m.replace f = .ok m') :
    m'.output = m.output := by
  unfold replace at hf
  split at hf
  next v vs _ =>
    cases hv : f v with
    | error e =>
        rw [hv] at hf
        cases hf
    | ok w =>
        rw [hv] at hf
        cases hf
        rfl
  next => cases hf

/-- Combining the two values on top prints nothing. -/
theorem output_combine {f : Value → Value → Except Ending Value} (hf : m.combine f = .ok m') :
    m'.output = m.output := by
  unfold combine at hf
  split at hf
  next w v vs _ =>
    cases hv : f v w with
    | error e =>
        rw [hv] at hf
        cases hf
    | ok w =>
        rw [hv] at hf
        cases hf
        rfl
  next => cases hf

/-- What is printed is added at the end. -/
theorem output_of_perform {op : Opcode} {operand : Operand}
    (hperform : perform A h c m op operand = .ok m') : m.output <+: m'.output := by
  by_cases hop : op = .print
  · subst hop
    simp only [perform] at hperform
    split at hperform
    · split at hperform <;> cases hperform
      exact List.prefix_append ..
    · cases hperform
  · suffices hsame : m'.output = m.output from hsame ▸ List.prefix_refl _
    unfold perform at hperform
    split at hperform
    all_goals first
      | exact output_combine hperform
      | exact output_replace hperform
      | exact absurd rfl hop
      | (cases hperform; done)
      | (cases hperform; rfl)
      | (repeat' split at hperform) <;> cases hperform <;> rfl

/-- What was printed stays printed. -/
theorem output_of_step (hstep : step A h c m = .ok m') : m.output <+: m'.output := by
  unfold step at hstep
  split at hstep
  next op operand next _ => exact output_of_perform (m := { m with pc := next }) hstep
  next => cases hstep

/-- What was printed stays printed. -/
theorem output_execute_of_le (m : Machine) (hle : n ≤ k) :
    (execute A h c n m).2 <+: (execute A h c k m).2 := by
  induction k generalizing m n with
  | zero =>
      obtain rfl := Nat.le_zero.mp hle
      exact List.prefix_refl _
  | succ k ih =>
      have hfirst : m.output <+: (execute A h c (k + 1) m).2 := by
        rw [execute]
        cases hstep : step A h c m with
        | ok m' => exact (output_of_step hstep).trans (ih m' (Nat.zero_le k))
        | error ending => exact List.prefix_refl _
      cases n with
      | zero => exact hfirst
      | succ n =>
          rw [execute, execute]
          cases step A h c m with
          | ok m' => exact ih m' (Nat.le_of_succ_le_succ hle)
          | error ending => exact List.prefix_refl _

end

/-! ### Following an evaluation -/

section

variable {A : Arithmetic} {h : Heap} {c : Chunk} {n k least : Nat} {m m' : Machine}
  {α β : Type}

/-- The machine does what an evaluation does. Where that has gone as many rounds as it may, the
machine can make as many steps at least. -/
def Follows (A : Arithmetic) (h : Heap) (c : Chunk) (least : Nat) (m : Machine)
    (result : Except Outcome α) (Q : α → Machine → Prop) : Prop :=
  match result with
  | .ok a => ∃ n m', Steps A h c n m m' ∧ Q a m'
  | .error outcome => outcome.1 ≠ some .fault ∧
    ∃ n, execute A h c n m = outcome ∧ (outcome.1 = none → least ≤ n)

/-- A machine where the result is reached already follows it. -/
theorem Follows.ok {a : α} {Q : α → Machine → Prop} (hQ : Q a m) :
    Follows A h c least m (.ok a) Q :=
  ⟨0, m, .refl m, hQ⟩

/-- Steps before an evaluation count. -/
theorem Follows.after {result : Except Outcome α} {Q : α → Machine → Prop}
    (hs : Steps A h c n m m') (hf : Follows A h c least m' result Q) :
    Follows A h c (n + least) m result Q := by
  cases result with
  | ok a =>
      obtain ⟨k, m'', hs', hQ⟩ := hf
      exact ⟨n + k, m'', hs.trans hs', hQ⟩
  | error outcome =>
      obtain ⟨hfault, k, hend, hleast⟩ := hf
      exact ⟨hfault, n + k, (execute_add hs k).trans hend,
        fun hnone => Nat.add_le_add_left (hleast hnone) n⟩

/-- A machine that makes some steps makes fewer, too. -/
theorem Follows.of_le {least' : Nat} {result : Except Outcome α} {Q : α → Machine → Prop}
    (hf : Follows A h c least m result Q) (hle : least' ≤ least) :
    Follows A h c least' m result Q := by
  cases result with
  | ok a => exact hf
  | error outcome =>
      obtain ⟨hfault, k, hend, hleast⟩ := hf
      exact ⟨hfault, k, hend, fun hnone => Nat.le_trans hle (hleast hnone)⟩

/-- Steps before an evaluation that need not count. -/
theorem Follows.behind {result : Except Outcome α} {Q : α → Machine → Prop}
    (hs : Steps A h c n m m') (hf : Follows A h c least m' result Q) :
    Follows A h c least m result Q :=
  (hf.after hs).of_le (Nat.le_add_left least n)

/-- To follow one evaluation after the other is to follow both. -/
theorem Follows.bind {result : Except Outcome α} {f : α → Except Outcome β}
    {Q : α → Machine → Prop} {R : β → Machine → Prop} (hf : Follows A h c least m result Q)
    (hnext : ∀ a m', Q a m' → Follows A h c least m' (f a) R) :
    Follows A h c least m (result >>= f) R := by
  cases result with
  | ok a =>
      obtain ⟨k, m', hs, hQ⟩ := hf
      exact (hnext a m' hQ).behind hs
  | error outcome => exact hf

/-- Some more steps behind an evaluation. -/
theorem Follows.further {result : Except Outcome α} {Q R : α → Machine → Prop}
    (hf : Follows A h c least m result Q)
    (hnext : ∀ a m', Q a m' → Follows A h c least m' (.ok a) R) :
    Follows A h c least m result R := by
  cases result with
  | ok a =>
      obtain ⟨k, m', hs, hQ⟩ := hf
      exact (hnext a m' hQ).behind hs
  | error outcome => exact hf

end

end Machine

end LoxBytecode
