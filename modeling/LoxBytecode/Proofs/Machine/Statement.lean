import LoxBytecode.Proofs.Code.References
import LoxBytecode.Proofs.Machine.Expression

/-!
# Running Statements

The code of a statement does what the execution of the statement does (`StmtCode.follows`):
between statements nothing waits on the stack, so that it holds the function that runs and the
locals in scope. A block ends with the removal of its locals. A loop goes back to its head by a
jump, which is why the machine makes at least one step in every round (`Machine.Follows.rounds`).
-/

namespace LoxBytecode

open Heap

variable {A : Arithmetic} {w : World} {h : Heap} {o : FunctionObject} {Γ Γ' : Scope} {σ : Store}
  {waiting : List Datum} {pc fuel least : Nat} {m : Machine} {p : Place} {v : Datum}
  {is : List Item}

/-! ### Expressions in a run -/

/-- The machine follows an expression from any state that mirrors the environment. -/
theorem ExprCode.follows {e : Expr} (hc : ExprCode w Γ' [e] is) (hw : w.IsScript h o)
    (hresolves : ∀ name access, w.Resolves Γ' name access → w.Resolves Γ name access)
    (hfree : e.FunctionFree) (hnames : ∀ r ∈ e.references p, r.name ≠ "")
    (hm : Mirrors h Γ σ waiting pc m) (hholds : o.chunk.Holds pc is) :
    Machine.Follows A h o.chunk least m (evalOf A (some e) σ)
      (Waits h Γ waiting (pc + Item.size is)) := by
  rw [evalOf, ← hm.output]
  exact (hc.computes hw hresolves rfl hfree hnames hm hholds).follows

/-- The machine follows an expression that may be missing, which is nil. -/
theorem ValueCode.follows {e : Option Expr} (hc : ValueCode w Γ' e is) (hw : w.IsScript h o)
    (hresolves : ∀ name access, w.Resolves Γ' name access → w.Resolves Γ name access)
    (hfree : ∀ e' ∈ e, e'.FunctionFree) (hnames : ∀ r ∈ Expr.referencesOf p e, r.name ≠ "")
    (hm : Mirrors h Γ σ [] pc m) (hholds : o.chunk.Holds pc is) :
    Machine.Follows A h o.chunk least m (evalOf A e σ)
      (Waits h Γ [] (pc + Item.size is)) := by
  cases hc with
  | none =>
      exact (hm.computes_push (A := A) .nil (hm.step_eq hholds (.none []))).follows
  | some hc => exact hc.follows hw hresolves (hfree _ rfl) hnames hm hholds

/-- The code of a condition, and the jump over some code that depends on it. The value stays on
the stack either way. -/
theorem ExprCode.follows_test {e : Expr} {a body : List Item} (hc : ExprCode w Γ [e] a)
    (hw : w.IsScript h o) (hfree : e.FunctionFree) (hnames : ∀ r ∈ e.references p, r.name ≠ "")
    (hm : Mirrors h Γ σ [] pc m)
    (hholds : o.chunk.Holds pc (a ++ Γ'.jump .jumpIfFalse body :: is)) (hfits : Item.Fits body) :
    Machine.Follows A h o.chunk least m (testOf A (some e) σ) fun r m' =>
      ∃ v, Mirrors h Γ r.2 [v]
        (if r.1 then pc + Item.size a + 3 else pc + Item.size a + 3 + Item.size body) m' := by
  refine (hc.follows hw (fun _ _ hr => hr) hfree hnames hm hholds.left).bind
    fun ⟨v, σ'⟩ m' hm' => ?_
  refine (hm'.computes_test hholds.right hfits).before fun m' hm' => .ok ⟨v, ?_⟩
  cases hv : v.isFalsey with
  | true | false =>
      rw [hv] at hm'
      simpa [hv] using hm'

/-! ### The end of a block -/

/-- The compiler has one local more than the environment, for slot 0. -/
theorem Mirrors.length_locals (hm : Mirrors h Γ σ waiting pc m) :
    Γ.locals.length = σ.locals.length + 1 := by
  simpa [Scope.frame] using congrArg List.length hm.frame

/-- Removing some locals that are not captured. -/
theorem Machine.steps_pops {ls : List Local} (hcaptured : ∀ l ∈ ls, l.captured = false)
    (hpc : m.pc = pc)
    (hholds : o.chunk.Holds pc
      (ls.map fun l => Γ'.op (if l.captured then .closeUpvalue else .pop) [])) :
    Machine.Steps A h o.chunk ls.length m
      { m with pc := pc + ls.length, stack := m.stack.drop ls.length } := by
  induction ls generalizing pc m with
  | nil =>
      subst hpc
      exact .refl m
  | cons l ls ih =>
      obtain ⟨hl, hls⟩ := List.forall_mem_cons.mp hcaptured
      rw [List.map_cons, hl] at hholds
      have hstep : Machine.step A h o.chunk m =
          .ok { m with pc := pc + 1, stack := m.stack.tail } :=
        Machine.step_eq hpc hholds (.none [])
      have hrest := ih (m := { m with pc := pc + 1, stack := m.stack.tail }) hls rfl
        hholds.of_instr
      rw [List.drop_tail, Nat.add_right_comm] at hrest
      exact .head hstep hrest

/-- Leaving a scope drops the locals that it owns from the frame. -/
theorem Scope.frame_leave (Γ : Scope) : Γ.leave.frame = Γ.frame.drop Γ.owned.length := by
  have hlocals : Γ.locals = Γ.owned ++ Γ.leave.locals :=
    (List.takeWhile_append_dropWhile ..).symm
  have hlength : Γ.owned.length = (Γ.owned.map Local.name).length := (List.length_map _).symm
  rw [frame, frame, congrArg (List.map Local.name) hlocals, List.map_append, hlength,
    List.drop_left]

/-- The end of a block forgets its locals. -/
theorem Mirrors.computes_leave (hm : Mirrors h Γ σ [] pc m)
    (hcaptured : ∀ l ∈ Γ.locals, l.captured = false) {count : Nat}
    (hcount : Γ.owned.length + count = σ.locals.length) (hholds : o.chunk.Holds pc Γ.pops) :
    Machine.Computes A h o.chunk m (.ok ()) fun _ =>
      Mirrors h Γ.leave (σ.leave count) [] (pc + Item.size Γ.pops) := by
  have howned : ∀ l ∈ Γ.owned, l.captured = false := fun l hl =>
    hcaptured l ((List.takeWhile_sublist _).subset hl)
  refine ⟨_, _, Machine.steps_pops howned hm.pc hholds, rfl, ?_⟩
  have hdrop : σ.locals.length - count = Γ.owned.length := by omega
  have hle : Γ.owned.length ≤ σ.locals.length := by omega
  obtain ⟨vs, bottom, hstack, hvs⟩ := hm.stack
  have hlength : Γ.owned.length ≤ vs.length := by
    rw [← hvs.length_eq]
    simpa using hle
  refine { hm with pc := by rw [Scope.size_pops], stack := ?_, frame := ?_ }
  · refine ⟨vs.drop Γ.owned.length, bottom, ?_, ?_⟩
    · show m.stack.drop Γ.owned.length = vs.drop Γ.owned.length ++ [bottom]
      rw [hstack, List.drop_append_of_le_length hlength]
    · show List.Forall₂ _ ((σ.locals.drop (σ.locals.length - count)).map Prod.snd) _
      rw [hdrop, List.map_drop]
      exact List.forall₂_drop _ hvs
  · rw [Scope.frame_leave, hm.frame, List.drop_append_of_le_length (by simpa using hle),
      ← List.map_drop, ← hdrop]
    rfl

/-! ### Branches -/

/-- The code of a branch does what one of its sides does, behind its condition. -/
theorem ExprCode.follows_branch {e : Expr} {Γ₁ Γ₂ : Scope} {a b d : List Item}
    {yes no : Store → Except Outcome Store} (hc : ExprCode w Γ [e] a) (hw : w.IsScript h o)
    (hfree : e.FunctionFree) (hnames : ∀ r ∈ e.references p, r.name ≠ "")
    (hsameYes : Γ.Same Γ₁) (hsameNo : Γ₁.Same Γ₂)
    (hfitsYes : Item.Fits (Γ.op .pop [] :: b ++ [Γ₁.jump .jump (Γ₁.op .pop [] :: d)]))
    (hfitsNo : Item.Fits (Γ₁.op .pop [] :: d))
    (hyes : ∀ {σ m pc}, Mirrors h Γ σ [] pc m → o.chunk.Holds pc b →
      Machine.Follows A h o.chunk least m (yes σ) fun σ' =>
        Mirrors h Γ₁ σ' [] (pc + Item.size b))
    (hno : ∀ {σ m pc}, Mirrors h Γ₁ σ [] pc m → o.chunk.Holds pc d →
      Machine.Follows A h o.chunk least m (no σ) fun σ' =>
        Mirrors h Γ₂ σ' [] (pc + Item.size d))
    (hm : Mirrors h Γ σ [] pc m)
    (hholds : o.chunk.Holds pc (a ++ Γ.jump .jumpIfFalse
        (Γ.op .pop [] :: b ++ [Γ₁.jump .jump (Γ₁.op .pop [] :: d)]) ::
      Γ.op .pop [] :: b ++ Γ₁.jump .jump (Γ₁.op .pop [] :: d) :: Γ₁.op .pop [] :: d)) :
    Machine.Follows A h o.chunk least m (do
        let (holds, σ) ← testOf A (some e) σ
        if holds then yes σ else no σ) fun σ' =>
      Mirrors h Γ₂ σ' [] (pc + Item.size (a ++ Γ.jump .jumpIfFalse
          (Γ.op .pop [] :: b ++ [Γ₁.jump .jump (Γ₁.op .pop [] :: d)]) ::
        Γ.op .pop [] :: b ++ Γ₁.jump .jump (Γ₁.op .pop [] :: d) :: Γ₁.op .pop [] :: d)) := by
  have hpopYes : o.chunk.Holds (pc + Item.size a + 3) (Γ.op .pop [] :: b) :=
    hholds.left.right.of_instr
  have hover := hholds.right
  have hend : pc + Item.size (a ++ Γ.jump .jumpIfFalse
      (Γ.op .pop [] :: b ++ [Γ₁.jump .jump (Γ₁.op .pop [] :: d)]) :: Γ.op .pop [] :: b) =
        pc + Item.size a + 3 + 1 + Item.size b := by
    simp
    omega
  rw [hend] at hover
  rw [Item.size_append, ← Nat.add_assoc, hend, Scope.size_jump_cons, ← Nat.add_assoc]
  refine (hc.follows_test hw hfree hnames hm hholds.left hfitsYes).bind ?_
  rintro ⟨holds, σ'⟩ m' ⟨v, hm'⟩
  cases holds with
  | true =>
      refine (hm'.computes_pop hpopYes).before fun m' hm' => ?_
      refine (hyes hm' hpopYes.of_instr).further fun σ' m' hm' => ?_
      exact (hm'.computes_jump hover hfitsNo).before fun m' hm' => .ok (hm'.of_same hsameNo)
  | false =>
      have hpopNo : o.chunk.Holds (pc + Item.size a + 3 + 1 + Item.size b + 3)
          (Γ₁.op .pop [] :: d) := hover.of_instr
      have htarget : pc + Item.size a + 3 + Item.size
          (Γ.op .pop [] :: b ++ [Γ₁.jump .jump (Γ₁.op .pop [] :: d)]) =
            pc + Item.size a + 3 + 1 + Item.size b + 3 := by
        simp
        omega
      rw [if_neg Bool.false_ne_true, htarget] at hm'
      refine ((hm'.of_same hsameYes).computes_pop hpopNo).before fun m' hm' => ?_
      rw [Scope.size_op_cons, ← Nat.add_assoc]
      exact hno hm' hpopNo.of_instr

/-! ### Loops -/

/-- A loop, of which the machine makes a step at the end of every round. -/
theorem Machine.Follows.rounds {test : Store → Except Outcome (Bool × Store)}
    {round : Store → Except Outcome Store} {Head Inside Behind : Store → Machine → Prop}
    {c : Chunk} (houtput : ∀ σ m, Head σ m → m.output = σ.output)
    (htest : ∀ σ m, Head σ m → Machine.Follows A h c fuel m (test σ) fun r m' =>
      if r.1 then Inside r.2 m' else Behind r.2 m')
    (hround : ∀ σ m, Inside σ m → Machine.Follows A h c fuel m (round σ) fun σ' m' =>
      ∃ m'', Machine.step A h c m' = .ok m'' ∧ Head σ' m'')
    {n : Nat} (hn : n ≤ fuel) (hm : Head σ m) :
    Machine.Follows A h c n m (rounds test round n σ) Behind := by
  induction n generalizing σ m with
  | zero =>
      rw [LoxBytecode.rounds, ← houtput σ m hm]
      exact ⟨by simp, 0, rfl, fun _ => Nat.le_refl 0⟩
  | succ n ih =>
      rw [LoxBytecode.rounds]
      refine ((htest σ m hm).of_le hn).bind fun ⟨more, σ'⟩ m' hm' => ?_
      cases more with
      | false => exact .ok hm'
      | true =>
          refine ((hround σ' m' hm').of_le hn).bind fun σ'' m'' ⟨u, hstep, hu⟩ => ?_
          rw [Nat.add_comm]
          exact (ih (Nat.le_of_succ_le hn) hu).after (.one hstep)

/-- A jump back. -/
theorem Mirrors.step_back (hm : Mirrors h Γ σ waiting pc m) (target : Nat) {distance : Nat}
    (hholds : o.chunk.Holds pc (Γ'.back distance :: is)) (hfits : distance ≤ Session.maxJump)
    (hdistance : target + distance = pc + 3) :
    ∃ m', Machine.step A h o.chunk m = .ok m' ∧ m'.output = m.output ∧
      Mirrors h Γ σ waiting target m' := by
  have hstep : Machine.step A h o.chunk m =
      Machine.perform A h o.chunk { m with pc := pc + 3 } .loop (.back distance) :=
    hm.step_eq hholds (encoded_bytesOf16 hfits).2
  have hle : distance ≤ pc + 3 := by omega
  have htarget : pc + 3 - distance = target := by omega
  rw [Machine.perform, if_pos hle, htarget] at hstep
  exact ⟨_, hstep, rfl, { hm with pc := rfl }⟩

namespace LoopParts

variable {l : LoopParts} {c step : Option Expr}

/-- The inside of a loop stands behind its head. -/
theorem holds_inner (hholds : o.chunk.Holds pc l.items) :
    o.chunk.Holds (pc + l.headSize) l.inner := by
  obtain ⟨before, after, condition, step, body⟩ := l
  cases condition with
  | none => exact hholds
  | some a => exact hholds.left.right.of_instr.of_instr

/-- The test at the head of a loop leads inside or behind it. -/
theorem follows_test (hc : OptionCode w l.before c l.condition) (hw : w.IsScript h o)
    (hfits : l.Fits) (hsame : l.before.Same l.after) (hfree : ∀ e ∈ c, e.FunctionFree)
    (hnames : ∀ r ∈ Expr.referencesOf p c, r.name ≠ "") (hm : Mirrors h l.before σ [] pc m)
    (hholds : o.chunk.Holds pc l.items) :
    Machine.Follows A h o.chunk fuel m (testOf A c σ) fun r m' =>
      if r.1 then Mirrors h l.before r.2 [] (pc + l.headSize) m'
      else Mirrors h l.after r.2 [] (pc + Item.size l.items) m' := by
  obtain ⟨before, after, condition, step, body⟩ := l
  cases hc with
  | none => exact .ok hm
  | @some e a hc =>
      have hpop : o.chunk.Holds (pc + Item.size a + 3) (before.op .pop [] :: _) :=
        hholds.left.right.of_instr
      have hexit := hholds.right
      rw [Item.size_append, Scope.size_jump_cons, ← Nat.add_assoc, ← Nat.add_assoc] at hexit
      have hend : pc + Item.size (LoopParts.mk before after (some a) step body).items =
          pc + Item.size a + 3 + Item.size (before.op .pop [] ::
            (LoopParts.mk before after (some a) step body).inner) + 1 := by
        rw [LoopParts.items, Item.size_append, Item.size_append, Scope.size_jump_cons]
        simp only [Scope.size_op_cons, List.length_nil, Item.size_nil]
        omega
      refine (hc.follows_test hw (hfree e rfl) hnames hm hholds.left (hfits.exit a rfl)).further ?_
      rintro ⟨more, σ'⟩ m' ⟨v, hm'⟩
      cases more with
      | false =>
          refine (hm'.computes_pop hexit).before fun m' hm' => .ok ?_
          exact hend ▸ hm'.of_same hsame
      | true => exact (hm'.computes_pop hpop).before fun m' hm' => .ok hm'

/-- A round inside a loop leads to the jump back to its head. -/
theorem follows_round {body : Store → Except Outcome Store}
    (hstep : OptionCode w l.before step l.step) (hw : w.IsScript h o) (hfits : l.Fits)
    (hsame : l.before.Same l.after) (hfree : ∀ e ∈ step, e.FunctionFree)
    (hnames : ∀ r ∈ Expr.referencesOf p step, r.name ≠ "")
    (hbody : ∀ {σ m pc}, Mirrors h l.before σ [] pc m → o.chunk.Holds pc l.body →
      Machine.Follows A h o.chunk fuel m (body σ) fun σ' =>
        Mirrors h l.after σ' [] (pc + Item.size l.body))
    (hm : Mirrors h l.before σ [] (pc + l.headSize) m) (hholds : o.chunk.Holds pc l.items) :
    Machine.Follows A h o.chunk fuel m (do return (← evalOf A step (← body σ)).2) fun σ' m' =>
      ∃ m'', Machine.step A h o.chunk m' = .ok m'' ∧ Mirrors h l.before σ' [] pc m'' := by
  have hinner := holds_inner hholds
  obtain ⟨before, after, condition, step, code⟩ := l
  cases hstep with
  | none =>
      refine (hbody hm hinner.left).bind fun σ' m' hm' => .ok ?_
      obtain ⟨m'', hback, -, hm''⟩ := hm'.step_back pc hinner.right hfits.back
        (by simp [backDistance]; omega)
      exact ⟨m'', hback, { hm'' with frame := hsame.frame ▸ hm''.frame }⟩
  | @some e a hstep =>
      have hskip := hinner.left.left
      have hcode : o.chunk.Holds (pc + (LoopParts.mk before after condition (some a) code).headSize
          + 3) (LoopParts.stepCode _ a) := hskip.of_instr
      have hpop := hcode.right
      -- over the step to the body, from there back to the step, and back to the head
      refine (hm.computes_jump hskip (hfits.skip a rfl)).before fun m' hm' => ?_
      rw [Nat.add_assoc _ 3, ← Scope.size_jump_cons before .jump] at hm'
      refine (hbody hm' hinner.left.right).bind fun σ' m' hm' => ?_
      rw [Nat.add_assoc, ← Item.size_append] at hm'
      obtain ⟨m'', hback, -, hm''⟩ := hm'.step_back
        (pc + (LoopParts.mk before after condition (some a) code).headSize + 3) hinner.right
        hfits.back (by simp [backDistance, stepCode]; omega)
      refine Machine.Follows.behind (.one hback) ?_
      have hbefore : Mirrors h before σ' [] _ m'' := { hm'' with frame := hsame.frame ▸ hm''.frame }
      refine (hstep.follows hw (fun _ _ hr => hr) (hfree e rfl) hnames hbefore hcode.left).bind
        fun r m' hm' => ?_
      refine (hm'.computes_pop hpop).before fun m' hm' => .ok ?_
      obtain ⟨m'', hlast, -, hm''⟩ := hm'.step_back pc hpop.of_instr (hfits.head a rfl)
        (by omega)
      exact ⟨m'', hlast, hm''⟩

/-- The code of a loop does what its rounds do. -/
theorem follows {body : Store → Except Outcome Store}
    (hc : OptionCode w l.before c l.condition) (hstep : OptionCode w l.before step l.step)
    (hw : w.IsScript h o) (hfits : l.Fits) (hsame : l.before.Same l.after)
    (hfreeTest : ∀ e ∈ c, e.FunctionFree) (hfreeStep : ∀ e ∈ step, e.FunctionFree)
    (hnamesTest : ∀ r ∈ Expr.referencesOf p c, r.name ≠ "")
    (hnamesStep : ∀ r ∈ Expr.referencesOf p step, r.name ≠ "")
    (hbody : ∀ {σ m pc}, Mirrors h l.before σ [] pc m → o.chunk.Holds pc l.body →
      Machine.Follows A h o.chunk fuel m (body σ) fun σ' =>
        Mirrors h l.after σ' [] (pc + Item.size l.body))
    (hm : Mirrors h l.before σ [] pc m) (hholds : o.chunk.Holds pc l.items) :
    Machine.Follows A h o.chunk fuel m
      (rounds (testOf A c) (fun σ => do return (← evalOf A step (← body σ)).2) fuel σ)
      fun σ' => Mirrors h l.after σ' [] (pc + Item.size l.items) :=
  Machine.Follows.rounds (fun σ m (hm : Mirrors h l.before σ [] pc m) => hm.output)
    (fun _ _ hm => follows_test hc hw hfits hsame hfreeTest hnamesTest hm hholds)
    (fun _ _ hm => follows_round hstep hw hfits hsame hfreeStep hnamesStep hbody hm hholds)
    (Nat.le_refl fuel) hm

end LoopParts

/-! ### Statements -/

/-- Without functions no local is captured. -/
theorem StmtCode.uncaptured {st : Stmt} (hc : StmtCode w Γ st is Γ') (hfree : st.FunctionFree)
    (hcaptured : ∀ l ∈ Γ.locals, l.captured = false) : ∀ l ∈ Γ'.locals, l.captured = false := by
  induction hc with
  | skip | expression | print | varGlobal => exact hcaptured
  | seq _ _ ihFirst ihSecond => exact ihSecond hfree.2 (ihFirst hfree.1 hcaptured)
  | marked _ _ ih => exact ih hfree hcaptured
  | branch _ _ _ _ _ _ _ ihYes ihNo => exact ihNo hfree.2.2 (ihYes hfree.2.1 hcaptured)
  | whileLoop _ _ _ _ ih => exact ih hfree.2 hcaptured
  | forLoop _ _ _ _ _ _ ihFirst ihBody =>
      exact fun l hl => ihBody hfree.2.2.2 (ihFirst hfree.1 hcaptured) l
        ((List.dropWhile_sublist _).subset hl)
  | block _ ih => exact fun l hl => ih hfree hcaptured l ((List.dropWhile_sublist _).subset hl)
  | @varLocal _ Γ name _ _ hdepth =>
      obtain ⟨locals, depth⟩ := Γ
      cases depth with
      | zero => exact absurd rfl hdepth
      | succ depth => exact List.forall_mem_cons.mpr ⟨rfl, hcaptured⟩
  | del | ret | classGlobal | classLocal | funGlobal | funLocal => exact hfree.elim

/-- A value that waits becomes a local. -/
theorem Mirrors.declare (hm : Mirrors h Γ σ [v] pc m) (hdepth : Γ.depth ≠ 0) (name : String) :
    Mirrors h (Γ.declare name).define { σ with locals := (name, v) :: σ.locals } [] pc m where
  pc := hm.pc
  stack := hm.stack
  frame := by
    obtain ⟨locals, depth⟩ := Γ
    cases depth with
    | zero => exact absurd rfl hdepth
    | succ depth => exact congrArg (name :: ·) hm.frame
  globals := hm.globals
  output := hm.output

/-- A value that waits becomes a global. -/
theorem Mirrors.computes_define (hw : w.Describes h o) (hm : Mirrors h Γ σ [v] pc m)
    {name : String} {i : UInt8} (htext : w.HasText i.toNat name)
    (hholds : o.chunk.Holds pc (Γ'.op .defineGlobal [i] :: is)) :
    Machine.Computes A h o.chunk m (.ok ()) fun _ =>
      Mirrors h Γ (σ.define name v) [] (pc + 2) := by
  obtain ⟨u, vs, hstack, hu, hpop⟩ := hm.pop
  have hstep : Machine.step A h o.chunk m =
      Machine.perform A h o.chunk { m with pc := pc + 2 } .defineGlobal (.constant i.toNat) :=
    hm.step_eq hholds (.constant i [])
  rw [Machine.perform, htext.name? hw] at hstep
  simp only [hstack] at hstep
  exact .step hstep rfl ((hpop (pc + 2)).define hu name)

/-- A value that waits is printed. -/
theorem Mirrors.follows_print (hm : Mirrors h Γ σ [v] pc m)
    (hholds : o.chunk.Holds pc (Γ'.op .print [] :: is)) :
    Machine.Follows A h o.chunk least m (.ok (σ.print v)) fun σ' =>
      Mirrors h Γ σ' [] (pc + 1) := by
  obtain ⟨u, vs, hstack, hu, hpop⟩ := hm.pop
  have hstep : Machine.step A h o.chunk m =
      Machine.perform A h o.chunk { m with pc := pc + 1 } .print .none :=
    hm.step_eq hholds (.none [])
  rw [Machine.perform] at hstep
  simp only [hstack, hu.display] at hstep
  refine ⟨1, _, .one hstep, { hpop (pc + 1) with output := ?_ }⟩
  rw [hm.output]
  rfl

/-- The code of a statement does what its execution does. -/
theorem StmtCode.follows {st : Stmt} (hc : StmtCode w Γ st is Γ') (hw : w.IsScript h o)
    (hs : Γ.Settled) (hcaptured : ∀ l ∈ Γ.locals, l.captured = false) (hfree : st.FunctionFree)
    (hnames : ∀ r ∈ st.references p, r.name ≠ "") {top : Bool} (htop : top = true ↔ Γ.depth = 0)
    (hm : Mirrors h Γ σ [] pc m) (hholds : o.chunk.Holds pc is) :
    Machine.Follows A h o.chunk fuel m (st.exec A fuel top σ) fun σ' =>
      Mirrors h Γ' σ' [] (pc + Item.size is) := by
  induction hc generalizing p top σ pc m with
  | skip => exact .ok hm
  | seq hfirst _ ihFirst ihSecond =>
      obtain ⟨hnamesFirst, hnamesSecond⟩ := List.forall_mem_append.mp hnames
      have hextends := hfirst.extends hs
      rw [Item.size_append, ← Nat.add_assoc]
      refine (ihFirst hw hs hcaptured hfree.1 hnamesFirst htop hm hholds.left).bind
        fun σ' m' hm' => ?_
      exact ihSecond hw (hextends.settled hs) (hfirst.uncaptured hfree.1 hcaptured) hfree.2
        hnamesSecond (hextends.depth ▸ htop) hm' hholds.right
  | marked _ _ ih =>
      rw [Item.size_append, Scope.size_mark_cons, Scope.size_mark_cons, Item.size_nil, Nat.add_zero]
      exact ih hw hs hcaptured hfree hnames htop hm hholds.left.of_mark
  | expression he =>
      rw [Item.size_append, ← Nat.add_assoc]
      refine (he.follows hw (fun _ _ hr => hr) hfree hnames hm hholds.left).bind
        fun r m' hm' => ?_
      exact (hm'.computes_pop hholds.right).before fun m' hm' => .ok hm'
  | print he =>
      rw [Item.size_append, ← Nat.add_assoc]
      refine (he.follows hw (fun _ _ hr => hr) hfree hnames hm hholds.left).bind
        fun r m' hm' => ?_
      exact hm'.follows_print hholds.right
  | branch hc hyes _ hsameYes hsameNo hfitsYes hfitsNo ihYes ihNo =>
      obtain ⟨hnamesTest, hnamesRest⟩ := List.forall_mem_append.mp hnames
      obtain ⟨hnamesYes, hnamesNo⟩ := List.forall_mem_append.mp hnamesRest
      exact hc.follows_branch hw hfree.1 hnamesTest hsameYes hsameNo hfitsYes hfitsNo
        (ihYes hw hs hcaptured hfree.2.1 hnamesYes htop)
        (ihNo hw (hs.of_same hsameYes) (hyes.uncaptured hfree.2.1 hcaptured) hfree.2.2 hnamesNo
          (hsameYes.depth ▸ htop)) hm hholds
  | @whileLoop _ Γ Γ₁ c body a b hc _ hsame hfits ih =>
      obtain ⟨hnamesTest, hnamesBody⟩ := List.forall_mem_append.mp hnames
      have hround : (fun σ => do return (← evalOf A none (← body.exec A fuel top σ)).2) =
          body.exec A fuel top := by
        funext σ
        cases body.exec A fuel top σ <;> rfl
      rw [Stmt.exec, ← hround]
      exact LoopParts.follows (l := ⟨Γ, Γ₁, some a, none, b⟩) (.some hc) .none hw hfits hsame
        (by rintro _ ⟨⟩; exact hfree.1) (by rintro _ ⟨⟩) hnamesTest (@List.forall_mem_nil _ _)
        (ih hw hs hcaptured hfree.2 hnamesBody htop) hm hholds
  | @forLoop _ Γ Γ₁ Γ₂ first body c step a b head tail hfirst hc hstep hbody hsame hfits ihFirst
      ihBody =>
      obtain ⟨hnamesFirst, hnamesRest⟩ := List.forall_mem_append.mp hnames
      obtain ⟨hnamesTest, hnamesRest⟩ := List.forall_mem_append.mp hnamesRest
      obtain ⟨hnamesStep, hnamesBody⟩ := List.forall_mem_append.mp hnamesRest
      obtain ⟨hfreeFirst, hfreeTest, hfreeStep, hfreeBody⟩ := hfree
      have hextends := hfirst.extends hs.enter
      have hinner := hfirst.uncaptured hfreeFirst hcaptured
      have htop' : false = true ↔ Γ.enter.depth = 0 := by simp [Scope.enter]
      have hpops := hholds.right
      rw [Item.size_append, ← Nat.add_assoc] at hpops
      rw [Item.size_append, Item.size_append, ← Nat.add_assoc, ← Nat.add_assoc]
      refine (ihFirst hw hs.enter hcaptured hfreeFirst hnamesFirst htop'
        { hm with } hholds.left.left).bind fun σ' m' hm' => ?_
      refine (LoopParts.follows (l := ⟨Γ₁, Γ₂, head, tail, b⟩) hc hstep hw hfits hsame hfreeTest
        hfreeStep hnamesTest hnamesStep (ihBody hw (hextends.settled hs.enter) hinner hfreeBody
          hnamesBody (hextends.depth ▸ htop')) hm' hholds.left.right).bind fun σ'' m'' hm'' => ?_
      have hleave := ((hextends.trans hsame.extends).leave hs).2
      rw [hm.length_locals, hm''.length_locals] at hleave
      exact (hm''.computes_leave (hbody.uncaptured hfreeBody hinner) (Nat.succ.inj hleave)
        hpops).before fun m' hm' => .ok hm'
  | @block _ Γ Γ₁ body a hbody ih =>
      have htop' : false = true ↔ Γ.enter.depth = 0 := by simp [Scope.enter]
      rw [Item.size_append, ← Nat.add_assoc]
      refine (ih hw hs.enter hcaptured hfree hnames htop' { hm with } hholds.left).bind
        fun σ' m' hm' => ?_
      have hleave := ((hbody.extends hs.enter).leave hs).2
      rw [hm.length_locals, hm'.length_locals] at hleave
      exact (hm'.computes_leave (hbody.uncaptured hfree hcaptured) (Nat.succ.inj hleave)
        hholds.right).before fun m' hm' => .ok hm'
  | varGlobal hdepth htext hv =>
      rw [Item.size_append, ← Nat.add_assoc, Stmt.exec, htop.mpr hdepth]
      refine (hv.follows hw (fun _ _ hr => hr) hfree hnames hm hholds.left).bind
        fun r m' hm' => ?_
      exact (hm'.computes_define hw.toDescribes htext hholds.right).before fun m' hm' => .ok hm'
  | varLocal hdepth _ hv =>
      have hinner : ¬ top = true := fun h => hdepth (htop.mp h)
      refine (hv.follows hw (fun _ _ hr => hr.of_declare) hfree hnames hm hholds).bind
        fun r m' hm' => .ok ?_
      rw [Store.declare, if_neg hinner]
      exact hm'.declare hdepth _
  | del | ret | classGlobal | classLocal | funGlobal | funLocal => exact hfree.elim

end LoxBytecode
