import Mathlib
import LoxBytecode.Proofs.Compile.Heights
import LoxBytecode.Proofs.Compile.Placing

/-!
# The Jumps of Compiled Code

A jump is written before the compiler knows where it leads, and is patched when it does; in
between, other jumps are written, patched and looped back over, and other functions are begun
and ended. Whatever the source, every jump of the code that is left in the heap has the distance
that was counted for it, or none in a compilation that failed; and when the source compiles, it
leads to an instruction of the same function (`compile_jumps`).
-/

namespace LoxBytecode

open Heap

/-- The source did not compile. -/
def Compilation.Failed (c : Compilation) : Prop :=
  ∃ diagnostics, c.outcome = .error diagnostics

/-- What is done about jumps while a source is compiled. -/
def compileCalls (source : String) (h : Heap) (host : List Value) : JumpCall → Prop :=
  (CompileM.script (Session.budget (TokenStream.ofSource source))).Calls
    (Session.start (TokenStream.ofSource source) h host)

/-- The jump with an operand at an offset of a function is placed: its distance is that which a
call counted, to the size of the code when it was patched or from behind its operand back to the
start of its loop, and it leads to where an instruction begins unless the compilation failed. In
one that failed it may also have no distance but the placeholder. -/
inductive JumpPlaced (C : JumpCall → Prop) (failed : Prop) (begins : Nat → Prop)
    (f : FunctionHandle) (pc : Nat) : Operand → Prop
  | ahead {d : Nat} : C (.patch f (pc + 1) (pc + 3 + d)) → (¬ failed → begins (pc + 3 + d)) →
      JumpPlaced C failed begins f pc (.ahead d)
  | back {d target : Nat} : C (.start f target) → C (.loop f pc target) → target + d = pc + 3 →
      target ≤ pc → (¬ failed → begins target) → JumpPlaced C failed begins f pc (.back d)
  | aheadLost : failed → JumpPlaced C failed begins f pc (.ahead Session.maxJump)
  | backLost : failed → JumpPlaced C failed begins f pc (.back Session.maxJump)

/-- The code of a function consists of the instructions that were written, and the jumps among
them are placed. -/
structure HasJumps (C : JumpCall → Prop) (failed : Prop) (f : FunctionHandle) (c : Chunk)
    (τ : List Event) : Prop where
  written : ∃ is, c.code.toList = Item.code is ∧ τ = Item.events f 0 is
  jumps : ∀ e ∈ τ, e.happening = .writes → ∃ op, c.byteAt e.offset = .ok op.toByte ∧
    (op.isJump = true → ∃ operand, c.decode e.offset = .ok (.instruction op operand (e.offset + 3)) ∧
      JumpPlaced C failed
        (fun t => t < c.size ∧ ∃ e' ∈ τ, e'.happening = .writes ∧ e'.offset = t) f e.offset operand)

section

variable {C : JumpCall → Prop} {failed : Prop} {f : FunctionHandle} {c : Chunk} {h : Heap}
  {o : FunctionObject} {σ τ : List Event} {is : List Item} {e : Event}

/-- The jumps of a function that compiles lead to instructions. -/
theorem Finished.lands (hf : Finished h σ f) (hclosed : h.Closed [.function f])
    (ho : h.functions.get? f.index = some o) (he : e ∈ Event.ofFunction f σ)
    (hwrites : e.happening = .writes) {op : Opcode} {operand : Operand} {behind : Nat}
    (hdecode : o.chunk.decode e.offset = .ok (.instruction op operand behind))
    (hjump : op.isJump = true) :
    ∃ next, operand.Refers h o e.locals op behind next ∧
      (∀ d, operand = .back d → d ≤ next) ∧ ∀ t ∈ op.successors next operand,
        ∃ e' ∈ Event.ofFunction f σ, e'.happening = .writes ∧ e'.offset = t := by
  obtain ⟨o₁, ho₁, hlisted⟩ := hf.listed hclosed
  obtain ⟨o₂, H, ho₂, hheights⟩ := hf.hasHeights hclosed
  obtain rfl : o₁ = o := Option.some.inj (ho₁.symm.trans ho)
  obtain rfl : o₂ = o₁ := Option.some.inj (ho₂.symm.trans ho)
  obtain ⟨op₁, operand₁, behind₁, text₁, next₁, hdecode₁, hlisting₁, hrefers⟩ :=
    hlisted.instructions e (List.mem_filter.mpr ⟨he, decide_eq_true hwrites⟩)
  obtain ⟨op₂, operand₂, behind₂, text₂, next₂, hdecode₂, hlisting₂, hflows⟩ :=
    hheights.instructions e he hwrites
  rw [hdecode] at hdecode₁ hdecode₂
  cases hdecode₁
  cases hdecode₂
  rw [hlisting₁] at hlisting₂
  cases hlisting₂
  refine ⟨_, hrefers, hflows.inside, fun t ht => ?_⟩
  rcases (hflows.edges t ht).1 with hwritten | ⟨rfl, -⟩
  · exact hwritten
  · cases hjump

/-- The code of a layout without open jumps, in which the jumps of a compilation that did not
fail lead to instructions. -/
theorem Layout.hasJumps (hlayout : Layout C failed f [] σ o.chunk.code.toList is)
    (ho : h.functions.get? f.index = some o)
    (hfinished : ¬ failed → Finished h σ f ∧ h.Closed [.function f]) :
    HasJumps C failed f o.chunk (Event.ofFunction f σ) where
  written := ⟨is, hlayout.code, hlayout.events⟩
  jumps e he hwrites := by
    have hholds : o.chunk.Holds 0 is := .of_eq hlayout.code
    have hinside : ∀ e' ∈ Event.ofFunction f σ, e'.happening = .writes → e'.offset < o.chunk.size := by
      intro e' he' hwrites'
      obtain ⟨before, op, operands, after, rfl, hoffset, -⟩ := hlayout.exists_of_written he' hwrites'
      have hle := hholds.le_size
      rw [Item.size_append, Item.size_instr] at hle
      omega
    obtain ⟨before, op, operands, after, rfl, hoffset, hplaced⟩ :=
      hlayout.exists_of_written he hwrites
    have hat := hholds.right
    rw [Nat.zero_add, ← hoffset] at hat
    refine ⟨op, hat.byteAt_op, fun hjump => ?_⟩
    cases hplaced with
    | plain _ _ hplain =>
        rw [hplain] at hjump
        cases hjump
    | «open» _ _ hmem => cases hmem
    | @ahead op d _ hformat hfits hcall =>
        have hdecode := hat.decode (hformat ▸ (encoded_bytesOf16 hfits).1)
        rw [Opcode.operandSize, hformat] at hdecode
        refine ⟨_, hdecode, .ahead hcall fun hok => ?_⟩
        obtain ⟨hf, hclosed⟩ := hfinished hok
        obtain ⟨next, rfl, -, hlands⟩ := hf.lands hclosed ho he hwrites hdecode hjump
        obtain ⟨e', he', hwrites', htarget⟩ := hlands (e.offset + 3 + d) (by
          rw [Opcode.successors]
          split <;> simp [OperandFormat.size])
        exact ⟨htarget ▸ hinside e' he' hwrites', e', he', hwrites', htarget⟩
    | @back target d _ hle hdistance hfits hstart hcall =>
        have hdecode := hat.decode (encoded_bytesOf16 hfits).2
        refine ⟨_, hdecode, .back hstart hcall hdistance hle fun hok => ?_⟩
        obtain ⟨hf, hclosed⟩ := hfinished hok
        obtain ⟨next, rfl, -, hlands⟩ := hf.lands hclosed ho he hwrites hdecode hjump
        obtain ⟨e', he', hwrites', htarget⟩ := hlands target (by
          simp [Opcode.successors, Opcode.operandSize, Opcode.format, OperandFormat.size]
          omega)
        exact ⟨htarget ▸ hinside e' he' hwrites', e', he', hwrites', htarget⟩
    | lost _ hop hlost =>
        obtain ⟨hahead, hback⟩ := encoded_bytesOf16 (Nat.le_refl Session.maxJump)
        rcases Opcode.format_of_isJump hop with hformat | hformat
        · have hdecode := hat.decode (hformat ▸ hahead)
          rw [Opcode.operandSize, hformat] at hdecode
          exact ⟨_, hdecode, .aheadLost hlost⟩
        · have hdecode := hat.decode (hformat ▸ hback)
          rw [Opcode.operandSize, hformat] at hdecode
          exact ⟨_, hdecode, .backLost hlost⟩

/-! ### Sources -/

/-- A compilation begins with a script without code. -/
theorem placing_start {tokens : TokenStream} {host : List Value} (hw : h.Wf) :
    (Session.start tokens h host).Placing C [] [[]] where
  sound := Session.start_sound hw (fun _ hv => absurd hv not_reach_nil) (List.nil_subset _)
  alert := by rintro ⟨⟩
  codes := .cons ⟨[], rfl, rfl, trivial, by simp⟩ .nil
  accounted e he := by cases he

/-- Only the script is left at the end. -/
theorem Session.Placing.enclosing_eq_nil {s : Session} {J : List JumpEnd}
    (hs : s.Placing C σ [J]) : s.functions.enclosing = [] :=
  List.map_eq_nil_iff.mp (List.forall₂_nil_right_iff.mp (List.forall₂_cons.mp hs.codes).2)

/-- When the script is stored, it reaches the functions that something happened to, and their
objects hold placed code. -/
theorem Session.Placing.stored {s : Session} {heap : Heap} (hs : s.Placing C σ [[]])
    (hstores : CompileM.StoresFunction s heap) (he : e ∈ σ) :
    heap.Reach [.function s.functions.current.function] (.function e.function) ∧
      ∃ o, heap.functions.get? e.function.index = some o ∧
        HasLayout C s.Failed σ (e.function, o.chunk.code.toList) [] := by
  obtain ⟨o, ho, -, -, hchunk⟩ := hstores.object
  have hagree := hstores.agree_pool hs.sound
  rcases hs.accounted e he with hhandle | ⟨hreach, o', ho', hlayout⟩
  · rw [FunctionStack.handles_eq, Session.codes_eq, FunctionStack.codes, FunctionStack.states,
      hs.enclosing_eq_nil] at hhandle
    obtain hsame : e.function = s.functions.current.function := List.mem_singleton.mp hhandle
    rw [hsame]
    exact ⟨.root (List.mem_singleton.mpr rfl), o, ho, hchunk ▸ hs.current⟩
  · refine ⟨?_, o', Eq.trans (hagree _ hreach) ho', hlayout⟩
    have hpool : s.functions.pool = o.chunk.constants.toList := by
      rw [FunctionStack.pool, FunctionStack.cores, FunctionStack.states, hs.enclosing_eq_nil, hchunk]
      exact List.append_nil _
    have hconstants := hreach.of_agree hagree
    rw [hpool] at hconstants
    exact reach_function_of_constants ho hconstants rfl

end

/-- The jumps of all functions that are compiled on the way, whether or not the source compiles
in the end. No distance is counted that leads the wrong way. -/
theorem compile_jumps (source : String) {h : Heap} {host : List Value}
    (hreachable : h.Reachable) :
    compile source h host ≠ .error .misplacedJump ∧
    ∀ c, compile source h host = .ok c → ∀ e ∈ compileTrace source h host,
      ∃ o, c.heap.functions.get? e.function.index = some o ∧
        HasJumps (compileCalls source h host) c.Failed e.function o.chunk
          (Event.ofFunction e.function (compileTrace source h host)) := by
  have hplacing := CompileM.steady_script (C := compileCalls source h host)
    (Session.budget (TokenStream.ofSource source)) [] [] []
    (Session.start (TokenStream.ofSource source) h host) (placing_start hreachable.wf)
    fun _ hk => hk
  obtain ⟨hfault, hplacing⟩ := hplacing
  constructor
  · intro hc
    rcases bind_eq_error.mp hc with hrun | ⟨⟨⟨⟩, s⟩, -, hfinish⟩
    · exact hfault hrun
    · rcases bind_eq_error.mp hfinish with hstore | ⟨t, -, hend⟩
      · exact Session.changeHeap_ne_misplacedJump _ _ hstore
      · split at hend <;> cases hend
  · intro c hc e he
    obtain ⟨s, heap, hrun, hmodify, rfl, houtcome⟩ := compile_eq_ok hc
    have hs := hplacing () s hrun
    have hscript : s.functions.script = s.functions.current := by
      rw [FunctionStack.script, hs.enclosing_eq_nil]
      rfl
    have hfailed : s.Failed → c.Failed := by
      intro hs'
      cases hout : c.outcome with
      | error diagnostics => exact ⟨diagnostics, hout⟩
      | ok script =>
          have hempty := Array.isEmpty_iff_size_eq_zero.mp ((houtcome script).mp hout).1
          exact absurd hempty (Nat.ne_of_gt hs')
    rw [hscript] at hmodify houtcome
    obtain ⟨hreach, o, ho, is, hlayout⟩ :=
      hs.stored (CompileM.storesFunction hs.sound hmodify) he
    refine ⟨o, ho, (hlayout.mono hfailed (fun _ => id) fun _ => Or.inl).hasJumps ho fun hok => ?_⟩
    cases hout : c.outcome with
    | error diagnostics => exact absurd ⟨diagnostics, hout⟩ hok
    | ok script =>
        obtain ⟨-, rfl⟩ := (houtcome script).mp hout
        refine ⟨(compile_translates hreachable.wf hc hout).2 _ hreach, ?_⟩
        refine (compile_closed hreachable.wf hc hout).of_subset fun v hv => ?_
        rw [List.mem_singleton.mp hv]
        exact hreach

/-- The jumps of a script with a loop around branches. -/
theorem compile_jumps_loop :
    ∃ c o, compile "while (a) if (b or c) print 1;" (ofConfig ⟨true, 0, 2⟩) [] = .ok c ∧
      c.outcome = .ok ⟨0⟩ ∧ c.heap.functions.get? 0 = some o ∧
      HasJumps (compileCalls "while (a) if (b or c) print 1;" (ofConfig ⟨true, 0, 2⟩) [])
        c.Failed ⟨0⟩ o.chunk (Event.ofFunction ⟨0⟩ (compileTrace
          "while (a) if (b or c) print 1;" (ofConfig ⟨true, 0, 2⟩) [])) := by
  have hrun : (compile "while (a) if (b or c) print 1;"
      (ofConfig ⟨true, 0, 2⟩) []).map (·.outcome.toOption) = .ok (some ⟨0⟩) := by
    cbv
  have hevent : (compileTrace "while (a) if (b or c) print 1;" (ofConfig ⟨true, 0, 2⟩) []).head? =
      some ⟨⟨0⟩, .begins .declaration, 0, 1⟩ := by
    cbv
  obtain ⟨c, hc, hok⟩ := exists_of_script_eq hrun
  obtain ⟨-, hjumps⟩ := @compile_jumps "while (a) if (b or c) print 1;" _ []
    (.ofConfig ⟨true, 0, 2⟩)
  obtain ⟨o, ho, hjumps⟩ := hjumps c hc _ (List.mem_of_head? hevent)
  exact ⟨c, o, hc, hok, ho, hjumps⟩

end LoxBytecode
