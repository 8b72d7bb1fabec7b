import LoxBytecode.Proofs.Code.Placing
import LoxBytecode.Proofs.Compile.Function
import LoxBytecode.Proofs.Compile.Only

/-!
# Compilations that Place their Jumps

`Leaves C m Js Js'` is a triple about a compilation: where the ends in `Js` are open it leaves
those in `Js'` open, all jumps that it closes are placed by calls among `C`, and it never counts
the distance of a jump that leads the wrong way. Nothing is assumed about the source, and
diagnostics may come at any time. Most compilations leave open what was open (`Steady`).
-/

namespace LoxBytecode

/-! ### Faults of actions -/

section

variable {s : Session}

/-- A number that is too wide is no misplaced jump. -/
theorem narrow_ne_misplacedJump (n : Nat) : narrow n ≠ .error .misplacedJump := by
  intro h
  cases eq_wideOperand_of_narrow h

/-- Adding a constant patches no jump. -/
theorem Session.addConstant_ne_misplacedJump (v : Value) :
    s.addConstant v ≠ .error .misplacedJump := by
  simp only [addConstant]
  split
  · intro h
    rcases bind_eq_error.mp h with h | ⟨_, _, ⟨⟩⟩
    exact narrow_ne_misplacedJump _ h
  · rintro ⟨⟩

/-- Changing a function in the heap patches no jump. -/
theorem Heap.modifyFunction_ne_misplacedJump (h : Heap) (f : FunctionHandle)
    (change : FunctionObject → FunctionObject) :
    h.modifyFunction f change ≠ .error .misplacedJump := by
  rw [modifyFunction]
  split <;> rintro ⟨⟩

/-- Displaying a value patches no jump. -/
theorem Heap.display_ne_misplacedJump (h : Heap) (v : Value) :
    h.display v ≠ .error .misplacedJump := by
  have hstring : ∀ x, h.string x ≠ .error .misplacedJump := by
    intro x
    rw [string]
    split <;> rintro ⟨⟩
  cases v with
  | nil | number => rintro ⟨⟩
  | bool b => cases b <;> rintro ⟨⟩
  | string x => exact hstring x
  | function f =>
      intro hdisplay
      rcases bind_eq_error.mp hdisplay with hfunction | ⟨o, -, hname⟩
      · rw [function] at hfunction
        split at hfunction <;> cases hfunction
      · rw [displayFunction] at hname
        split at hname
        · rcases bind_eq_error.mp hname with hname | ⟨_, _, ⟨⟩⟩
          exact hstring _ hname
        · cases hname

/-- Changing a function in the heap of a session patches no jump. -/
theorem Session.changeHeap_ne_misplacedJump (f : FunctionHandle)
    (change : FunctionObject → FunctionObject) :
    s.changeHeap (·.modifyFunction f change) ≠ .error .misplacedJump := by
  rw [changeHeap]
  split
  next => rintro ⟨⟩
  next fault hfault =>
    rintro ⟨⟩
    exact Heap.modifyFunction_ne_misplacedJump _ _ _ hfault

/-- The distance of a jump is behind its operand. -/
theorem Session.patchJump_ne_misplacedJump {offset : Nat} (h : offset + 2 ≤ s.chunk.size) :
    s.patchJump offset ≠ .error .misplacedJump := by
  simp only [patchJump, if_neg (Nat.not_lt.mpr h)]
  split
  · split
    next => rintro ⟨⟩
    next fault hpatch =>
      rw [Chunk.patch16] at hpatch
      split at hpatch <;> cases hpatch
      rintro ⟨⟩
  · rintro ⟨⟩

/-- Ending a function patches no jump. -/
theorem Session.endFunction_ne_misplacedJump : s.endFunction ≠ .error .misplacedJump := by
  intro h
  rw [endFunction] at h
  rcases hpop : s.functions.pop? with - | ⟨st, rest⟩
  · rw [hpop] at h
    cases h
  · rw [hpop] at h
    rcases bind_eq_error.mp h with hstore | ⟨u, -, h⟩
    · exact changeHeap_ne_misplacedJump _ _ hstore
    · rcases bind_eq_error.mp h with hdisplay | ⟨_, -, h⟩
      · exact Heap.display_ne_misplacedJump _ _ hdisplay
      · rcases bind_eq_error.mp h with hadd | ⟨_, _, ⟨⟩⟩
        exact addConstant_ne_misplacedJump _ hadd

/-- Only patching counts a distance. -/
theorem Action.Plain.ne_misplacedJump {β : Type} {a : Action β} (hplain : a.Plain) :
    a.apply s ≠ .error .misplacedJump := by
  intro h
  cases a with
  | patchJump | beginFunction | endFunction => exact hplain.elim
  | advance | fail | failHere | resume | emit | loadNumber | beginScope | declare
  | markInitialized | findUpvalue | countParameter => cases h
  | loadString =>
      rcases bind_eq_error.mp h with h | ⟨_, _, ⟨⟩⟩
      rcases bind_eq_error.mp h with h | ⟨_, _, ⟨⟩⟩
      rw [Session.unquote] at h
      split at h <;> cases h
  | nameConstant => exact Session.addConstant_ne_misplacedJump _ h
  | endScope =>
      rcases bind_eq_error.mp h with h | ⟨_, _, ⟨⟩⟩
      rw [FunctionState.endScope] at h
      split at h <;> cases h
  | nameFunction =>
      rcases bind_eq_error.mp h with h | ⟨_, _, ⟨⟩⟩
      rw [Session.nameFunction] at h
      exact Session.changeHeap_ne_misplacedJump _ _ h

end

namespace CompileM

section

variable {α β : Type} {C : JumpCall → Prop} {σ : List Event} {J J' : List JumpEnd}
  {Js : List (List JumpEnd)} {Js' : α → List (List JumpEnd)} {s t : Session}

/-! ### Triples -/

/-- Where some ends are open, a compilation whose calls are all among `C` misplaces no jump and
leaves others open. -/
def Leaves (C : JumpCall → Prop) (m : CompileM α) (Js : List (List JumpEnd))
    (Js' : α → List (List JumpEnd)) : Prop :=
  ∀ σ s, s.Placing C σ Js → (∀ k, m.Calls s k → C k) → m.run s ≠ .error .misplacedJump ∧
    ∀ a t, m.run s = .ok (a, t) → t.Placing C (σ ++ m.trace s) (Js' a)

/-- What was open stays open. -/
def Steady (C : JumpCall → Prop) (m : CompileM α) : Prop :=
  ∀ J Js, m.Leaves C (J :: Js) fun _ => J :: Js

/-- A chain starts its second part with what the first leaves open. -/
theorem Leaves.bind {first : CompileM β} {next : β → CompileM α}
    {Js₁ : β → List (List JumpEnd)} (hfirst : first.Leaves C Js Js₁)
    (hnext : ∀ b s t, first.run s = .ok (b, t) → (next b).Leaves C (Js₁ b) Js') :
    (first >>= next).Leaves C Js Js' := by
  intro σ s hs hcalls
  obtain ⟨hfault, hplacing⟩ := hfirst σ s hs fun k hk => hcalls k (.first hk)
  rw [run_bind]
  cases hrun : first.run s with
  | error fault =>
      refine ⟨?_, by rintro a t ⟨⟩⟩
      rintro ⟨⟩
      exact hfault hrun
  | ok result =>
      obtain ⟨b, u⟩ := result
      obtain ⟨hfault, hplacing⟩ := hnext b s u hrun _ u (hplacing b u hrun) fun k hk =>
        hcalls k (.next hrun hk)
      refine ⟨hfault, fun a t ht => ?_⟩
      rw [trace_bind hrun, ← List.append_assoc]
      exact hplacing a t ht

/-- Marking a phrase changes nothing. -/
theorem Leaves.part {phrase : Phrase} {m : CompileM α} (h : m.Leaves C Js Js') :
    (part phrase m).Leaves C Js Js' := by
  intro σ s hs hcalls
  have hbegun := hs.event (show Happening.begins phrase ≠ .writes by rintro ⟨⟩)
  obtain ⟨hfault, hplacing⟩ := h _ s hbegun fun k hk => hcalls k (.part hk)
  refine ⟨hfault, fun a t ht => ?_⟩
  have hrun : m.run s = .ok (a, t) := ht
  have hend := (hplacing a t hrun).event (show Happening.ends phrase ≠ .writes by rintro ⟨⟩)
  rw [trace_part hrun]
  simpa using hend

/-- An answer leaves open what it says. -/
theorem Leaves.pure (Js' : α → List (List JumpEnd)) (a : α) :
    (Pure.pure a : CompileM α).Leaves C (Js' a) Js' := by
  intro σ s hs _
  refine ⟨by rintro ⟨⟩, ?_⟩
  rintro _ _ ⟨⟩
  rwa [trace_pure, List.append_nil]

/-- A branch leaves open what both sides do. -/
theorem Leaves.ite {c : Prop} [Decidable c] {yes no : CompileM α} (hyes : c → yes.Leaves C Js Js')
    (hno : ¬ c → no.Leaves C Js Js') : (if c then yes else no).Leaves C Js Js' := by
  split
  next hc => exact hyes hc
  next hc => exact hno hc

/-- Ends may be forgotten as long as no placeholder is. -/
theorem Leaves.of_ends {m : CompileM α} (h : m.Leaves C (J' :: Js) Js')
    (hsub : ∀ x ∈ J', x ∈ J) (hopen : ∀ x, .operand x ∈ J → .operand x ∈ J') :
    m.Leaves C (J :: Js) Js' :=
  fun σ s hs => h σ s (hs.of_ends hsub hopen)

/-- A compilation that goes wrong otherwise leaves no session to ask about. -/
theorem leaves_fault {f : Fault} (hf : f ≠ .misplacedJump) :
    (fault f : CompileM α).Leaves C Js Js' := by
  refine fun σ s _ _ => ⟨?_, by rintro a t ⟨⟩⟩
  rintro ⟨⟩
  exact hf rfl

/-- A compilation that goes wrong otherwise keeps open what is open. -/
theorem steady_fault {f : Fault} (hf : f ≠ .misplacedJump) : (fault f : CompileM α).Steady C :=
  fun _ _ => leaves_fault hf

/-- A chain keeps open what both parts do. -/
theorem Steady.bind {first : CompileM β} {next : β → CompileM α} (hfirst : first.Steady C)
    (hnext : ∀ b, (next b).Steady C) : (first >>= next).Steady C :=
  fun J Js => (hfirst J Js).bind fun b _ _ _ => hnext b J Js

/-- A branch keeps open what both sides do. -/
theorem Steady.ite {c : Prop} [Decidable c] {yes no : CompileM α} (hyes : yes.Steady C)
    (hno : no.Steady C) : (if c then yes else no).Steady C :=
  fun J Js => .ite (fun _ => hyes J Js) fun _ => hno J Js

/-- Marking a phrase changes nothing. -/
theorem Steady.part {phrase : Phrase} {m : CompileM α} (h : m.Steady C) :
    (CompileM.part phrase m).Steady C :=
  fun J Js => (h J Js).part

/-! ### Compilations that are about no jump -/

/-- The compilation begins and ends no function, and is about no jump. -/
abbrev Plain (m : CompileM α) : Prop :=
  m.Only (· ≠ .misplacedJump) Action.Plain

/-- A plain compilation keeps open what is open. -/
theorem Plain.steady {m : CompileM α} (hm : m.Plain) : m.Steady C := by
  induction m with
  | done result =>
      cases result with
      | error fault => exact fun _ _ => leaves_fault hm
      | ok a => exact fun J Js => .pure (fun _ => J :: Js) a
  | ask q =>
      intro J Js σ s hs _
      refine ⟨by rintro ⟨⟩, ?_⟩
      rintro _ _ ⟨⟩
      rwa [trace, List.append_nil]
  | act a => exact fun _ _ _ _ hs _ => ⟨hm.ne_misplacedJump, fun _ _ ht => hs.plain hm ht⟩
  | chain first next ihFirst ihNext => exact (ihFirst hm.1).bind fun b => ihNext b (hm.2 b)
  | part phrase body ih => exact (ih hm).part

attribute [local simp] Action.Plain Opcode.isJump

/-- A variable is read and written without a jump. -/
theorem isJump_of_resolve {s t : Session} {access : Access} (h : resolve.run s = .ok (access, t)) :
    access.read.isJump = Bool.false ∧ access.write.isJump = Bool.false := by
  obtain ⟨⟨found, u⟩, -, h⟩ := bind_eq_ok.mp ((run_bind ..).symm.trans h)
  rcases found with e | (- | slot) <;>
    obtain ⟨⟨found, u⟩, -, h⟩ := bind_eq_ok.mp ((run_bind ..).symm.trans h)
  · cases h
    exact ⟨rfl, rfl⟩
  · rcases found with e | (- | index) <;>
      (obtain ⟨⟨found, u⟩, -, h⟩ := bind_eq_ok.mp ((run_bind ..).symm.trans h)
       cases h
       exact ⟨rfl, rfl⟩)
  · cases h
    exact ⟨rfl, rfl⟩

/-- Parameters are about no jump. -/
theorem plain_parameters (budget : Nat) : (parameters budget).Plain := by
  induction budget with
  | zero => simp [parameters]
  | succ budget ih => simp [parameters, parameter, ih]

/-- A class is about no jump. -/
theorem plain_classDeclaration : classDeclaration.Plain := by
  simp [classDeclaration]

/-! ### Jumps -/

/-- A jump ahead is left open. -/
theorem leaves_emitJump {op : Opcode} (hop : op.format = .jumpForward) :
    (emitJump op).Leaves C (J :: Js) fun j => (.operand j :: J) :: Js := by
  intro σ s hs _
  refine ⟨by rintro ⟨⟩, ?_⟩
  rintro _ _ ⟨⟩
  have htrace : (emitJump op).trace s =
      (Action.emit op (Chunk.bytesOf16 Session.maxJump)).trace s ++ [] := rfl
  have hoffset : (s.emit op (Chunk.bytesOf16 Session.maxJump)).chunk.size - 2 =
      s.chunk.size + 1 := by
    rw [Session.size_emit]
    rfl
  have hahead := hs.emit_ahead hop
  rw [← hoffset] at hahead
  rw [htrace, List.append_nil]
  exact hahead

/-- What is written next can be jumped back to. -/
theorem leaves_codeSize : codeSize.Leaves C (J :: Js) fun n => (.target n :: J) :: Js := by
  intro σ s hs hcalls
  refine ⟨by rintro ⟨⟩, ?_⟩
  rintro _ _ ⟨⟩
  rw [codeSize, trace, List.append_nil]
  exact hs.target (hcalls _ (.start s))

/-- An open jump is closed. -/
theorem leaves_patchJump (before : List JumpEnd) {j : Nat} :
    (patchJump j).Leaves C ((before ++ .operand j :: J) :: Js) fun _ => (before ++ J) :: Js := by
  intro σ s hs hcalls
  have hj : JumpEnd.operand j ∈ before ++ .operand j :: J := by simp
  refine ⟨fun h => ?_, fun a t ht => ?_⟩
  · rcases bind_eq_error.mp h with h | ⟨_, _, ⟨⟩⟩
    exact Session.patchJump_ne_misplacedJump (hs.operand_le hj) h
  · obtain ⟨u, hu, ht⟩ := bind_eq_ok.mp ht
    cases ht
    refine hs.patchJump hu hj (hcalls _ (.patch s j)) (fun x hx => ?_) fun x hx => ?_
    · exact (List.mem_append.mp hx).elim (List.mem_append_left _)
        fun hx => List.mem_append_right _ (List.mem_cons_of_mem _ hx)
    · simpa [or_left_comm] using hx

/-- A jump back to where one can jump to. -/
theorem leaves_emitLoop {target : Nat} (ht : .target target ∈ J) :
    (emitLoop target).Leaves C (J :: Js) fun _ => J :: Js := by
  intro σ s hs hcalls
  obtain ⟨hle, hstart⟩ := hs.target_le ht
  have hcall := hcalls _ (.loop s target)
  have hrest : (emitLoop target).run s = _ ∧ (emitLoop target).trace s = _ :=
    ⟨run_bind .., trace_bind (run_codeSize s)⟩
  simp only [run_codeSize, ok_bind, if_neg (Nat.not_lt.mpr hle)] at hrest
  obtain ⟨hrun, htrace⟩ := hrest
  by_cases hfits : s.chunk.size + 3 - target ≤ Session.maxJump
  · rw [hrun, htrace]
    simp only [if_pos hfits]
    refine ⟨by rintro ⟨⟩, ?_⟩
    rintro _ _ ⟨⟩
    exact hs.emit_back (.back _ hle (by omega) hfits hstart hcall)
  · rw [hrun, htrace]
    simp only [if_neg hfits]
    refine ⟨by rintro ⟨⟩, ?_⟩
    rintro _ _ ⟨⟩
    have hreport : (s.fail .loopTooLong).Placing C (σ ++ (Action.fail .loopTooLong).trace s)
        (J :: Js) := hs.plain trivial rfl
    have hback := hreport.emit_back (.lost _ rfl (hs.failed_fail _))
    rw [List.append_assoc] at hback
    exact hback

/-- A function that begins has nothing open. -/
theorem leaves_beginFunction {Js : List (List JumpEnd)} :
    (act .beginFunction).Leaves C Js fun _ => [] :: Js := by
  intro σ s hs _
  refine ⟨by rintro ⟨⟩, ?_⟩
  rintro _ _ ⟨⟩
  exact hs.beginFunction

/-- One that ends must have nothing open. -/
theorem leaves_endFunction : (act .endFunction).Leaves C ([] :: Js) fun _ => Js :=
  fun _ _ hs _ => ⟨Session.endFunction_ne_misplacedJump, fun _ _ ht => hs.endFunction ht⟩

/-! ### Expressions -/

section

variable {parse : Precedence → CompileM Unit} (hparse : ∀ p, (parse p).Steady C)

include hparse

/-- A name keeps open what is open. -/
theorem steady_namedVariable (canAssign : Bool) : (namedVariable parse canAssign).Steady C := by
  refine fun J Js => (Plain.steady (by simp) J Js).bind fun access s t hrun => ?_
  obtain ⟨hread, hwrite⟩ := isJump_of_resolve hrun
  have haccept : (acceptIf canAssign .equal).Plain := by cases canAssign <;> simp
  have hset : (CompileM.emit access.write [access.operand]).Plain := hwrite
  have hget : (CompileM.emit access.read [access.operand]).Plain := hread
  exact haccept.steady.bind (fun _ => .ite ((hparse _).bind fun _ => hset.steady) hget.steady) J Js

/-- What begins with a prefix keeps open what is open. -/
theorem steady_atStart (canAssign : Bool) (form : PrefixForm) :
    (atStart parse canAssign form).Steady C := by
  cases form with
  | grouping => exact (hparse _).bind fun _ => Plain.steady (by simp)
  | unary =>
      refine Steady.bind (Plain.steady trivial) fun operator => (hparse _).bind fun _ => ?_
      exact Plain.steady (by cases operator <;> simp [unaryCode])
  | identifier => exact steady_namedVariable hparse canAssign
  | string | number => exact Plain.steady trivial
  | literal =>
      refine Steady.bind (Plain.steady trivial) fun operator => ?_
      exact Plain.steady (by cases operator <;> simp [literalCode])

/-- A binary operator keeps open what is open. -/
theorem steady_binary : (binary parse).Steady C := by
  refine Steady.bind (Plain.steady trivial) fun operator => (hparse _).bind fun _ => ?_
  exact Plain.steady (by cases operator <;> simp [binaryCode])

/-- Arguments keep open what is open. -/
theorem steady_arguments (budget count : Nat) : (arguments parse budget count).Steady C := by
  induction budget generalizing count with
  | zero => exact steady_fault (by decide)
  | succ budget ih =>
      have hmore : (CompileM.accept .comma >>= fun more =>
          if more = true then arguments parse budget (count + 1) else Pure.pure (count + 1)).Steady C :=
        Steady.bind (Plain.steady (by simp)) fun _ => .ite (ih _) (Plain.steady trivial)
      refine (hparse _).bind fun _ => ?_
      exact .ite (Steady.bind (Plain.steady trivial) fun _ => hmore) hmore

/-- A call keeps open what is open. -/
theorem steady_call (budget : Nat) : (call parse budget).Steady C := by
  refine Steady.bind (Plain.steady (by simp)) fun _ => .ite ?_ ?_
  · exact Plain.steady (by simp)
  · exact (steady_arguments hparse budget 0).bind fun _ => Plain.steady (by simp)

/-- A property keeps open what is open. -/
theorem steady_dot (canAssign : Bool) : (dot parse canAssign).Steady C := by
  have haccept : (acceptIf canAssign .equal).Plain := by cases canAssign <;> simp
  refine Steady.bind (Plain.steady (by simp)) fun _ => Steady.bind (Plain.steady (by simp)) fun name => ?_
  exact haccept.steady.bind fun _ => .ite ((hparse _).bind fun _ => Plain.steady (by simp))
    (Plain.steady (by simp))

/-- A conjunction patches the jump that it emits. -/
theorem steady_conjunction : (conjunction parse).Steady C := by
  intro J Js
  refine (leaves_emitJump rfl).bind fun endJump _ _ _ => ?_
  refine Leaves.bind (Plain.steady (by simp) _ _) fun _ _ _ _ => ?_
  refine (hparse _ _ _).bind fun _ _ _ _ => ?_
  exact leaves_patchJump []

/-- A disjunction patches both jumps that it emits. -/
theorem steady_disjunction : (disjunction parse).Steady C := by
  intro J Js
  refine (leaves_emitJump rfl).bind fun elseJump _ _ _ => ?_
  refine (leaves_emitJump rfl).bind fun endJump _ _ _ => ?_
  refine (leaves_patchJump [.operand endJump]).bind fun _ _ _ _ => ?_
  refine Leaves.bind (Plain.steady (by simp) _ _) fun _ _ _ _ => ?_
  refine (hparse _ _ _).bind fun _ _ _ _ => ?_
  exact leaves_patchJump []

/-- An operator behind an operand keeps open what is open. -/
theorem steady_behind (budget : Nat) (canAssign : Bool) (form : InfixForm) :
    (behind parse budget canAssign form).Steady C := by
  cases form with
  | call => exact steady_call hparse budget
  | dot => exact steady_dot hparse canAssign
  | binary => exact steady_binary hparse
  | and => exact steady_conjunction hparse
  | or => exact steady_disjunction hparse

/-- Any number of operators keep open what is open. -/
theorem steady_operators (p : Precedence) (canAssign : Bool) (budget : Nat) :
    (operators parse p canAssign budget).Steady C := by
  induction budget with
  | zero => exact steady_fault (by decide)
  | succ budget ih =>
      refine Steady.bind (Plain.steady trivial) fun kind => .ite ?_ (Plain.steady trivial)
      refine Steady.bind (Plain.steady trivial) fun _ => ?_
      refine Steady.bind (Plain.steady trivial) fun kind => ?_
      cases kind.rule.behind with
      | none => exact ih
      | some form => exact (steady_behind hparse budget canAssign form).bind fun _ => ih

end

/-- Operands at any level keep open what is open, by induction on the budget. -/
theorem steady_parsePrecedence (budget : Nat) (p : Precedence) :
    (parsePrecedence budget p).Steady C := by
  induction budget generalizing p with
  | zero => exact steady_fault (by decide)
  | succ budget ih =>
      refine Steady.bind (Plain.steady trivial) fun _ => ?_
      refine Steady.bind (Plain.steady trivial) fun kind => ?_
      cases kind.rule.atStart with
      | none => exact Plain.steady trivial
      | some form =>
          refine (steady_atStart ih _ form).bind fun _ => ?_
          exact (steady_operators ih p _ budget).bind fun _ => Plain.steady (by simp)

/-- Expressions keep open what is open. -/
theorem steady_expression (budget : Nat) : (expression budget).Steady C :=
  steady_parsePrecedence budget .assignment

/-! ### Statements -/

/-- A variable declaration keeps open what is open. -/
theorem steady_varDeclaration (budget : Nat) : (varDeclaration budget).Steady C := by
  have hend : ∀ global, (CompileM.expect .semicolon "';' after variable declaration" >>= fun _ =>
      CompileM.defineVariable global).Steady C := fun global => Plain.steady (by simp)
  refine Steady.bind (Plain.steady (by simp)) fun global => ?_
  refine Steady.bind (Plain.steady (by simp)) fun _ => .ite ?_ ?_
  · exact (steady_expression budget).bind fun _ => hend global
  · exact Steady.bind (Plain.steady (by simp)) fun _ => hend global

/-- An expression statement keeps open what is open. -/
theorem steady_expressionStatement (budget : Nat) : (expressionStatement budget).Steady C :=
  (steady_expression budget).bind fun _ => Plain.steady (by simp)

section

variable {statement declaration : CompileM Unit} (hstatement : statement.Steady C)
  (hdeclaration : declaration.Steady C)

include hstatement in
/-- A branch patches both jumps that it emits. -/
theorem steady_ifStatement (budget : Nat) : (ifStatement statement budget).Steady C := by
  intro J Js
  refine Leaves.bind (Plain.steady (by simp) _ _) fun _ _ _ _ => ?_
  refine (steady_expression budget _ _).bind fun _ _ _ _ => ?_
  refine Leaves.bind (Plain.steady (by simp) _ _) fun _ _ _ _ => ?_
  refine (leaves_emitJump rfl).bind fun thenJump _ _ _ => ?_
  refine Leaves.bind (Plain.steady (by simp) _ _) fun _ _ _ _ => ?_
  refine (hstatement _ _).bind fun _ _ _ _ => ?_
  refine (leaves_emitJump rfl).bind fun elseJump _ _ _ => ?_
  refine (leaves_patchJump [.operand elseJump]).bind fun _ _ _ _ => ?_
  refine Leaves.bind (Plain.steady (by simp) _ _) fun _ _ _ _ => ?_
  refine Leaves.bind (Plain.steady (by simp) _ _) fun _ _ _ _ => .ite (fun _ => ?_) fun _ => ?_
  · exact (hstatement _ _).bind fun _ _ _ _ => leaves_patchJump []
  · exact leaves_patchJump []

include hstatement in
/-- A while loop leads back to where it began and patches the jump out of it. -/
theorem steady_whileStatement (budget : Nat) : (whileStatement statement budget).Steady C := by
  intro J Js
  refine leaves_codeSize.bind fun start _ _ _ => ?_
  refine Leaves.bind (Plain.steady (by simp) _ _) fun _ _ _ _ => ?_
  refine (steady_expression budget _ _).bind fun _ _ _ _ => ?_
  refine Leaves.bind (Plain.steady (by simp) _ _) fun _ _ _ _ => ?_
  refine (leaves_emitJump rfl).bind fun exitJump _ _ _ => ?_
  refine Leaves.bind (Plain.steady (by simp) _ _) fun _ _ _ _ => ?_
  refine (hstatement _ _).bind fun _ _ _ _ => ?_
  refine (leaves_emitLoop (by simp)).bind fun _ _ _ _ => ?_
  refine (leaves_patchJump []).bind fun _ _ _ _ => ?_
  exact .of_ends (Plain.steady (by simp) _ _) (fun x => List.mem_cons_of_mem _) (by simp)

/-- A return keeps open what is open. -/
theorem steady_returnStatement (budget : Nat) : (returnStatement budget).Steady C := by
  have hrest : (CompileM.accept .semicolon >>= fun b => if b = true then CompileM.emitReturn else
      CompileM.expression budget >>= fun _ => CompileM.expect .semicolon "';' after return value"
        >>= fun _ => CompileM.emit .ret []).Steady C := by
    refine Steady.bind (Plain.steady (by simp)) fun _ => .ite (Plain.steady (by simp)) ?_
    exact (steady_expression budget).bind fun _ => Plain.steady (by simp)
  refine Steady.bind (Plain.steady trivial) fun kind => .ite ?_ hrest
  exact Steady.bind (Plain.steady trivial) fun _ => hrest

/-- The first clause of a for loop keeps open what is open. -/
theorem steady_forInitializer (budget : Nat) : (forInitializer budget).Steady C := by
  refine Steady.bind (Plain.steady (by simp)) fun _ => .ite (Plain.steady trivial) ?_
  refine Steady.bind (Plain.steady (by simp)) fun _ => .ite ?_ ?_
  · exact steady_varDeclaration budget
  · exact steady_expressionStatement budget

/-- The jump that leaves a loop, if there is one. -/
def exitEnds (exitJump : Option Nat) : List JumpEnd :=
  exitJump.toList.map .operand

/-- The condition of a for loop leaves its exit open, if it has one. -/
theorem leaves_forCondition (budget : Nat) :
    (forCondition budget).Leaves C (J :: Js) fun exitJump => (exitEnds exitJump ++ J) :: Js := by
  refine Leaves.bind (Plain.steady (by simp) _ _) fun _ _ _ _ => .ite (fun _ => ?_) fun _ => ?_
  · exact .pure (fun exitJump => (exitEnds exitJump ++ J) :: Js) none
  · refine (steady_expression budget _ _).bind fun _ _ _ _ => ?_
    refine Leaves.bind (Plain.steady (by simp) _ _) fun _ _ _ _ => ?_
    refine (leaves_emitJump rfl).bind fun exitJump _ _ _ => ?_
    refine Leaves.bind (Plain.steady (by simp) _ _) fun _ _ _ _ => ?_
    exact .pure (fun exitJump => (exitEnds exitJump ++ J) :: Js) (some exitJump)

/-- The last clause of a for loop leaves a place to lead back to. -/
theorem leaves_forIncrement (budget : Nat) {start : Nat} (hstart : .target start ∈ J) :
    (forIncrement budget start).Leaves C (J :: Js) fun target => (.target target :: J) :: Js := by
  refine Leaves.bind (Plain.steady (by simp) _ _) fun _ _ _ _ => .ite (fun _ => ?_) fun _ => ?_
  · exact .of_ends (.pure (fun target => (.target target :: J) :: Js) start) (by simp [hstart])
      fun x => List.mem_cons_of_mem _
  · refine (leaves_emitJump rfl).bind fun bodyJump _ _ _ => ?_
    refine leaves_codeSize.bind fun increment _ _ _ => ?_
    refine (steady_expression budget _ _).bind fun _ _ _ _ => ?_
    refine Leaves.bind (Plain.steady (by simp) _ _) fun _ _ _ _ => ?_
    refine Leaves.bind (Plain.steady (by simp) _ _) fun _ _ _ _ => ?_
    refine (leaves_emitLoop (by simp [hstart])).bind fun _ _ _ _ => ?_
    refine (leaves_patchJump [.target increment]).bind fun _ _ _ _ => ?_
    exact .pure (fun target => (.target target :: J) :: Js) increment

include hstatement in
/-- A for loop leads back to such a place and patches its exit. -/
theorem steady_forStatement (budget : Nat) : (forStatement statement budget).Steady C := by
  intro J Js
  refine Leaves.bind (Plain.steady (by simp) _ _) fun _ _ _ _ => ?_
  refine Leaves.bind (Plain.steady (by simp) _ _) fun _ _ _ _ => ?_
  refine (steady_forInitializer budget _ _).bind fun _ _ _ _ => ?_
  refine leaves_codeSize.bind fun start _ _ _ => ?_
  refine (leaves_forCondition budget).bind fun exitJump _ _ _ => ?_
  refine (leaves_forIncrement budget (by simp)).bind fun target _ _ _ => ?_
  refine (hstatement _ _).bind fun _ _ _ _ => ?_
  refine (leaves_emitLoop (by simp)).bind fun _ _ _ _ => ?_
  have hend : CompileM.endScope.Leaves C ((.target target :: .target start :: J) :: Js)
      fun _ => J :: Js :=
    .of_ends ((Plain.steady (by simp)) _ _)
      (fun x hx => List.mem_cons_of_mem _ (List.mem_cons_of_mem _ hx)) (by simp)
  cases exitJump with
  | none => exact hend
  | some exitJump =>
      refine (leaves_patchJump [.target target]).bind fun _ _ _ _ => ?_
      exact Leaves.bind (Plain.steady (by simp) _ _) fun _ _ _ _ => hend

include hdeclaration in
/-- A block keeps open what is open if declarations do. -/
theorem steady_block (budget : Nat) : (block declaration budget).Steady C := by
  induction budget with
  | zero => exact steady_fault (by decide)
  | succ budget ih =>
      refine Steady.bind (Plain.steady trivial) fun kind => .ite (Plain.steady (by simp)) ?_
      exact hdeclaration.bind fun _ => ih

include hdeclaration in
/-- A block as a statement keeps open what is open if declarations do. -/
theorem steady_blockStatement (budget : Nat) : (blockStatement declaration budget).Steady C := by
  refine Steady.bind (Plain.steady (by simp)) fun _ => ?_
  exact (steady_block hdeclaration budget).bind fun _ => (Plain.steady (by simp))

/-- Ending a function takes it from the stack, where none of its jumps is open. -/
theorem leaves_closeFunction : closeFunction.Leaves C ([] :: J :: Js) fun _ => J :: Js :=
  leaves_endFunction.bind fun _ _ _ _ => Plain.steady (by simp) _ _

include hdeclaration in
/-- The body of a function leaves none of its own jumps open. -/
theorem leaves_functionBody (budget : Nat) :
    (functionBody declaration budget).Leaves C ([] :: J :: Js) fun _ => J :: Js := by
  refine Leaves.bind (Plain.steady (by simp) _ _) fun _ _ _ _ => ?_
  refine Leaves.bind (Plain.steady (by simp) _ _) fun _ _ _ _ => ?_
  refine (steady_block hdeclaration budget _ _).bind fun _ _ _ _ => ?_
  exact (Plain.steady (by simp)) _ _ |>.bind fun _ _ _ _ => leaves_closeFunction

include hdeclaration in
/-- A function keeps open what is open around it. -/
theorem steady_function (budget : Nat) : (function declaration budget).Steady C := by
  intro J Js
  refine leaves_beginFunction.bind fun _ _ _ _ => ?_
  refine Leaves.bind (Plain.steady (by simp) _ _) fun _ _ _ _ => ?_
  refine Leaves.bind (Plain.steady (by simp) _ _) fun _ _ _ _ => ?_
  refine Leaves.bind (Plain.steady (by simp) _ _) fun _ _ _ _ => ?_
  refine Leaves.bind (Plain.steady (by simp) _ _) fun _ _ _ _ => .ite (fun _ => ?_) fun _ => ?_
  · exact leaves_functionBody hdeclaration budget
  · refine ((plain_parameters budget).steady _ _).bind fun _ _ _ _ => ?_
    exact leaves_functionBody hdeclaration budget

include hdeclaration in
/-- The declaration of a function keeps open what is open. -/
theorem steady_funDeclaration (budget : Nat) : (funDeclaration declaration budget).Steady C := by
  refine Steady.bind (Plain.steady (by simp)) fun global => ?_
  refine Steady.bind (Plain.steady (by simp)) fun _ => ?_
  exact (steady_function hdeclaration budget).bind fun _ => Plain.steady (by simp)

end

/-- A form that its first token announces, or the forms that are left. -/
theorem Steady.acceptThen {kind : TokenKind} {yes no : CompileM Unit} (hyes : yes.Steady C)
    (hno : no.Steady C) :
    (CompileM.accept kind >>= fun b => if b = true then yes else no).Steady C :=
  Steady.bind (Plain.steady (by simp)) fun _ => .ite hyes hno

/-- What is skipped after a diagnostic is not compiled. -/
theorem Steady.recovering {budget : Nat} {body : CompileM Unit} (hbody : body.Steady C) :
    (body >>= fun _ => isRecovering >>= fun b =>
      if b = true then synchronize budget else Pure.pure ()).Steady C := by
  refine hbody.bind fun _ => Steady.bind (Plain.steady trivial) fun _ => .ite ?_ (Plain.steady trivial)
  exact Steady.bind (Plain.steady trivial) fun _ => Plain.steady (by simp)

/-- Statements and declarations keep open what is open, by induction on the budget of both. -/
theorem steady_statement_declaration (budget : Nat) :
    (CompileM.statement budget).Steady C ∧ (CompileM.declaration budget).Steady C := by
  induction budget with
  | zero => exact ⟨steady_fault (by decide), steady_fault (by decide)⟩
  | succ budget ih =>
      obtain ⟨hstatement, hdeclaration⟩ := ih
      have hvariable := steady_namedVariable (C := C) (steady_parsePrecedence budget) Bool.false
      constructor
      · rw [CompileM.statement]
        refine Steady.part (.acceptThen ?_ (.acceptThen ?_ (.acceptThen ?_ (.acceptThen ?_
          (.acceptThen ?_ (.acceptThen ?_ (.acceptThen ?_ ?_)))))))
        · exact (steady_expression budget).bind fun _ => Plain.steady (by simp)
        · refine Steady.bind (Plain.steady (by simp)) fun _ => ?_
          exact hvariable.bind fun _ => Plain.steady (by simp)
        · exact steady_returnStatement budget
        · exact steady_ifStatement hstatement budget
        · exact steady_whileStatement hstatement budget
        · exact steady_forStatement hstatement budget
        · exact steady_blockStatement hdeclaration budget
        · exact steady_expressionStatement budget
      · rw [CompileM.declaration]
        refine Steady.part (.acceptThen (.recovering ?_) (.acceptThen (.recovering ?_)
          (.acceptThen (.recovering ?_) (.recovering hstatement))))
        · exact plain_classDeclaration.steady
        · exact steady_funDeclaration hdeclaration budget
        · exact steady_varDeclaration budget

/-- Where nothing is open, a script leaves nothing open. -/
theorem steady_script (budget : Nat) : (script budget).Steady C := by
  have hloop : ∀ left, (declarations.loop budget left).Steady C := by
    intro left
    induction left with
    | zero => exact steady_fault (by decide)
    | succ left ih =>
        refine Steady.bind (Plain.steady (by simp)) fun _ => .ite (Plain.steady trivial) ?_
        exact (steady_statement_declaration budget).2.bind fun _ => ih
  exact Steady.bind (Plain.steady trivial) fun _ => (hloop budget).bind fun _ => (Plain.steady (by simp))

end

end CompileM

end LoxBytecode
