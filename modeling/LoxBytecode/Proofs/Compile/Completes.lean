import LoxBytecode.Proofs.Code.Placing
import LoxBytecode.Proofs.Compile.Function
import LoxBytecode.Proofs.Compile.Only
import LoxBytecode.Proofs.Session.Bounds

/-!
# Compilations that End without a Fault

Compiling ends without a fault, whatever the source. `Completes n k m` says so of one compilation:
on every bounded session with fewer than `n` tokens left and at least `k` bytes of code, `m` runs
through, and every function goes on. The tokens left bound the depth of the recursion, and the
bytes written bound where jumps lead; the rules below carry both through all forms of the
language. What ends a scope or a function that was begun before it has a `Closing` to say so.
-/

namespace LoxBytecode

/-! ### What a compilation closes -/

/-- What a compilation ends besides all that it begins itself. -/
inductive Closing where
  | nothing
  | scope
  | function
deriving DecidableEq

/-- There is something to end. -/
def Closing.Possible : Closing → FunctionStack → Prop
  | .nothing, _ => True
  | .scope, s => s.current.scopeDepth ≠ 0
  | .function, s => s.enclosing ≠ []

/-- What went on has, up to what was ended. -/
def Closing.Relates : Closing → FunctionStack → FunctionStack → Prop
  | .nothing, s, t => s.Advances t
  | .scope, s, t => s.Advances (t.modifyCurrent FunctionState.beginScope)
  | .function, s, t => List.Forall₂ FunctionState.Advances s.enclosing t.states

section

variable {c : Closing} {s t u : FunctionStack}

/-- What can be ended still can when every function has gone on. -/
theorem Closing.Possible.of_advances (h : c.Possible s) (hadvances : s.Advances u) :
    c.Possible u := by
  obtain ⟨hcurrent, hrest⟩ := List.forall₂_cons.mp hadvances
  cases c with
  | nothing => trivial
  | scope => exact fun hdepth => h (hcurrent.scopeDepth ▸ hdepth)
  | function =>
      intro hempty
      have hlength := hrest.length_eq
      rw [hempty, List.length_nil, List.length_eq_zero_iff] at hlength
      exact h hlength

/-- What went on before something was ended has gone on in all. -/
theorem Closing.Relates.after (h : c.Relates u t) (hadvances : s.Advances u) :
    c.Relates s t := by
  cases c with
  | nothing | scope => exact hadvances.trans h
  | function => exact forall₂_advances_trans (List.forall₂_cons.mp hadvances).2 h

/-- What went on after something was ended has gone on in all. -/
theorem Closing.Relates.before (h : c.Relates s u) (hadvances : u.Advances t) :
    c.Relates s t := by
  obtain ⟨hcurrent, hrest⟩ := List.forall₂_cons.mp hadvances
  cases c with
  | nothing => exact FunctionStack.Advances.trans h hadvances
  | scope =>
      refine FunctionStack.Advances.trans h (.cons ⟨?_, hcurrent.size⟩ hrest)
      exact congrArg (· + 1) hcurrent.scopeDepth
  | function => exact forall₂_advances_trans h hadvances

end

namespace CompileM

variable {α β : Type} {c : Closing} {n k : Nat}

/-- On a bounded session with fewer than `n` tokens left and at least `k` bytes of code, a
compilation ends without a fault. -/
def Completes (c : Closing) (n k : Nat) (m : CompileM α) : Prop :=
  ∀ s : Session, s.Bounded → s.left < n → k ≤ s.chunk.size → c.Possible s.functions →
    ∃ a t, m.run s = .ok (a, t) ∧ c.Relates s.functions t.functions

/-! ### Rules -/

/-- Where the first part of a chain ends well, the second is run. -/
theorem run_bind_of_ok {first : CompileM β} {next : β → CompileM α} {s u : Session} {b : β}
    (h : first.run s = .ok (b, u)) : (first >>= next).run s = (next b).run u := by
  rw [run_bind, h]
  rfl

/-- With fewer tokens left and more code a compilation still completes. -/
theorem Completes.mono {n' k' : Nat} {m : CompileM α} (h : m.Completes c n k) (hn : n' ≤ n)
    (hk : k ≤ k') : m.Completes c n' k' :=
  fun s hs hleft hsize => h s hs (Nat.lt_of_lt_of_le hleft hn) (Nat.le_trans hk hsize)

/-- A chain completes if both parts do, the first without ending anything. -/
theorem Completes.bind {first : CompileM β} {next : β → CompileM α}
    (hfirst : first.Completes .nothing n k) (hnext : ∀ b, (next b).Completes c n k) :
    (first >>= next).Completes c n k := by
  intro s hs hleft hsize hpossible
  obtain ⟨b, u, hrun, hadvances⟩ := hfirst s hs hleft hsize trivial
  obtain ⟨a, t, hrun', hrelates⟩ := hnext b u (first.bounded hs hrun)
    (Nat.lt_of_le_of_lt (first.left_le hs.orderly hrun) hleft)
    (Nat.le_trans hsize hadvances.size_le) (hpossible.of_advances hadvances)
  exact ⟨a, t, (run_bind_of_ok hrun).trans hrun', hrelates.after hadvances⟩

/-- What follows after something was closed. -/
theorem Completes.andThen {first : CompileM β} {next : β → CompileM α}
    (hfirst : first.Completes c n k) (hnext : ∀ b, (next b).Completes .nothing n 0) :
    (first >>= next).Completes c n k := by
  intro s hs hleft hsize hpossible
  obtain ⟨b, u, hrun, hrelates⟩ := hfirst s hs hleft hsize hpossible
  obtain ⟨a, t, hrun', hadvances⟩ := hnext b u (first.bounded hs hrun)
    (Nat.lt_of_le_of_lt (first.left_le hs.orderly hrun) hleft) (Nat.zero_le _) trivial
  exact ⟨a, t, (run_bind_of_ok hrun).trans hrun', hrelates.before hadvances⟩

/-- A branch completes if both sides do. -/
theorem Completes.ite {p : Prop} [Decidable p] {yes no : CompileM α}
    (hyes : yes.Completes c n k) (hno : no.Completes c n k) :
    (if p then yes else no).Completes c n k := by
  split
  · exact hyes
  · exact hno

/-- A part completes if its body does. -/
theorem Completes.part {phrase : Phrase} {m : CompileM α} (h : m.Completes c n k) :
    (CompileM.part phrase m).Completes c n k := h

/-- Behind a token that was there, one token less is left. -/
theorem Completes.acceptThen {kind : TokenKind} (hkind : kind ≠ .eof) {yes no : CompileM α}
    (hyes : yes.Completes c (n - 1) k) (hno : no.Completes c n k) :
    (accept kind >>= fun b => if b = true then yes else no).Completes c n k := by
  intro s hs hleft hsize hpossible
  rw [run_bind, run_accept]
  split
  next hcurrent =>
    have hpos : 0 < s.left := Session.left_pos fun heof => hkind (hcurrent.symm.trans heof)
    have hrun : CompileM.advance.run s = .ok ((), s.advance) := rfl
    have hfunctions := Session.functions_advance s
    obtain ⟨a, t, hrun', hrelates⟩ := hyes s.advance (CompileM.advance.bounded hs hrun)
      (by rw [Session.left_advance hs.orderly]; omega)
      (by rw [Session.chunk, hfunctions]; exact hsize) (by rwa [hfunctions])
    exact ⟨a, t, hrun', by rwa [hfunctions] at hrelates⟩
  next => exact hno s hs hleft hsize hpossible

/-- A chain whose first part is a chain. -/
theorem Completes.assoc {γ : Type} {first : CompileM β} {next : β → CompileM γ}
    {last : γ → CompileM α} (h : (first >>= fun b => next b >>= last).Completes c n k) :
    ((first >>= next) >>= last).Completes c n k := by
  intro s
  have hrun : ((first >>= next) >>= last).run s =
      (first >>= fun b => next b >>= last).run s := by
    simp only [run_bind, bind_assoc]
  rw [hrun]
  exact h s

/-- A branch on a token completes where the rest follows behind both sides. -/
theorem Completes.acceptThenBind {kind : TokenKind} (hkind : kind ≠ .eof)
    {yes no : CompileM β} {last : β → CompileM α} (hyes : (yes >>= last).Completes c (n - 1) k)
    (hno : (no >>= last).Completes c n k) :
    ((accept kind >>= fun b => if b = true then yes else no) >>= last).Completes c n k := by
  intro s
  have hrun : ((accept kind >>= fun b => if b = true then yes else no) >>= last).run s =
      (accept kind >>= fun b => if b = true then yes >>= last else no >>= last).run s := by
    simp only [run_bind, run_accept]
    split <;> simp [run_bind]
  rw [hrun]
  exact Completes.acceptThen hkind hyes hno s

/-- A branch completes on a token that may only stand in some places. -/
theorem Completes.acceptIfThen {allowed : Bool} {kind : TokenKind} (hkind : kind ≠ .eof)
    {yes no : CompileM α} (hyes : yes.Completes c (n - 1) k) (hno : no.Completes c n k) :
    (acceptIf allowed kind >>= fun b => if b = true then yes else no).Completes c n k := by
  cases allowed with
  | true => exact .acceptThen hkind hyes hno
  | false => exact hno

/-! ### Compilations that never fail -/

end CompileM

/-- The action begins and ends nothing, and has no fault on a bounded session. -/
def Action.Safe {β : Type} : Action β → Prop
  | .patchJump _ | .loadString => False
  | a => a.Level

/-- A safe action has an answer on every bounded session. -/
theorem Action.Safe.exists_apply {β : Type} {a : Action β} (ha : a.Safe) {s : Session}
    (hs : s.Bounded) : ∃ b t, a.apply s = .ok (b, t) := by
  cases a with
  | patchJump | loadString | beginScope | endScope | beginFunction | endFunction =>
      exact ha.elim
  | nameConstant =>
      obtain ⟨⟨index, t⟩, h⟩ :=
        (s.intern s.previous.lexeme).2.exists_addConstant (.string (s.intern s.previous.lexeme).1)
      exact ⟨index, t, h⟩
  | nameFunction =>
      obtain ⟨t, h⟩ := Session.exists_nameFunction hs.orderly
      exact ⟨(), t, by rw [Action.apply, h, ok_bind]; rfl⟩
  | advance | fail | failHere | resume | emit | loadNumber | declare | markInitialized
  | findUpvalue | countParameter => exact ⟨_, _, rfl⟩

/-- A safe action begins and ends nothing. -/
theorem Action.Safe.level {β : Type} {a : Action β} (ha : a.Safe) : a.Level := by
  cases a <;> first | exact ha.elim | exact trivial

namespace CompileM

/-- The compilation begins and ends nothing, and has no fault on a bounded session. -/
abbrev Safe (m : CompileM α) : Prop :=
  m.Only (fun _ => False) Action.Safe

/-- Compilations of safe actions complete, without any tokens to spare. -/
theorem Safe.completes {m : CompileM α} (hm : m.Safe) : m.Completes .nothing n k := by
  induction m with
  | done result =>
      cases result with
      | error fault => exact hm.elim
      | ok a => exact fun s _ _ _ _ => ⟨a, s, rfl, .refl _⟩
  | ask q => exact fun s _ _ _ _ => ⟨_, s, rfl, .refl _⟩
  | act a =>
      intro s hs _ _ _
      obtain ⟨b, t, h⟩ := Action.Safe.exists_apply hm hs
      exact ⟨b, t, h, (Action.Safe.level hm).advances h⟩
  | chain first next ihFirst ihNext =>
      exact Completes.bind (ihFirst hm.1) fun b => ihNext b (hm.2 b)
  | part phrase body ih => exact ih hm

attribute [local simp] Action.Safe Action.Level

/-! ### Jumps -/

/-- The room of a jump lies within the code. -/
theorem Completes.emitJumpThen {op : Opcode} {next : Nat → CompileM α}
    (h : ∀ j, (next j).Completes c n (max k (j + 2))) :
    (emitJump op >>= next).Completes c n k := by
  intro s hs hleft hsize hpossible
  have hrun : (emitJump op).run s =
      .ok ((s.emit op (Chunk.bytesOf16 Session.maxJump)).chunk.size - 2,
        s.emit op (Chunk.bytesOf16 Session.maxJump)) := rfl
  have hwritten := Session.size_emit s op (Chunk.bytesOf16 Session.maxJump)
  rw [Scope.length_bytesOf16] at hwritten
  have hadvances : s.functions.Advances
      (s.emit op (Chunk.bytesOf16 Session.maxJump)).functions :=
    Action.Level.advances (a := .emit op (Chunk.bytesOf16 Session.maxJump)) trivial rfl
  obtain ⟨a, t, hrun', hrelates⟩ := h
    ((s.emit op (Chunk.bytesOf16 Session.maxJump)).chunk.size - 2) _
    ((emitJump op).bounded hs hrun)
    (Nat.lt_of_le_of_lt ((emitJump op).left_le hs.orderly hrun) hleft) (by omega)
    (hpossible.of_advances hadvances)
  exact ⟨a, t, (run_bind_of_ok hrun).trans hrun', hrelates.after hadvances⟩

/-- An offset that was the length of the code lies within it. -/
theorem Completes.codeSizeThen {next : Nat → CompileM α}
    (h : ∀ j, (next j).Completes c n (max k j)) : (codeSize >>= next).Completes c n k :=
  fun s hs hleft hsize hpossible =>
    h s.chunk.size s hs hleft (Nat.max_le.mpr ⟨hsize, Nat.le_refl _⟩) hpossible

/-- A distance can be filled in within the code. -/
theorem completes_patchJump {j : Nat} (hj : j + 2 ≤ k) :
    (patchJump j).Completes .nothing n k := by
  intro s hs _ hsize _
  obtain ⟨t, ht⟩ := Session.exists_patchJump (Nat.le_trans hj hsize)
  exact ⟨(), t, by rw [run_patchJump, ht, ok_bind], Session.advances_patchJump ht⟩

/-- A jump back leads to an offset within the code. -/
theorem completes_emitLoop {target : Nat} (htarget : target ≤ k) :
    (emitLoop target).Completes .nothing n k := by
  have hemit : ∀ operands, (emit .loop operands).Completes .nothing n k :=
    fun _ => Safe.completes trivial
  intro s hs hleft hsize hpossible
  have hrun : (emitLoop target).run s = (if s.chunk.size + 3 - target ≤ Session.maxJump
      then emit .loop (Chunk.bytesOf16 (s.chunk.size + 3 - target))
      else fail .loopTooLong >>= fun _ => emit .loop (Chunk.bytesOf16 Session.maxJump)).run s := by
    simp only [emitLoop, run_bind, run_codeSize, ok_bind,
      if_neg (Nat.not_lt.mpr (Nat.le_trans htarget hsize))]
  rw [hrun]
  refine Completes.ite (n := n) (k := k) (c := .nothing) (hemit _) ?_ s hs hleft hsize hpossible
  exact Completes.bind (Safe.completes trivial) fun _ => hemit _

/-! ### Scopes and functions -/

/-- What a scope contains, if it ends the scope. -/
theorem Completes.scoped {m : CompileM α} (h : m.Completes .scope n k) :
    (beginScope >>= fun _ => m).Completes .nothing n k := by
  intro s hs hleft hsize _
  have hrun : beginScope.run s = .ok ((), s.modifyFunction FunctionState.beginScope) := rfl
  obtain ⟨a, t, hrun', hadvances⟩ := h _ (beginScope.bounded hs hrun)
    (Nat.lt_of_le_of_lt (beginScope.left_le hs.orderly hrun) hleft) hsize (Nat.succ_ne_zero _)
  obtain ⟨hcurrent, hrest⟩ := List.forall₂_cons.mp hadvances
  exact ⟨a, t, (run_bind_of_ok hrun).trans hrun',
    .cons ⟨Nat.succ.inj hcurrent.scopeDepth, hcurrent.size⟩ hrest⟩

/-- A scope can be ended where there is one. -/
theorem completes_endScope : CompileM.endScope.Completes .scope n k := by
  refine Completes.andThen ?_ fun flags => Safe.completes (by simp)
  intro s hs _ _ hpossible
  obtain ⟨depth, hdepth⟩ := Nat.exists_eq_succ_of_ne_zero hpossible
  obtain ⟨flags, t, ht⟩ := Session.exists_endScope hdepth
  refine ⟨flags, t, ht, ?_⟩
  rw [Session.endScope] at ht
  obtain ⟨⟨flags', st⟩, hst, ht⟩ := bind_eq_ok.mp ht
  cases ht
  rw [FunctionState.endScope, hdepth] at hst
  cases hst
  exact .of_current ⟨hdepth.symm, Nat.le_refl _⟩

/-- What a function contains, if it ends the function. -/
theorem Completes.inFunction {m : CompileM α} (h : m.Completes .function n 0) :
    (act .beginFunction >>= fun _ => m).Completes .nothing n k := by
  intro s hs hleft _ _
  have hrun : (act .beginFunction).run s = .ok ((), s.beginFunction) := rfl
  obtain ⟨a, t, hrun', hadvances⟩ := h _ ((act .beginFunction).bounded hs hrun)
    (Nat.lt_of_le_of_lt ((act .beginFunction).left_le hs.orderly hrun) hleft) (Nat.zero_le _)
    (List.cons_ne_nil _ _)
  exact ⟨a, t, (run_bind_of_ok hrun).trans hrun', hadvances⟩

/-- A function's scope ends with it. -/
theorem Completes.inScope {m : CompileM α} (h : m.Completes .function n k) :
    (beginScope >>= fun _ => m).Completes .function n k := by
  intro s hs hleft hsize hpossible
  have hrun : beginScope.run s = .ok ((), s.modifyFunction FunctionState.beginScope) := rfl
  obtain ⟨a, t, hrun', hadvances⟩ := h _ (beginScope.bounded hs hrun)
    (Nat.lt_of_le_of_lt (beginScope.left_le hs.orderly hrun) hleft) hsize hpossible
  exact ⟨a, t, (run_bind_of_ok hrun).trans hrun', hadvances⟩

/-- The captures of a linked function whose enclosing one fits are written as bytes. -/
theorem exists_captureBytes {cs : List Capture} {outer : FunctionState} (houter : outer.Fits)
    (h : ∀ c ∈ cs, c.ValidIn outer) : ∃ bytes, captureBytes cs = .ok bytes := by
  induction cs with
  | nil => exact ⟨_, rfl⟩
  | cons c cs ih =>
      obtain ⟨hc, hcs⟩ := List.forall_mem_cons.mp h
      obtain ⟨bytes, hbytes⟩ := ih hcs
      have hindex : c.index < 256 := by
        rw [Capture.ValidIn] at hc
        split at hc
        · exact Nat.lt_of_lt_of_le hc houter.locals
        · exact Nat.lt_of_lt_of_le hc houter.upvalues
      rw [captureBytes, narrow_eq_ok hindex, ok_bind, hbytes, ok_bind]
      exact ⟨_, rfl⟩

/-- A function can be closed, whatever it captures. -/
theorem completes_closeFunction : closeFunction.Completes .function n k := by
  intro s hs _ _ hpossible
  obtain ⟨parent, rest, hrest⟩ := List.exists_cons_of_ne_nil hpossible
  have hfunctions : s.functions = ⟨s.functions.current, parent :: rest⟩ := by rw [← hrest]
  obtain ⟨⟨⟨constant, captures⟩, u⟩, hend⟩ := Session.exists_endFunction hs.orderly hfunctions
  obtain ⟨st, parent', rest', heap, v, hfunctions', rfl, -, rfl, hadd⟩ :=
    Session.endFunction_eq_ok hend
  rw [hfunctions] at hfunctions'
  cases hfunctions'
  have hlinked := hs.orderly.linked
  rw [hrest] at hlinked
  have hparent := hs.fits parent (by rw [FunctionStack.states, hrest]; simp)
  obtain ⟨bytes, hbytes⟩ := exists_captureBytes hparent hlinked.1
  refine ⟨(), u.emit .closure (constant :: bytes), ?_, ?_⟩
  · have hrun : (act .endFunction).run s = .ok ((constant, s.functions.current.upvalues), u) :=
      hend
    simp only [closeFunction, run_bind, hrun, ok_bind, run_liftM, hbytes, run_emit]
  · have hclosed : Closing.function.Relates s.functions u.functions := by
      show List.Forall₂ _ s.functions.enclosing u.functions.states
      rw [hrest]
      exact Session.advances_addConstant
        (s := { s with functions := ⟨parent, rest⟩, heap := heap }) hadd
    exact hclosed.before (Action.Level.advances (a := .emit .closure (constant :: bytes)) trivial rfl)

/-! ### Expressions -/

/-- Every operand has a level. -/
theorem next_ne_none (p : Precedence) : p.next ≠ .none := by
  cases p <;> decide

/-- Where no token is left to spare there is nothing to complete. -/
theorem completes_fault {f : Fault} : (fault f : CompileM α).Completes c 0 k :=
  fun _ _ hleft => absurd hleft (Nat.not_lt_zero _)

/-- A number that fits a byte is not refused. -/
theorem safe_narrow {i : Nat} (h : i < 256) : (liftM (narrow i) : CompileM UInt8).Safe := by
  rw [narrow_eq_ok h]
  trivial

/-- A slot or a capture that is found fits the byte of its access. -/
theorem completes_resolve : resolve.Completes .nothing n k := by
  intro s hs hleft hsize _
  have hslot : ∀ {i : Nat}, i < 256 → ∀ access : UInt8 → Access,
      ((liftM (narrow i) : CompileM UInt8) >>= fun b => pure (access b)).Completes .nothing n k :=
    fun hi access => Completes.bind (safe_narrow hi).completes fun _ => (Safe.completes trivial)
  have hfail : ∀ e (access : Access), (fail (.scope e) >>= fun _ => pure access).Completes .nothing n k :=
    fun e access => Safe.completes (by simp)
  rw [resolve, run_bind_of_ok (run_ask s .findLocal)]
  rcases hlocal : Query.answer s .findLocal with e | (- | slot)
  · exact hfail e (.local 0) s hs hleft hsize trivial
  · rcases hfind : s.findUpvalue with ⟨found, u⟩
    have hrun : (act .findUpvalue).run s = .ok (found, u) := congrArg Except.ok hfind
    have hadvances : s.functions.Advances u.functions :=
      Action.Level.advances (a := .findUpvalue) trivial hrun
    have hbounded := (act .findUpvalue).bounded hs hrun
    have hleft' := Nat.lt_of_le_of_lt ((act .findUpvalue).left_le hs.orderly hrun) hleft
    have hsize' := Nat.le_trans hsize hadvances.size_le
    have hafter : ∀ {m : CompileM Access}, m.Completes .nothing n k →
        ∃ access t, m.run u = .ok (access, t) ∧ s.functions.Advances t.functions := by
      intro m hm
      obtain ⟨access, t, hrun', hadvances'⟩ := hm u hbounded hleft' hsize' trivial
      exact ⟨access, t, hrun', hadvances.trans hadvances'⟩
    show ∃ access t, (act .findUpvalue >>= _).run s = .ok (access, t) ∧ _
    rw [run_bind_of_ok hrun]
    rcases found with e | (- | index)
    · exact hafter (hfail e (.upvalue 0))
    · have hglobal : (nameConstant >>= fun i => pure (Access.global i)).Completes .nothing n k :=
        Safe.completes (by simp)
      exact hafter hglobal
    · obtain ⟨p, -, horigin⟩ := (resolveCapture_spec s.previous.lexeme s.functions.current
        s.functions.enclosing).place index (congrArg Prod.fst hfind)
      have hcurrent : (resolveCapture s.previous.lexeme s.functions.current
          s.functions.enclosing).2.1 = u.functions.current :=
        congrArg (fun result => result.2.functions.current) hfind
      rw [hcurrent] at horigin
      have hindex := Nat.lt_of_lt_of_le (lt_of_originOf? horigin)
        (hbounded.fits _ (List.mem_cons_self ..)).upvalues
      exact hafter (hslot hindex .upvalue)
  · have hindex := Nat.lt_of_lt_of_le (FunctionState.lt_of_resolveLocal hlocal)
      (hs.fits s.functions.current (List.mem_cons_self ..)).locals
    exact hslot hindex .local s hs hleft hsize trivial

section

variable {parse : Precedence → CompileM Unit}
  (hparse : ∀ {p k}, p ≠ .none → (parse p).Completes .nothing n k)

include hparse

/-- The use of a variable completes if the expression in it does. -/
theorem completes_namedVariable (canAssign : Bool) :
    (namedVariable parse canAssign).Completes .nothing n k := by
  have hassign : ∀ access : Access, (do
      parse .assignment
      emit access.write [access.operand]).Completes .nothing n k :=
    fun access => (hparse (by decide)).bind fun _ => Safe.completes trivial
  have hread : ∀ access : Access, (emit access.read [access.operand]).Completes .nothing n k :=
    fun access => Safe.completes trivial
  refine completes_resolve.bind fun access => ?_
  exact .acceptIfThen (by decide) ((hassign access).mono (Nat.sub_le ..) (Nat.le_refl _))
    (hread access)

/-- Arguments complete on a budget of the tokens left. -/
theorem completes_arguments {budget : Nat} (hbudget : n ≤ budget) (count : Nat) :
    (arguments parse budget count).Completes .nothing n k := by
  induction budget generalizing n count with
  | zero =>
      obtain rfl := Nat.le_zero.mp hbudget
      exact completes_fault
  | succ budget ih =>
      have hmore : (do
          if ← accept .comma then arguments parse budget (count + 1)
          else return count + 1 : CompileM Nat).Completes .nothing n k := by
        refine .acceptThen (by decide) (ih (fun hp => ?_) (by omega) _) (Safe.completes trivial)
        exact (hparse hp).mono (Nat.sub_le ..) (Nat.le_refl _)
      refine (hparse (by decide)).bind fun _ => ?_
      split
      · exact Completes.bind (Safe.completes trivial) fun _ => hmore
      · exact hmore

/-- A call completes on a budget of the tokens left. -/
theorem completes_call {budget : Nat} (hbudget : n ≤ budget) :
    (call parse budget).Completes .nothing n k := by
  have hrest : ∀ count, (do
      expect .rightParen "')' after arguments"
      emit .call [← narrow (min count 255)] : CompileM Unit).Completes .nothing n k :=
    fun count => Completes.bind (Safe.completes (by simp)) fun _ =>
      Completes.bind (safe_narrow (by omega)).completes fun _ => Safe.completes trivial
  refine Completes.bind (Safe.completes (by simp)) fun none => .ite ?_ ?_
  · exact Completes.bind (Safe.completes trivial) hrest
  · exact (completes_arguments hparse hbudget 0).bind hrest

/-- A property completes if the expression assigned to it does. -/
theorem completes_dot (canAssign : Bool) : (dot parse canAssign).Completes .nothing n k := by
  have hassign : ∀ name : UInt8, (do
      parse .assignment
      emit .setProperty [name]).Completes .nothing n k :=
    fun name => (hparse (by decide)).bind fun _ => Safe.completes trivial
  have hread : ∀ name : UInt8, (emit .getProperty [name]).Completes .nothing n k :=
    fun name => Safe.completes trivial
  refine Completes.bind (Safe.completes (by simp)) fun _ =>
    Completes.bind (Safe.completes (by simp)) fun name => ?_
  exact .acceptIfThen (by decide) ((hassign name).mono (Nat.sub_le ..) (Nat.le_refl _))
    (hread name)

/-- A conjunction completes, since its jump leads ahead. -/
theorem completes_conjunction : (conjunction parse).Completes .nothing n k := by
  refine Completes.emitJumpThen fun endJump => Completes.bind (Safe.completes trivial) fun _ => ?_
  exact (hparse (by decide)).bind fun _ => completes_patchJump (by omega)

/-- A disjunction completes, since its jumps lead ahead. -/
theorem completes_disjunction : (disjunction parse).Completes .nothing n k := by
  refine Completes.emitJumpThen fun elseJump => Completes.emitJumpThen fun endJump => ?_
  refine (completes_patchJump (by omega)).bind fun _ => Completes.bind (Safe.completes trivial)
    fun _ => (hparse (by decide)).bind fun _ => completes_patchJump (by omega)

/-- What stands behind an expression completes if the expressions in it do. -/
theorem completes_behind {budget : Nat} (hbudget : n ≤ budget) (canAssign : Bool)
    (form : InfixForm) : (behind parse budget canAssign form).Completes .nothing n k := by
  cases form with
  | call => exact completes_call hparse hbudget
  | dot => exact completes_dot hparse canAssign
  | binary =>
      refine Completes.bind (Safe.completes (by simp)) fun operator => ?_
      exact (hparse (next_ne_none _)).bind fun _ => Safe.completes (by simp)
  | and => exact completes_conjunction hparse
  | or => exact completes_disjunction hparse

/-- A string is only loaded where one was passed. -/
theorem exists_atStart {s : Session} {form : PrefixForm} (canAssign : Bool) (hs : s.Bounded)
    (hleft : s.left < n) (hsize : k ≤ s.chunk.size)
    (hform : s.previous.kind.rule.atStart = some form) :
    ∃ a t, (atStart parse canAssign form).run s = .ok (a, t) ∧
      s.functions.Advances t.functions := by
  have hgrouping : (grouping parse).Completes .nothing n k :=
    (hparse (by decide)).bind fun _ => Safe.completes (by simp)
  have hunary : (unary parse).Completes .nothing n k := by
    refine Completes.bind (Safe.completes (by simp)) fun operator => ?_
    exact (hparse (by decide)).bind fun _ => Safe.completes (by simp)
  cases form with
  | grouping => exact hgrouping s hs hleft hsize trivial
  | unary => exact hunary s hs hleft hsize trivial
  | identifier => exact completes_namedVariable hparse canAssign s hs hleft hsize trivial
  | number => exact Safe.completes (m := numberLiteral) trivial s hs hleft hsize trivial
  | literal =>
      exact Completes.bind (n := n) (Safe.completes (m := previousKind) trivial)
        (fun _ => Safe.completes (by simp)) s hs hleft hsize trivial
  | string =>
      have hkind : s.previous.kind = .string := by
        generalize s.previous.kind = kind at hform
        cases kind <;> cases hform
        rfl
      obtain ⟨t, ht⟩ := Session.exists_loadString hkind hs.quoted
      have happly : Action.loadString.apply s = .ok ((), t) := by
        rw [Action.apply, ht, ok_bind]
        rfl
      exact ⟨(), t, happly, Action.Level.advances (a := .loadString) trivial happly⟩

omit hparse in
/-- A token that continues an expression is one. -/
theorem ne_eof_of_le {p : Precedence} (hp : p ≠ .none) {kind : TokenKind}
    (h : p ≤ kind.rule.precedence) : kind ≠ .eof := by
  rintro rfl
  cases p <;> first | exact hp rfl | exact absurd h (by decide)

/-- Every operator is a token less. -/
theorem completes_operators {p : Precedence} (hp : p ≠ .none) (canAssign : Bool) {budget : Nat}
    (hbudget : n ≤ budget) : (operators parse p canAssign budget).Completes .nothing n k := by
  induction budget generalizing n k with
  | zero =>
      obtain rfl := Nat.le_zero.mp hbudget
      exact completes_fault
  | succ budget ih =>
      intro s hs hleft hsize _
      rw [operators, run_bind_of_ok (run_currentKind s)]
      split
      next hle =>
        have hpos := Session.left_pos (ne_eof_of_le hp hle)
        have hparse' : ∀ {p k}, p ≠ .none → (parse p).Completes .nothing (n - 1) k :=
          fun hp => (hparse hp).mono (Nat.sub_le ..) (Nat.le_refl _)
        have hmore : (operators parse p canAssign budget).Completes .nothing (n - 1) k :=
          ih hparse' (by omega)
        have hrun : CompileM.advance.run s = .ok ((), s.advance) := rfl
        have hfunctions := Session.functions_advance s
        have hafter : ∀ {m : CompileM Unit}, m.Completes .nothing (n - 1) k →
            ∃ a t, m.run s.advance = .ok (a, t) ∧ s.functions.Advances t.functions := by
          intro m hm
          rw [← hfunctions]
          exact hm s.advance (CompileM.advance.bounded hs hrun)
            (by rw [Session.left_advance hs.orderly]; omega)
            (by rw [Session.chunk, hfunctions]; exact hsize) trivial
        rw [run_bind_of_ok hrun, run_bind_of_ok (run_previousKind s.advance)]
        cases s.advance.previous.kind.rule.behind with
        | none => exact hafter hmore
        | some form =>
            exact hafter ((completes_behind hparse' (by omega) canAssign form).bind fun _ => hmore)
      next => exact ⟨(), s, rfl, .refl _⟩

end

/-- A level of the recursion passes a token, or there is none left and it is the last. -/
theorem completes_parsePrecedence {p : Precedence} (hp : p ≠ .none) (budget : Nat) :
    (parsePrecedence budget p).Completes .nothing budget k := by
  induction budget generalizing p k with
  | zero => exact completes_fault
  | succ budget ih =>
      intro s hs hleft hsize _
      have hrun : CompileM.advance.run s = .ok ((), s.advance) := rfl
      have hfunctions := Session.functions_advance s
      have hbounded := CompileM.advance.bounded hs hrun
      have hsize' : k ≤ s.advance.chunk.size := by
        rw [Session.chunk, hfunctions]
        exact hsize
      rw [← hfunctions, parsePrecedence, run_bind_of_ok hrun,
        run_bind_of_ok (run_previousKind s.advance)]
      cases hform : s.advance.previous.kind.rule.atStart with
      | none =>
          have hfail : (fail (.expected "expression")).Completes .nothing (budget + 1) k :=
            Safe.completes trivial
          exact hfail s.advance hbounded
            (Nat.lt_of_le_of_lt (CompileM.advance.left_le hs.orderly hrun) hleft) hsize' trivial
      | some form =>
          have hne : s.current.kind ≠ .eof := by
            intro heof
            rw [Session.previous_advance, heof] at hform
            cases hform
          have hpos := Session.left_pos hne
          have hleft' : s.advance.left < budget := by
            rw [Session.left_advance hs.orderly]
            omega
          obtain ⟨_, u, hstart, hadvances⟩ := exists_atStart (fun hp => ih hp)
            (decide (p ≤ Precedence.assignment)) hbounded hleft' hsize' hform
          have hrest : (do
              operators (parsePrecedence budget) p (decide (p ≤ Precedence.assignment)) budget
              if ← acceptIf (decide (p ≤ Precedence.assignment)) .equal then
                fail .invalidAssignmentTarget).Completes .nothing budget k :=
            (completes_operators (fun hp => ih hp) hp _ (Nat.le_refl _)).bind fun _ =>
              .acceptIfThen (by decide) (Safe.completes trivial) (Safe.completes trivial)
          obtain ⟨a, t, hrun', hadvances'⟩ := hrest u (CompileM.bounded _ hbounded hstart)
            (Nat.lt_of_le_of_lt (CompileM.left_le _ hbounded.orderly hstart) hleft')
            (Nat.le_trans hsize' hadvances.size_le) trivial
          exact ⟨a, t, (run_bind_of_ok hstart).trans hrun', hadvances.trans hadvances'⟩

/-- An expression completes on a budget of the tokens left. -/
theorem completes_expression (budget : Nat) :
    (expression budget).Completes .nothing budget k :=
  completes_parsePrecedence (by decide) budget

end CompileM

end LoxBytecode
