import LoxBytecode.Proofs.Session.Faults
import LoxBytecode.Proofs.Session.Orderly

/-!
# Bounded Sessions

A session is `Bounded` when its functions have no more locals and captures than one operand byte
can tell apart, and every string among its tokens has its quotes. Every action keeps this,
whatever was reported. On a bounded session no action ends with a fault, but for those that end
a scope or a function or lead a jump somewhere, which depend on what was begun before.

While a compilation begins and ends scopes and functions in pairs, every function keeps its
scope depth and loses no code (`FunctionStack.Advances`).
-/

namespace LoxBytecode

open Heap

/-! ### Tokens -/

/-- The text of a string token has two quotes around it. -/
def Token.Quoted (t : Token) : Prop :=
  t.kind = .string → ∃ text, Session.unquote t.lexeme = .ok text

/-- The end of the source is no string. -/
theorem Token.quoted_eof (line : Nat) : (Token.eof line).Quoted := by
  rintro ⟨⟩

/-- All tokens of a session have their quotes. -/
structure Session.Quoted (s : Session) : Prop where
  previous : s.previous.Quoted
  current : s.current.Quoted
  upcoming : ∀ t ∈ s.upcoming.ahead, t.Quoted

namespace Session

/-- A session has its quotes when the tokens that it reads have theirs. -/
theorem quoted_readFrom {s : Session} {ts : List Token} (hprevious : s.previous.Quoted)
    (hts : ∀ t ∈ ts, t.Quoted) : (s.readFrom ts).Quoted := by
  induction ts generalizing s with
  | nil => exact ⟨hprevious, Token.quoted_eof _, List.forall_mem_nil _⟩
  | cons t ts ih =>
      obtain ⟨ht, hts⟩ := List.forall_mem_cons.mp hts
      rw [readFrom]
      split
      · exact ih (by rwa [previous_report]) hts
      · exact ⟨hprevious, ht, hts⟩

/-- Moving on keeps the quotes. -/
theorem Quoted.advance {s : Session} (h : s.Quoted) : s.advance.Quoted :=
  quoted_readFrom h.current h.upcoming

/-- Quotes depend on nothing but the tokens. -/
theorem Quoted.of_sameTokens {s t : Session} (h : s.Quoted) (hsame : SameTokens s t) :
    t.Quoted where
  previous := hsame.previous ▸ h.previous
  current := hsame.current ▸ h.current
  upcoming := hsame.upcoming ▸ h.upcoming

/-- The number of tokens from the current one on. -/
def left (s : Session) : Nat :=
  s.remaining.length

/-- No tokens are left at the end of the source. -/
theorem left_of_eof {s : Session} (h : s.current.kind = .eof) : s.left = 0 := by
  rw [left, remaining_of_eof h]
  rfl

/-- At least one token is left before the end. -/
theorem left_pos {s : Session} (h : s.current.kind ≠ .eof) : 0 < s.left := by
  rw [left, remaining_of_ne_eof h]
  exact Nat.succ_pos _

/-- Moving on leaves one token fewer. -/
theorem left_advance {s : Session} (h : s.Orderly) : s.advance.left = s.left - 1 := by
  rw [left, h.onTrack.remaining_advance, List.length_tail]
  rfl

end Session

/-! ### Slots -/

/-- One operand byte can tell the locals of a function apart, and its captures. Nothing is
captured twice. -/
structure FunctionState.Fits (st : FunctionState) : Prop where
  locals : st.locals.length ≤ maxSlots
  upvalues : st.upvalues.length ≤ maxSlots
  distinct : st.upvalues.Nodup

namespace FunctionState

variable {st st' : FunctionState}

/-- Ending a scope leaves fewer locals to tell apart. -/
theorem Fits.endScope {flags : List Bool} (h : st.Fits) (ht : st.endScope = .ok (flags, st')) :
    st'.Fits := by
  rw [FunctionState.endScope] at ht
  split at ht <;> cases ht
  exact ⟨Nat.le_trans (List.dropWhile_sublist _).length_le h.locals, h.upvalues, h.distinct⟩

/-- A local is only declared while there is room for it. -/
theorem Fits.declareLocal {name : String} (h : st.Fits) (ht : st.declareLocal name = .ok st') :
    st'.Fits := by
  simp only [FunctionState.declareLocal, addLocal] at ht
  split at ht
  · cases ht
  · split at ht
    next hroom =>
      cases ht
      exact ⟨hroom, h.upvalues, h.distinct⟩
    next => cases ht

/-- Making a local usable changes no slot. -/
theorem Fits.markInitialized (h : st.Fits) : st.markInitialized.Fits := by
  rw [FunctionState.markInitialized]
  split
  next hlocals =>
    refine ⟨?_, h.upvalues, h.distinct⟩
    have hlength := h.locals
    rwa [hlocals] at hlength
  next => exact h

/-- Capturing a slot changes none. -/
theorem Fits.capture (h : st.Fits) (slot : Nat) : (st.capture slot).Fits := by
  rw [FunctionState.capture]
  split
  · exact ⟨by simpa using h.locals, h.upvalues, h.distinct⟩
  · exact h

/-- A capture is only added while there is room, and never twice. -/
theorem Fits.addUpvalue (h : st.Fits) (c : Capture) : (st.addUpvalue c).2.Fits := by
  rw [FunctionState.addUpvalue]
  split
  next => exact h
  next hnone =>
    split
    next hroom =>
      have hnew : c ∉ st.upvalues := List.idxOf?_eq_none_iff.mp hnone
      refine ⟨h.locals, by simpa using Nat.succ_le_of_lt hroom, ?_⟩
      exact h.distinct.append (List.nodup_singleton c) (by simpa using hnew)
    next => exact h

end FunctionState

/-- A search through the functions around leaves all of them with room for their operands. -/
theorem fits_resolveCapture {name : String} {inner : FunctionState}
    {outers : List FunctionState} (h : ∀ st ∈ inner :: outers, st.Fits) :
    ∀ st ∈ (resolveCapture name inner outers).2.1 :: (resolveCapture name inner outers).2.2,
      st.Fits := by
  induction outers generalizing inner with
  | nil => exact h
  | cons outer rest ih =>
      obtain ⟨hinner, houters⟩ := List.forall_mem_cons.mp h
      rw [resolveCapture]
      cases outer.resolveLocal name with
      | error e => exact h
      | ok found =>
          cases found with
          | some slot =>
              obtain ⟨houter, hrest⟩ := List.forall_mem_cons.mp houters
              exact List.forall_mem_cons.mpr ⟨hinner.addUpvalue _,
                List.forall_mem_cons.mpr ⟨houter.capture slot, hrest⟩⟩
          | none =>
              have hih := ih houters
              rcases hres : resolveCapture name outer rest with ⟨found, outer', rest'⟩
              rw [hres] at hih
              rcases found with e | (- | index)
              · exact List.forall_mem_cons.mpr ⟨hinner, hih⟩
              · exact List.forall_mem_cons.mpr ⟨hinner, hih⟩
              · exact List.forall_mem_cons.mpr ⟨hinner.addUpvalue _, hih⟩

/-! ### Bounded sessions -/

/-- What keeps the operations of a session within their domains. -/
structure Session.Bounded (s : Session) : Prop where
  orderly : s.Orderly
  quoted : s.Quoted
  fits : ∀ st ∈ s.functions.states, st.Fits

section

variable {s t : Session}

/-- A change of the innermost function that keeps its bounds keeps those of all functions. -/
theorem Session.fits_modifyFunction {f : FunctionState → FunctionState}
    (hs : ∀ st ∈ s.functions.states, st.Fits) (hf : (f s.functions.current).Fits) :
    ∀ st ∈ (s.modifyFunction f).functions.states, st.Fits :=
  List.forall_mem_cons.mpr ⟨hf, (List.forall_mem_cons.mp hs).2⟩

/-- Loading a value keeps the bounds of all functions. -/
theorem Session.fits_load (hs : ∀ st ∈ s.functions.states, st.Fits) (v : Value) :
    ∀ st ∈ (s.load v).functions.states, st.Fits := by
  have hcurrent := hs s.functions.current (List.mem_cons_self ..)
  rw [load]
  split
  · rwa [fail, functions_report]
  · exact fits_modifyFunction hs ⟨hcurrent.locals, hcurrent.upvalues, hcurrent.distinct⟩

/-- Adding a constant keeps the bounds of all functions. -/
theorem Session.fits_addConstant (hs : ∀ st ∈ s.functions.states, st.Fits) {v : Value}
    {index : UInt8} (h : s.addConstant v = .ok (index, t)) :
    ∀ st ∈ t.functions.states, st.Fits := by
  have hcurrent := hs s.functions.current (List.mem_cons_self ..)
  have hadded : ∀ st ∈ (s.modifyChunk fun c => (c.addConstant v).2).functions.states, st.Fits :=
    fits_modifyFunction hs ⟨hcurrent.locals, hcurrent.upvalues, hcurrent.distinct⟩
  rcases addConstant_eq_ok h with ⟨-, -, rfl⟩ | ⟨-, rfl⟩
  · exact hadded
  · rwa [fail, functions_report]

/-- Every action leaves the functions with no more slots than fit. -/
theorem Action.fits {β : Type} (a : Action β) {b : β} (hs : ∀ st ∈ s.functions.states, st.Fits)
    (h : a.apply s = .ok (b, t)) : ∀ st ∈ t.functions.states, st.Fits := by
  have hcurrent := hs s.functions.current (List.mem_cons_self ..)
  cases a with
  | advance =>
      cases h
      rwa [Session.functions_advance]
  | fail problem =>
      cases h
      rwa [Session.fail, Session.functions_report]
  | failHere problem =>
      cases h
      rwa [Session.failHere, Session.functions_report]
  | resume =>
      cases h
      exact hs
  | emit | beginScope | countParameter =>
      cases h
      exact Session.fits_modifyFunction hs ⟨hcurrent.locals, hcurrent.upvalues, hcurrent.distinct⟩
  | patchJump offset =>
      obtain ⟨u, hu, h⟩ := bind_eq_ok.mp h
      cases h
      rcases Session.patchJump_eq_ok hu with ⟨c, -, -, -, rfl⟩ | ⟨-, rfl⟩
      · exact Session.fits_modifyFunction hs ⟨hcurrent.locals, hcurrent.upvalues, hcurrent.distinct⟩
      · rwa [Session.fail, Session.functions_report]
  | loadNumber =>
      cases h
      rw [Session.loadNumber]
      split
      · exact Session.fits_load hs _
      · rwa [Session.fail, Session.functions_report]
  | loadString =>
      obtain ⟨u, hu, h⟩ := bind_eq_ok.mp h
      cases h
      obtain ⟨text, -, hload⟩ := bind_eq_ok.mp hu
      cases hload
      exact Session.fits_load (s := (s.intern text).2) hs _
  | nameConstant =>
      exact Session.fits_addConstant (s := (s.intern s.previous.lexeme).2) hs h
  | endScope =>
      obtain ⟨⟨flags, st⟩, hst, h⟩ := bind_eq_ok.mp h
      cases h
      exact Session.fits_modifyFunction hs (hcurrent.endScope hst)
  | declare =>
      cases h
      rw [Session.declare]
      split
      next st hst => exact Session.fits_modifyFunction hs (hcurrent.declareLocal hst)
      next => rwa [Session.fail, Session.functions_report]
  | markInitialized =>
      cases h
      exact Session.fits_modifyFunction hs hcurrent.markInitialized
  | findUpvalue =>
      cases h
      exact fits_resolveCapture hs
  | beginFunction =>
      cases h
      exact List.forall_mem_cons.mpr ⟨⟨Nat.le_of_ble_eq_true rfl, Nat.zero_le _, .nil⟩, hs⟩
  | nameFunction =>
      obtain ⟨u, hu, h⟩ := bind_eq_ok.mp h
      cases h
      rw [Session.nameFunction] at hu
      obtain ⟨heap, -, rfl⟩ := Session.changeHeap_eq_ok hu
      exact hs
  | endFunction =>
      obtain ⟨st, parent, rest, heap, u, hfunctions, -, -, rfl, hadd⟩ :=
        Session.endFunction_eq_ok h
      rw [FunctionStack.states, hfunctions] at hs
      exact Session.fits_addConstant (s := { s with functions := ⟨parent, rest⟩, heap := heap })
        (List.forall_mem_cons.mp hs).2 hadd

/-- Every action keeps a session bounded. -/
theorem Action.bounded {β : Type} (a : Action β) {b : β} (hs : s.Bounded)
    (h : a.apply s = .ok (b, t)) : t.Bounded where
  orderly := a.orderly hs.orderly h
  quoted := by
    rcases a.eq_advance_or_sameTokens h with rfl | hsame
    · exact hs.quoted.advance
    · exact hs.quoted.of_sameTokens hsame
  fits := a.fits hs.fits h

/-- No action takes a token back. -/
theorem Action.left_le {β : Type} (a : Action β) {b : β} (hs : s.Orderly)
    (h : a.apply s = .ok (b, t)) : t.left ≤ s.left := by
  rcases a.eq_advance_or_sameTokens h with rfl | hsame
  · exact Session.left_advance hs ▸ Nat.sub_le ..
  · rw [Session.left, hsame.remaining]
    exact Nat.le_refl _

/-- Every compilation keeps a session bounded. -/
theorem CompileM.bounded {α : Type} (m : CompileM α) {a : α} (hs : s.Bounded)
    (h : m.run s = .ok (a, t)) : t.Bounded :=
  m.run_keeps (fun a _ _ _ hs ha => a.bounded hs ha) hs h

/-- No compilation gives tokens back. -/
theorem CompileM.left_le {α : Type} (m : CompileM α) {a : α} (hs : s.Orderly)
    (h : m.run s = .ok (a, t)) : t.left ≤ s.left :=
  (m.run_keeps (P := fun u => u.Orderly ∧ u.left ≤ s.left)
    (fun a _ _ _ hu ha => ⟨a.orderly hu.1 ha, Nat.le_trans (a.left_le hu.1 ha) hu.2⟩)
    ⟨hs, Nat.le_refl _⟩ h).2

end

/-! ### Functions that go on -/

/-- A function is in as many scopes as before and has lost no code. -/
structure FunctionState.Advances (st st' : FunctionState) : Prop where
  scopeDepth : st'.scopeDepth = st.scopeDepth
  size : st.chunk.size ≤ st'.chunk.size

/-- Every function has advanced from itself. -/
theorem FunctionState.Advances.refl (st : FunctionState) : st.Advances st :=
  ⟨rfl, Nat.le_refl _⟩

/-- A function that grows in code alone advances. -/
theorem FunctionState.Grows.advances {st st' : FunctionState} (h : st.Grows st') :
    st.Advances st' :=
  ⟨h.scopeDepth, Nat.le_of_eq (congrArg Chunk.size h.chunk.symm)⟩

/-- All functions have advanced from themselves. -/
theorem forall₂_advances_refl (sts : List FunctionState) :
    List.Forall₂ FunctionState.Advances sts sts :=
  List.forall₂_same.mpr fun st _ => .refl st

/-- Functions that advance twice have advanced. -/
theorem forall₂_advances_trans {ss us ts : List FunctionState}
    (h₁ : List.Forall₂ FunctionState.Advances ss us)
    (h₂ : List.Forall₂ FunctionState.Advances us ts) :
    List.Forall₂ FunctionState.Advances ss ts := by
  induction h₁ generalizing ts with
  | nil => exact h₂
  | cons h₁ _ ih =>
      cases h₂ with
      | cons h₂ hrest =>
          exact .cons ⟨h₂.scopeDepth.trans h₁.scopeDepth, Nat.le_trans h₁.size h₂.size⟩
            (ih hrest)

/-- All functions of a stack go on, and none begins or ends. -/
def FunctionStack.Advances (s t : FunctionStack) : Prop :=
  List.Forall₂ FunctionState.Advances s.states t.states

namespace FunctionStack.Advances

variable {s t u : FunctionStack}

/-- Every stack has advanced from itself. -/
theorem refl (s : FunctionStack) : s.Advances s :=
  forall₂_advances_refl _

/-- A stack that advances twice has advanced. -/
theorem trans (h₁ : s.Advances u) (h₂ : u.Advances t) : s.Advances t :=
  forall₂_advances_trans h₁ h₂

/-- The stack advances when only its innermost function does. -/
theorem of_current {st : FunctionState} (h : s.current.Advances st) :
    s.Advances ⟨st, s.enclosing⟩ :=
  .cons h (forall₂_advances_refl _)

/-- The innermost function has lost no code. -/
theorem size_le (h : s.Advances t) : s.current.chunk.size ≤ t.current.chunk.size :=
  (List.forall₂_cons.mp h).1.size

end FunctionStack.Advances

/-- The action begins and ends no scope and no function. -/
def Action.Level {β : Type} : Action β → Prop
  | .beginScope | .endScope | .beginFunction | .endFunction => False
  | _ => True

section

variable {s t : Session}

/-- The stack advances when its innermost function does. -/
theorem Session.advances_modifyFunction {f : FunctionState → FunctionState}
    (h : s.functions.current.Advances (f s.functions.current)) :
    s.functions.Advances (s.modifyFunction f).functions :=
  .of_current h

/-- Loading a value advances the stack. -/
theorem Session.advances_load (s : Session) (v : Value) :
    s.functions.Advances (s.load v).functions := by
  rw [load]
  split
  · rw [fail, functions_report]
    exact .refl _
  · refine advances_modifyFunction ⟨rfl, ?_⟩
    show s.chunk.size ≤ (s.chunk.writeLoad v s.previous.line).code.size
    rw [Chunk.code_writeLoad, Array.size_append]
    exact Nat.le_add_right _ _

/-- Adding a constant advances the stack. -/
theorem Session.advances_addConstant {v : Value} {index : UInt8}
    (h : s.addConstant v = .ok (index, t)) : s.functions.Advances t.functions := by
  have hadded : s.functions.Advances (s.modifyChunk fun c => (c.addConstant v).2).functions :=
    advances_modifyFunction ⟨rfl, Nat.le_refl _⟩
  rcases addConstant_eq_ok h with ⟨-, -, rfl⟩ | ⟨-, rfl⟩
  · exact hadded
  · rwa [fail, functions_report]

/-- Filling in a distance changes the length of no code. -/
theorem Chunk.size_patch16 {c c' : Chunk} {offset value : Nat}
    (h : c.patch16 offset value = .ok c') : c'.size = c.size := by
  have hlength := congrArg List.length (code_patch16 h)
  simpa [size] using hlength

/-- Patching a jump advances the stack. -/
theorem Session.advances_patchJump {offset : Nat} (h : s.patchJump offset = .ok t) :
    s.functions.Advances t.functions := by
  rcases patchJump_eq_ok h with ⟨c, hpatch, -, -, rfl⟩ | ⟨-, rfl⟩
  · exact advances_modifyFunction ⟨rfl, Nat.le_of_eq (Chunk.size_patch16 hpatch).symm⟩
  · rw [fail, functions_report]
    exact .refl _

/-- Declaring a local leaves code and scopes as they are. -/
theorem FunctionState.advances_declareLocal {st st' : FunctionState} {name : String}
    (h : st.declareLocal name = .ok st') : st.Advances st' := by
  simp only [declareLocal, addLocal] at h
  split at h
  · cases h
  · split at h <;> cases h
    exact ⟨rfl, Nat.le_refl _⟩

/-- Making a local usable leaves code and scopes as they are. -/
theorem FunctionState.advances_markInitialized (st : FunctionState) :
    st.Advances st.markInitialized := by
  rw [markInitialized]
  split <;> exact ⟨rfl, Nat.le_refl _⟩

/-- An action that begins and ends nothing lets all functions go on. -/
theorem Action.Level.advances {β : Type} {a : Action β} (ha : a.Level) {b : β}
    (h : a.apply s = .ok (b, t)) : s.functions.Advances t.functions := by
  cases a with
  | beginScope | endScope | beginFunction | endFunction => exact ha.elim
  | advance =>
      cases h
      rw [Session.functions_advance]
      exact .refl _
  | fail problem =>
      cases h
      rw [Session.fail, Session.functions_report]
      exact .refl _
  | failHere problem =>
      cases h
      rw [Session.failHere, Session.functions_report]
      exact .refl _
  | resume =>
      cases h
      exact .refl _
  | emit op operands =>
      cases h
      refine Session.advances_modifyFunction ⟨rfl, ?_⟩
      show s.chunk.size ≤ (s.chunk.writeInstruction op operands s.previous.line).code.size
      rw [Chunk.code_writeInstruction, Array.size_append]
      exact Nat.le_add_right _ _
  | patchJump offset =>
      obtain ⟨u, hu, h⟩ := bind_eq_ok.mp h
      cases h
      exact Session.advances_patchJump hu
  | loadNumber =>
      cases h
      rw [Session.loadNumber]
      split
      · exact Session.advances_load s _
      · rw [Session.fail, Session.functions_report]
        exact .refl _
  | loadString =>
      obtain ⟨u, hu, h⟩ := bind_eq_ok.mp h
      cases h
      obtain ⟨text, -, hload⟩ := bind_eq_ok.mp hu
      cases hload
      exact Session.advances_load (s.intern text).2 _
  | nameConstant => exact Session.advances_addConstant (s := (s.intern s.previous.lexeme).2) h
  | declare =>
      cases h
      rw [Session.declare]
      split
      next st hst => exact .of_current (FunctionState.advances_declareLocal hst)
      next =>
        rw [Session.fail, Session.functions_report]
        exact .refl _
  | markInitialized =>
      cases h
      exact .of_current (FunctionState.advances_markInitialized _)
  | findUpvalue =>
      cases h
      have hspec := resolveCapture_spec s.previous.lexeme s.functions.current
        s.functions.enclosing
      exact .cons hspec.grows.advances (hspec.outers_grow.imp fun _ _ h => h.advances)
  | nameFunction =>
      obtain ⟨u, hu, h⟩ := bind_eq_ok.mp h
      cases h
      rw [Session.nameFunction] at hu
      obtain ⟨heap, -, rfl⟩ := Session.changeHeap_eq_ok hu
      exact .refl _
  | countParameter =>
      cases h
      exact .of_current ⟨rfl, Nat.le_refl _⟩

end

/-! ### Actions that end without a fault -/

/-- Numbers below 256 fit into a byte. -/
theorem narrow_eq_ok {n : Nat} (h : n < 256) : narrow n = .ok n.toUInt8 :=
  if_pos h

namespace Session

variable {s : Session}

/-- Adding a constant never fails: an index too large for its byte is reported. -/
theorem addConstant_eq (s : Session) (v : Value) :
    s.addConstant v = .ok (if s.chunk.constants.size ≤ Chunk.maxShortConstant
      then (s.chunk.constants.size.toUInt8, s.modifyChunk fun c => (c.addConstant v).2)
      else (0, (s.modifyChunk fun c => (c.addConstant v).2).fail (.chunk .tooManyConstants))) := by
  simp only [addConstant]
  split
  next hfits =>
    rw [narrow_eq_ok (Nat.lt_succ_of_le hfits)]
    rfl
  next => rfl

/-- Adding a constant changes the functions in one way, whether or not it is reported. -/
theorem functions_heap_addConstant {s t : Session} {v : Value} {index : UInt8}
    (h : s.addConstant v = .ok (index, t)) :
    t.functions = (s.modifyChunk fun c => (c.addConstant v).2).functions ∧ t.heap = s.heap := by
  rcases addConstant_eq_ok h with ⟨-, -, rfl⟩ | ⟨-, rfl⟩
  · exact ⟨rfl, rfl⟩
  · exact ⟨functions_report .., heap_report ..⟩

/-- Adding a constant never goes wrong. -/
theorem exists_addConstant (s : Session) (v : Value) : ∃ result, s.addConstant v = .ok result :=
  ⟨_, s.addConstant_eq v⟩

/-- A string token can always be loaded, since it has its quotes. -/
theorem exists_loadString (h : s.previous.kind = .string) (hs : s.Quoted) :
    ∃ t, s.loadString = .ok t := by
  obtain ⟨text, htext⟩ := hs.previous h
  rw [loadString, htext]
  exact ⟨_, rfl⟩

/-- A function being compiled can always be named, since its object is live. -/
theorem exists_nameFunction (hs : s.Orderly) : ∃ t, s.nameFunction = .ok t := by
  have hintern := Preserves.intern hs.sound s.previous.lexeme
  obtain ⟨heap, hheap⟩ := exists_modifyFunction
    (hintern.sound.live_handle (f := s.functions.current.function) (List.mem_cons_self ..))
    fun o => { o with name := some (s.intern s.previous.lexeme).1 }
  refine ⟨{ (s.intern s.previous.lexeme).2 with heap := heap }, ?_⟩
  have hname : (s.intern s.previous.lexeme).2.heap.setName s.functions.current.function
      (some (s.intern s.previous.lexeme).1) = .ok heap := hheap
  simp only [nameFunction, changeHeap, hname]

/-- A jump that was written can be led to the end of the code. -/
theorem exists_patchJump {offset : Nat} (h : offset + 2 ≤ s.chunk.size) :
    ∃ t, s.patchJump offset = .ok t := by
  simp only [patchJump, if_neg (Nat.not_lt.mpr h)]
  split
  · rw [show s.functions.current.chunk = s.chunk from rfl, Chunk.patch16,
      if_pos (show offset + 1 < s.chunk.code.size from h)]
    exact ⟨_, rfl⟩
  · exact ⟨_, rfl⟩

/-- A scope that was entered can be left. -/
theorem exists_endScope {depth : Nat} (h : s.functions.current.scopeDepth = depth + 1) :
    ∃ flags t, s.endScope = .ok (flags, t) := by
  rw [endScope, FunctionState.endScope, h]
  exact ⟨_, _, rfl⟩

/-- A function that was begun can be ended. -/
theorem exists_endFunction (hs : s.Orderly) {st parent : FunctionState}
    {rest : List FunctionState} (h : s.functions = ⟨st, parent :: rest⟩) :
    ∃ result, s.endFunction = .ok result := by
  have hst : st ∈ s.functions.states := by
    rw [h]
    exact List.mem_cons_self ..
  have hhandle : st.function ∈ s.functions.handles :=
    List.mem_map_of_mem (List.mem_map_of_mem hst)
  obtain ⟨heap, hheap⟩ := exists_modifyFunction (hs.sound.live_handle hhandle) fun o =>
    { o with arity := st.arity, upvalueCount := st.upvalues.length, chunk := st.chunk }
  have hstore : store { s with functions := ⟨parent, rest⟩ } st =
      .ok { s with functions := ⟨parent, rest⟩, heap := heap } := by
    simp only [store, changeHeap, hheap]
  have hclosed : heap.Closed [.function st.function] := by
    refine (Preserves.store hs.sound hst hheap).sound.closed.of_subset fun v hv => ?_
    obtain rfl := List.mem_singleton.mp hv
    exact .root (List.mem_append_right _
      (FunctionStack.mem_roots_iff.mpr (Or.inl ⟨_, hhandle, rfl⟩)))
  obtain ⟨text, htext⟩ : ∃ text, heap.display (.function st.function) = .ok text := by
    cases hdisplay : heap.display (.function st.function) with
    | error fault => exact absurd hdisplay (display_ne_error hclosed)
    | ok text => exact ⟨text, rfl⟩
  obtain ⟨⟨constant, t⟩, hadd⟩ :=
    exists_addConstant { s with functions := ⟨parent, rest⟩, heap := heap }
      (.function st.function)
  refine ⟨((constant, st.upvalues), t), ?_⟩
  simp only [endFunction, h, FunctionStack.pop?, hstore, ok_bind, htext, hadd]
  rfl

end Session

end LoxBytecode
