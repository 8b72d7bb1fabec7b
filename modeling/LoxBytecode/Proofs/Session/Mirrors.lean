import LoxBytecode.Proofs.Heap.Renaming
import LoxBytecode.Proofs.Session.Bounds
import LoxBytecode.Proofs.Session.Clean

/-!
# Sessions that Mirror Each Other

Two sessions on the same tokens mirror each other when they differ in nothing but where their
objects lie: in the heaps, in what the host holds there, and in when they collect. Every action
leads from sessions that mirror each other to such sessions again, with the same answer
(`Action.mirrors`), and so does every compilation.

The relation between the handles grows with each function that is begun. What it relates is
being compiled, or reachable from the constants of what is, so that no collection frees it.
-/

namespace LoxBytecode

open Heap

variable {R : FunctionHandle → FunctionHandle → Prop}

/-! ### Function states -/

/-- Two functions being compiled do not differ but in the names of handles. -/
inductive FunctionState.Same (R : FunctionHandle → FunctionHandle → Prop) (h h' : Heap)
    (st : FunctionState) : FunctionState → Prop
  | intro {f' : FunctionHandle} {c' : Chunk} : R st.function f' → st.chunk.Same R h h' c' →
      Same R h h' st { st with function := f', chunk := c' }

namespace FunctionState.Same

variable {h h' : Heap} {st st' : FunctionState}

/-- The handles of the two functions are related. -/
theorem function (hst : st.Same R h h' st') : R st.function st'.function := by
  obtain ⟨hf, -⟩ := hst
  exact hf

/-- The chunks do not differ but in the names of handles. -/
theorem chunk (hst : st.Same R h h' st') : st.chunk.Same R h h' st'.chunk := by
  obtain ⟨-, hc⟩ := hst
  exact hc

/-- Both functions capture the same. -/
theorem upvalues (hst : st.Same R h h' st') : st'.upvalues = st.upvalues := by
  obtain ⟨-, -⟩ := hst
  rfl

/-- Both functions have the same number of parameters. -/
theorem arity (hst : st.Same R h h' st') : st'.arity = st.arity := by
  obtain ⟨-, -⟩ := hst
  rfl

/-- Both functions are the script, or neither is. -/
theorem kind (hst : st.Same R h h' st') : st'.kind = st.kind := by
  obtain ⟨-, -⟩ := hst
  rfl

/-- Both functions are in equally many scopes. -/
theorem scopeDepth (hst : st.Same R h h' st') : st'.scopeDepth = st.scopeDepth := by
  obtain ⟨-, -⟩ := hst
  rfl

/-- A scope that ends in one function ends in the other, with the same locals captured. -/
theorem endScope (hst : st.Same R h h' st') {flags : List Bool} {u : FunctionState}
    (hu : st.endScope = .ok (flags, u)) :
    ∃ u', st'.endScope = .ok (flags, u') ∧ u.Same R h h' u' := by
  obtain ⟨hf, hc⟩ := hst
  rw [FunctionState.endScope] at hu ⊢
  simp only
  split at hu <;> cases hu
  next depth hdepth => exact ⟨_, rfl, .intro hf hc⟩

/-- A local becomes usable in both. -/
theorem markInitialized (hst : st.Same R h h' st') :
    st.markInitialized.Same R h h' st'.markInitialized := by
  obtain ⟨hf, hc⟩ := hst
  rw [FunctionState.markInitialized, FunctionState.markInitialized]
  simp only
  split
  · exact .intro hf hc
  · exact .intro hf hc

/-- A name is the same local in both. -/
theorem resolveLocal (hst : st.Same R h h' st') (name : String) :
    st'.resolveLocal name = st.resolveLocal name := by
  obtain ⟨-, -⟩ := hst
  rfl

/-- Capturing a slot in both leaves them the same. -/
theorem capture (hst : st.Same R h h' st') (slot : Nat) :
    (st.capture slot).Same R h h' (st'.capture slot) := by
  obtain ⟨hf, hc⟩ := hst
  rw [FunctionState.capture, FunctionState.capture]
  simp only
  split
  · exact .intro hf hc
  · exact .intro hf hc

/-- Adding a capture answers with the same index. -/
theorem addUpvalue (hst : st.Same R h h' st') (c : Capture) :
    (st'.addUpvalue c).1 = (st.addUpvalue c).1 ∧
      (st.addUpvalue c).2.Same R h h' (st'.addUpvalue c).2 := by
  obtain ⟨hf, hc⟩ := hst
  rw [FunctionState.addUpvalue, FunctionState.addUpvalue]
  simp only
  split
  · exact ⟨rfl, .intro hf hc⟩
  · split
    · exact ⟨rfl, .intro hf hc⟩
    · exact ⟨rfl, .intro hf hc⟩

/-- Declaring a local succeeds on both sides, or fails in the same way. -/
theorem declareLocal (hst : st.Same R h h' st') (name : String) :
    (∃ u u', st.declareLocal name = .ok u ∧ st'.declareLocal name = .ok u' ∧
        u.Same R h h' u') ∨
      ∃ e, st.declareLocal name = .error e ∧ st'.declareLocal name = .error e := by
  obtain ⟨hf, hc⟩ := hst
  simp only [FunctionState.declareLocal, addLocal]
  split
  · exact Or.inr ⟨_, rfl, rfl⟩
  · split
    · exact Or.inl ⟨_, _, rfl, rfl, .intro hf hc⟩
    · exact Or.inr ⟨_, rfl, rfl⟩

/-- A scope begins in both. -/
theorem beginScope (hst : st.Same R h h' st') : st.beginScope.Same R h h' st'.beginScope := by
  obtain ⟨hf, hc⟩ := hst
  exact FunctionState.Same.intro hf hc

/-- A parameter is counted in both. -/
theorem countParameter (hst : st.Same R h h' st') :
    { st with arity := st.arity + 1 }.Same R h h' { st' with arity := st'.arity + 1 } := by
  obtain ⟨hf, hc⟩ := hst
  exact FunctionState.Same.intro hf hc

/-- The code is written to on its own. -/
theorem withChunk (hst : st.Same R h h' st') {c c' : Chunk} (hc : c.Same R h h' c') :
    { st with chunk := c }.Same R h h' { st' with chunk := c' } := by
  obtain ⟨hf, -⟩ := hst
  exact FunctionState.Same.intro hf hc

end FunctionState.Same

/-- Functions that have just begun are the same for any related handles. -/
theorem FunctionState.same_start {h h' : Heap} {f f' : FunctionHandle} (hf : R f f')
    (kind : FunctionKind) : (start f kind).Same R h h' (start f' kind) :=
  Same.intro hf Chunk.same_empty

/-- The search for a capture finds the same. -/
theorem same_resolveCapture {h h' : Heap} {inner inner' : FunctionState}
    {outers outers' : List FunctionState} (name : String) (hinner : inner.Same R h h' inner')
    (houters : List.Forall₂ (FunctionState.Same R h h') outers outers') :
    (resolveCapture name inner' outers').1 = (resolveCapture name inner outers).1 ∧
      (resolveCapture name inner outers).2.1.Same R h h' (resolveCapture name inner' outers').2.1 ∧
      List.Forall₂ (FunctionState.Same R h h') (resolveCapture name inner outers).2.2
        (resolveCapture name inner' outers').2.2 := by
  induction houters generalizing inner inner' with
  | nil => exact ⟨rfl, hinner, .nil⟩
  | @cons outer outer' rest rest' houter hrest ih =>
      rw [resolveCapture, resolveCapture, houter.resolveLocal]
      cases outer.resolveLocal name with
      | error e => exact ⟨rfl, hinner, .cons houter hrest⟩
      | ok found =>
          cases found with
          | some slot =>
              obtain ⟨hindex, hadded⟩ := hinner.addUpvalue ⟨true, slot⟩
              exact ⟨congrArg (Except.map some) hindex, hadded, .cons (houter.capture slot) hrest⟩
          | none =>
              obtain ⟨hfound, houter', hrest'⟩ := ih houter
              rcases hres : resolveCapture name outer rest with ⟨found, u, us⟩
              rcases hres' : resolveCapture name outer' rest' with ⟨found', u', us'⟩
              rw [hres, hres'] at hfound houter' hrest'
              obtain rfl : found' = found := hfound
              rcases found' with e | (- | index)
              · exact ⟨rfl, hinner, .cons houter' hrest'⟩
              · exact ⟨rfl, hinner, .cons houter' hrest'⟩
              · obtain ⟨hindex, hadded⟩ := hinner.addUpvalue ⟨false, index⟩
                exact ⟨congrArg (Except.map some) hindex, hadded, .cons houter' hrest'⟩

/-- Functions stay the same in heaps that have the same objects for their constants. -/
theorem forall₂_same_of_agree {R' : FunctionHandle → FunctionHandle → Prop}
    (hR : ∀ f f', R f f' → R' f f') {h h' k k' : Heap} {sts sts' : List FunctionState}
    (hsts : List.Forall₂ (FunctionState.Same R h h') sts sts')
    (ha : ∀ st ∈ sts, ∀ v ∈ st.chunk.constants.toList, h.Agree k v)
    (ha' : ∀ st ∈ sts', ∀ v ∈ st.chunk.constants.toList, h'.Agree k' v) :
    List.Forall₂ (FunctionState.Same R' k k') sts sts' := by
  induction hsts with
  | nil => exact .nil
  | cons hst _ ih =>
      obtain ⟨hast, ha⟩ := List.forall_mem_cons.mp ha
      obtain ⟨hast', ha'⟩ := List.forall_mem_cons.mp ha'
      refine .cons ?_ (ih ha ha')
      obtain ⟨hf, hc⟩ := hst
      exact .intro (hR _ _ hf) (hc.mono hR hast hast')

/-- The constants of every function being compiled are in the pool of the stack. -/
theorem mem_pool_of_mem_states {s : FunctionStack} {st : FunctionState} (hst : st ∈ s.states)
    {v : Value} (hv : v ∈ st.chunk.constants.toList) : v ∈ s.pool :=
  List.mem_flatMap.mpr ⟨st.core, List.mem_map_of_mem hst, hv⟩

/-! ### Sessions -/

/-- Two sessions that differ only in where their objects lie. -/
structure Session.Mirrors (R : FunctionHandle → FunctionHandle → Prop) (s s' : Session) :
    Prop where
  upcoming : s'.upcoming = s.upcoming
  previous : s'.previous = s.previous
  current : s'.current = s.current
  recovering : s'.recovering = s.recovering
  diagnostics : s'.diagnostics = s.diagnostics
  states : List.Forall₂ (FunctionState.Same R s.heap s'.heap) s.functions.states
    s'.functions.states
  renames : Renaming R s.heap s'.heap
  held : ∀ f f', R f f' →
    (f ∈ s.functions.handles ∨ s.heap.Reach s.functions.pool (.function f)) ∧
      (f' ∈ s'.functions.handles ∨ s'.heap.Reach s'.functions.pool (.function f'))

namespace Session

variable {s s' : Session}

/-- What is being compiled, and what is reachable from its constants, is reachable from the
roots. -/
theorem reach_roots {f : FunctionHandle}
    (h : f ∈ s.functions.handles ∨ s.heap.Reach s.functions.pool (.function f)) :
    s.heap.Reach (roots s.functions) (.function f) := by
  rcases h with hhandle | hpool
  · exact .root (FunctionStack.mem_roots_iff.mpr (Or.inl ⟨f, hhandle, rfl⟩))
  · exact hpool.mono fun v hv => FunctionStack.mem_roots_iff.mpr (Or.inr hv)

/-- A function that ends is held by the constants of the one around it. -/
theorem held_endFunction {ended : UInt8 × List Capture} {t : Session}
    (hsound : s.Sound []) (ht : s.endFunction = .ok (ended, t)) {f : FunctionHandle}
    (hf : f ∈ s.functions.handles ∨ s.heap.Reach s.functions.pool (.function f)) :
    f ∈ t.functions.handles ∨ t.heap.Reach t.functions.pool (.function f) := by
  have hpreserves := Preserves.endFunction hsound ht
  obtain ⟨st, parent, rest, k, u, hfunctions, -, -, rfl, hadd⟩ := endFunction_eq_ok ht
  have hcores : t.functions.cores = (parent.function, parent.chunk.constants.push
      (.function st.function)) :: rest.map FunctionState.core := by
    rcases addConstant_eq_ok hadd with ⟨-, -, rfl⟩ | ⟨-, rfl⟩
    · rfl
    · rw [Session.fail, functions_report]
      rfl
  rcases hf with hhandle | hreach
  · rw [FunctionStack.handles, FunctionStack.cores, FunctionStack.states, hfunctions] at hhandle
    rcases List.mem_cons.mp hhandle with rfl | hhandle
    · refine Or.inr (.root ?_)
      rw [FunctionStack.pool, hcores]
      exact List.mem_append_left _ (by simp [FunctionState.core])
    · refine Or.inl ?_
      rw [FunctionStack.handles, hcores]
      exact hhandle
  · exact Or.inr (hpreserves.reach _ rfl hreach)

namespace Mirrors

/-- The innermost functions of both sessions are the same. -/
theorem head (hs : s.Mirrors R s') :
    s.functions.current.Same R s.heap s'.heap s'.functions.current :=
  (List.forall₂_cons.mp hs.states).1

/-- Both sessions write to chunks that are the same. -/
theorem chunk (hs : s.Mirrors R s') : s.chunk.Same R s.heap s'.heap s'.chunk :=
  hs.head.chunk

/-- Queries have the same answers. -/
theorem answer {β : Type} (hs : s.Mirrors R s') (q : Query β) : q.answer s' = q.answer s := by
  cases q with
  | currentKind => exact congrArg Token.kind hs.current
  | previousKind => exact congrArg Token.kind hs.previous
  | recovering => exact hs.recovering
  | codeSize => exact hs.chunk.size
  | functionKind => exact hs.head.kind
  | arity => exact hs.head.arity
  | atTopScope => exact congrArg (· == 0) hs.head.scopeDepth
  | findLocal =>
      show s'.functions.current.resolveLocal s'.previous.lexeme = _
      rw [hs.previous, hs.head.resolveLocal]
      rfl

/-! ### Operations that leave the heap alone -/

/-- A diagnostic can be reported in both. -/
theorem report (hs : s.Mirrors R s') (tok : Token) (message : String) :
    (s.report tok message).Mirrors R (s'.report tok message) := by
  have hrecovering := hs.recovering
  cases hr : s.recovering with
  | true =>
      rw [hr] at hrecovering
      simp only [Session.report, hr, hrecovering, if_true]
      exact ⟨hs.upcoming, hs.previous, hs.current, rfl, hs.diagnostics, hs.states, hs.renames,
        hs.held⟩
  | false =>
      rw [hr] at hrecovering
      simp only [Session.report, hr, hrecovering]
      exact ⟨hs.upcoming, hs.previous, hs.current, rfl, by simp [hs.diagnostics], hs.states,
        hs.renames, hs.held⟩

/-- A problem can be reported in both. -/
theorem fail (hs : s.Mirrors R s') (problem : Problem) :
    (s.fail problem).Mirrors R (s'.fail problem) := by
  rw [Session.fail, Session.fail, hs.previous]
  exact hs.report _ _

/-- A problem at the current token can be reported in both. -/
theorem failHere (hs : s.Mirrors R s') (problem : Problem) :
    (s.failHere problem).Mirrors R (s'.failHere problem) := by
  rw [Session.failHere, Session.failHere, hs.current]
  exact hs.report _ _

/-- Both sessions can start to read the same tokens. -/
theorem readFrom (hs : s.Mirrors R s') (ts : List Token) :
    (s.readFrom ts).Mirrors R (s'.readFrom ts) := by
  induction ts generalizing s s' with
  | nil =>
      rw [Session.readFrom, Session.readFrom, hs.upcoming]
      exact ⟨rfl, hs.previous, rfl, hs.recovering, hs.diagnostics, hs.states, hs.renames,
        hs.held⟩
  | cons t ts ih =>
      rw [Session.readFrom, Session.readFrom, hs.upcoming]
      split
      · exact ih (hs.report t t.lexeme)
      · exact ⟨rfl, hs.previous, rfl, hs.recovering, hs.diagnostics, hs.states, hs.renames,
          hs.held⟩

/-- Both sessions move on to the same token. -/
theorem advance (hs : s.Mirrors R s') : s.advance.Mirrors R s'.advance := by
  have hmoved : Mirrors R { s with previous := s.current } { s' with previous := s'.current } :=
    ⟨hs.upcoming, hs.current, hs.current, hs.recovering, hs.diagnostics, hs.states, hs.renames,
      hs.held⟩
  have hread := hmoved.readFrom s.upcoming.ahead
  rw [Session.advance, Session.advance, show s'.upcoming.ahead = s.upcoming.ahead from
    congrArg TokenStream.ahead hs.upcoming]
  exact hread

/-- A change of the current functions under which what is held stays held. -/
theorem modifyFunction (hs : s.Mirrors R s') {g g' : FunctionState → FunctionState}
    (hsame : (g s.functions.current).Same R s.heap s'.heap (g' s'.functions.current))
    (hcore : (g s.functions.current).core = s.functions.current.core)
    (hcore' : (g' s'.functions.current).core = s'.functions.current.core) :
    (s.modifyFunction g).Mirrors R (s'.modifyFunction g') := by
  have hcores : (s.modifyFunction g).functions.cores = s.functions.cores :=
    List.cons_eq_cons.mpr ⟨hcore, rfl⟩
  have hcores' : (s'.modifyFunction g').functions.cores = s'.functions.cores :=
    List.cons_eq_cons.mpr ⟨hcore', rfl⟩
  refine ⟨hs.upcoming, hs.previous, hs.current, hs.recovering, hs.diagnostics,
    .cons hsame (List.forall₂_cons.mp hs.states).2, hs.renames, fun f f' hf => ?_⟩
  rw [FunctionStack.handles, FunctionStack.handles, FunctionStack.pool, FunctionStack.pool,
    hcores, hcores']
  exact hs.held f f' hf

/-- A change of the chunks alone. -/
theorem modifyChunk (hs : s.Mirrors R s') {g g' : Chunk → Chunk}
    (hsame : (g s.chunk).Same R s.heap s'.heap (g' s'.chunk))
    (hconstants : (g s.chunk).constants = s.chunk.constants)
    (hconstants' : (g' s'.chunk).constants = s'.chunk.constants) :
    (s.modifyChunk g).Mirrors R (s'.modifyChunk g') :=
  hs.modifyFunction (hs.head.withChunk hsame) (congrArg (Prod.mk _) hconstants)
    (congrArg (Prod.mk _) hconstants')

/-! ### Code -/

/-- An instruction can be emitted in both. -/
theorem emit (hs : s.Mirrors R s') (op : Opcode) (operands : List UInt8) :
    (s.emit op operands).Mirrors R (s'.emit op operands) := by
  rw [Session.emit, Session.emit, hs.previous]
  exact hs.modifyChunk (hs.chunk.writeInstruction op operands _)
    (Chunk.constants_writeInstruction ..) (Chunk.constants_writeInstruction ..)

/-- A jump that is patched in one session can be patched in the other. -/
theorem patchJump (hs : s.Mirrors R s') {offset : Nat} {t : Session}
    (ht : s.patchJump offset = .ok t) :
    ∃ t', s'.patchJump offset = .ok t' ∧ t.Mirrors R t' := by
  have hsize := hs.chunk.size
  rcases patchJump_eq_ok ht with ⟨c, hpatch, hbehind, hdistance, rfl⟩ | ⟨hfar, rfl⟩
  · obtain ⟨t', ht'⟩ : ∃ t', s'.patchJump offset = .ok t' := exists_patchJump (hsize ▸ hbehind)
    rcases patchJump_eq_ok ht' with ⟨c', hpatch', -, -, rfl⟩ | ⟨hfar, -⟩
    · refine ⟨_, ht', hs.modifyChunk ?_ (Chunk.constants_patch16 hpatch)
        (Chunk.constants_patch16 hpatch')⟩
      rw [hsize] at hpatch'
      rw [Chunk.patch16] at hpatch hpatch'
      obtain ⟨hcode, hlines, hconstants⟩ := hs.chunk
      split at hpatch <;> cases hpatch
      split at hpatch' <;> cases hpatch'
      exact ⟨by simp [hcode], hlines, hconstants⟩
    · omega
  · obtain ⟨t', ht'⟩ : ∃ t', s'.patchJump offset = .ok t' :=
      exists_patchJump (by rw [hsize]; omega)
    rcases patchJump_eq_ok ht' with ⟨_, -, -, hdistance, -⟩ | ⟨-, rfl⟩
    · omega
    · exact ⟨_, ht', hs.fail _⟩

/-! ### Constants -/

/-- The same constant is added on both sides. -/
theorem pushConstant (hs : s.Mirrors R s') {g g' : Chunk → Chunk} {v v' : Value}
    (hsame : (g s.chunk).Same R s.heap s'.heap (g' s'.chunk))
    (hconstants : (g s.chunk).constants = s.chunk.constants.push v)
    (hconstants' : (g' s'.chunk).constants = s'.chunk.constants.push v') :
    (s.modifyChunk g).Mirrors R (s'.modifyChunk g') := by
  have hgrown : ∀ {u : Session} {k : Chunk → Chunk} {w : Value},
      (k u.chunk).constants = u.chunk.constants.push w → ∀ f,
      (f ∈ u.functions.handles ∨ u.heap.Reach u.functions.pool (.function f)) →
        f ∈ (u.modifyChunk k).functions.handles ∨
          u.heap.Reach (u.modifyChunk k).functions.pool (.function f) := by
    intro u k w hk f hf
    refine hf.imp id fun hreach => hreach.mono fun x hx => ?_
    exact (mem_pool_pushConstant u (f := fun st => { st with chunk := k st.chunk }) hk x).mpr
      (Or.inl hx)
  refine ⟨hs.upcoming, hs.previous, hs.current, hs.recovering, hs.diagnostics,
    .cons (hs.head.withChunk hsame) (List.forall₂_cons.mp hs.states).2, hs.renames,
    fun f f' hf => ?_⟩
  obtain ⟨hheld, hheld'⟩ := hs.held f f' hf
  exact ⟨hgrown hconstants f hheld, hgrown hconstants' f' hheld'⟩

/-- Both sessions can load a value that is the same in both heaps. -/
theorem load (hs : s.Mirrors R s') {v v' : Value} (hv : v.Same R s.heap s'.heap v') :
    (s.load v).Mirrors R (s'.load v') := by
  have hsize := hs.chunk.size_constants
  have hfull : s'.chunk.isFull = s.chunk.isFull := by
    rw [Chunk.isFull, Chunk.isFull, hsize]
  rw [Session.load, Session.load, hfull, hs.previous]
  split
  · exact hs.fail _
  · have hwritten := (hs.chunk.addConstant hv).writeInstruction
      (Chunk.loadOf s.chunk.constants.size).1 (Chunk.loadOf s.chunk.constants.size).2
      s.previous.line
    refine hs.pushConstant ?_ (Chunk.constants_writeLoad ..) (Chunk.constants_writeLoad ..)
    show (Chunk.writeInstruction (s.chunk.addConstant v).2 _ _ _).Same R _ _
      (Chunk.writeInstruction (s'.chunk.addConstant v').2 (Chunk.loadOf s'.chunk.constants.size).1
        (Chunk.loadOf s'.chunk.constants.size).2 _)
    rw [hsize]
    exact hwritten

/-- Whether a constant is too many depends on the number of those before it alone. -/
theorem of_pushed {v v' : Value}
    (hs : Mirrors R (s.modifyChunk fun c => (c.addConstant v).2)
      (s'.modifyChunk fun c => (c.addConstant v').2))
    (hsize : s'.chunk.constants.size = s.chunk.constants.size) {index : UInt8} {t : Session}
    (ht : s.addConstant v = .ok (index, t)) :
    ∃ t', s'.addConstant v' = .ok (index, t') ∧ t.Mirrors R t' := by
  rw [addConstant_eq] at ht
  rw [addConstant_eq, hsize]
  split at ht
  next hfits =>
    cases ht
    rw [if_pos hfits]
    exact ⟨_, rfl, hs⟩
  next hwide =>
    cases ht
    rw [if_neg hwide]
    exact ⟨_, rfl, hs.fail _⟩

/-- The same value gets the same index in both pools. -/
theorem addConstant (hs : s.Mirrors R s') {v v' : Value} (hv : v.Same R s.heap s'.heap v')
    {index : UInt8} {t : Session} (ht : s.addConstant v = .ok (index, t)) :
    ∃ t', s'.addConstant v' = .ok (index, t') ∧ t.Mirrors R t' :=
  (hs.pushConstant (hs.chunk.addConstant hv) (Chunk.constants_addConstant ..)
    (Chunk.constants_addConstant ..)).of_pushed hs.chunk.size_constants ht

/-! ### Heaps -/

/-- Sessions whose heaps change, but not the objects that are reachable from what is compiled. -/
theorem of_agree (hs : s.Mirrors R s') {k k' : Heap}
    (ha : ∀ v, s.heap.Reach (roots s.functions) v → s.heap.Agree k v)
    (ha' : ∀ v, s'.heap.Reach (roots s'.functions) v → s'.heap.Agree k' v) :
    Mirrors R { s with heap := k } { s' with heap := k' } := by
  have hpool : ∀ {u : Session} {v : Value}, u.heap.Reach u.functions.pool v →
      u.heap.Reach (roots u.functions) v :=
    fun h => h.mono fun v hv => FunctionStack.mem_roots_iff.mpr (Or.inr hv)
  refine ⟨hs.upcoming, hs.previous, hs.current, hs.recovering, hs.diagnostics, ?_,
    hs.renames.of_agree (fun f f' hf => ?_) ha ha', fun f f' hf => ?_⟩
  · exact forall₂_same_of_agree (fun _ _ => id) hs.states
      (fun st hst v hv => ha v (hpool (.root (mem_pool_of_mem_states hst hv))))
      fun st hst v hv => ha' v (hpool (.root (mem_pool_of_mem_states hst hv)))
  · obtain ⟨hheld, hheld'⟩ := hs.held f f' hf
    exact ⟨reach_roots hheld, reach_roots hheld'⟩
  · obtain ⟨hheld, hheld'⟩ := hs.held f f' hf
    exact ⟨hheld.imp id fun h => h.of_agree fun v hv => ha v (hpool hv),
      hheld'.imp id fun h => h.of_agree fun v hv => ha' v (hpool hv)⟩

/-- Interning a text leads to the same string. -/
theorem intern (hs : s.Mirrors R s') (hsound : s.Sound []) (hsound' : s'.Sound [])
    (text : String) : (s.intern text).2.Mirrors R (s'.intern text).2 ∧
      (Value.string (s.intern text).1).Same R (s.intern text).2.heap (s'.intern text).2.heap
        (.string (s'.intern text).1) := by
  have hgrown := intern_grown hsound.wf text (s.host, s.functions)
  have hgrown' := intern_grown hsound'.wf text (s'.host, s'.functions)
  exact ⟨hs.of_agree (fun v hv => hgrown.agree v (hsound.reach_held hv) (hsound.closed v hv))
      (fun v hv => hgrown'.agree v (hsound'.reach_held hv) (hsound'.closed v hv)),
    .string (hsound.get?_intern text) (hsound'.get?_intern text)⟩

/-- A string that one session loads is loaded by the other, however it is interned. -/
theorem loadString (hs : s.Mirrors R s') (hsound : s.Sound []) (hsound' : s'.Sound [])
    {t : Session} (ht : s.loadString = .ok t) :
    ∃ t', s'.loadString = .ok t' ∧ t.Mirrors R t' := by
  obtain ⟨text, htext, hload⟩ := bind_eq_ok.mp ht
  cases hload
  obtain ⟨hmirrors, hsame⟩ := hs.intern hsound hsound' text
  refine ⟨(s'.intern text).2.load (.string (s'.intern text).1), ?_, hmirrors.load hsame⟩
  rw [Session.loadString, hs.previous, htext]
  rfl

/-- A name gets the same index in both pools. -/
theorem nameConstant (hs : s.Mirrors R s') (hsound : s.Sound []) (hsound' : s'.Sound [])
    {index : UInt8} {t : Session} (ht : s.nameConstant = .ok (index, t)) :
    ∃ t', s'.nameConstant = .ok (index, t') ∧ t.Mirrors R t' := by
  obtain ⟨hmirrors, hsame⟩ := hs.intern hsound hsound' s.previous.lexeme
  obtain ⟨t', ht', hmirrors'⟩ :=
    hmirrors.addConstant (v := .string (s.intern s.previous.lexeme).1) hsame ht
  refine ⟨t', ?_, hmirrors'⟩
  rw [Session.nameConstant, hs.previous]
  exact ht'

/-- The previous name is the same upvalue in both sessions, or in neither. -/
theorem findUpvalue (hs : s.Mirrors R s') :
    s'.findUpvalue.1 = s.findUpvalue.1 ∧ s.findUpvalue.2.Mirrors R s'.findUpvalue.2 := by
  obtain ⟨hhead, hrest⟩ := List.forall₂_cons.mp hs.states
  obtain ⟨hfound, hinner, houters⟩ := same_resolveCapture s.previous.lexeme hhead hrest
  have hcores := FunctionStack.cores_resolveUpvalue s.functions s.previous.lexeme
  have hcores' := FunctionStack.cores_resolveUpvalue s'.functions s'.previous.lexeme
  have hname : s'.previous.lexeme = s.previous.lexeme := congrArg Token.lexeme hs.previous
  refine ⟨?_, hs.upcoming, hs.previous, hs.current, hs.recovering, hs.diagnostics, ?_,
    hs.renames, fun f f' hf => ?_⟩
  · show (resolveCapture s'.previous.lexeme _ _).1 = _
    rw [hname]
    exact hfound
  · show List.Forall₂ _ (_ :: _) ((resolveCapture s'.previous.lexeme _ _).2.1 ::
      (resolveCapture s'.previous.lexeme _ _).2.2)
    rw [hname]
    exact .cons hinner houters
  · show (f ∈ (s.functions.resolveUpvalue s.previous.lexeme).2.handles ∨ s.heap.Reach
      (s.functions.resolveUpvalue s.previous.lexeme).2.pool (.function f)) ∧
      (f' ∈ (s'.functions.resolveUpvalue s'.previous.lexeme).2.handles ∨ s'.heap.Reach
      (s'.functions.resolveUpvalue s'.previous.lexeme).2.pool (.function f'))
    rw [FunctionStack.handles, FunctionStack.handles, FunctionStack.pool, FunctionStack.pool,
      hcores, hcores']
    exact hs.held f f' hf

/-! ### Functions -/

/-- A function that is begun on both sides is related to its counterpart from then on. -/
theorem beginFunction (hs : s.Mirrors R s') (hsound : s.Sound []) (hsound' : s'.Sound []) :
    s.beginFunction.Mirrors (fun g g' => R g g' ∨
      g = (s.heap.allocFunction (s.host, s.functions)).1 ∧
        g' = (s'.heap.allocFunction (s'.host, s'.functions)).1) s'.beginFunction := by
  have hgrown := allocFunction_grown hsound.wf (s.host, s.functions)
  have hgrown' := allocFunction_grown hsound'.wf (s'.host, s'.functions)
  have hmirrors := hs.of_agree
    (fun v hv => hgrown.agree v (hsound.reach_held hv) (hsound.closed v hv))
    (fun v hv => hgrown'.agree v (hsound'.reach_held hv) (hsound'.closed v hv))
  have hfresh : ∀ {u : Session} {g : FunctionHandle}, u.Sound [] →
      (g ∈ u.functions.handles ∨ u.heap.Reach u.functions.pool (.function g)) →
        g ≠ (u.heap.allocFunction (u.host, u.functions)).1 :=
    fun hu hg => allocFunction_fresh hu.wf _ (hu.reach_held (reach_roots hg))
      (hu.closed _ (reach_roots hg))
  have hold : ∀ g g', R g g' → g ≠ (s.heap.allocFunction (s.host, s.functions)).1 ∧
      g' ≠ (s'.heap.allocFunction (s'.host, s'.functions)).1 := by
    intro g g' hg
    obtain ⟨hheld, hheld'⟩ := hs.held g g' hg
    exact ⟨hfresh hsound hheld, hfresh hsound' hheld'⟩
  refine ⟨hs.upcoming, hs.previous, hs.current, hs.recovering, hs.diagnostics, ?_, ⟨?_, ?_⟩, ?_⟩
  · refine .cons (FunctionState.same_start (Or.inr ⟨rfl, rfl⟩) .function) ?_
    exact forall₂_same_of_agree (fun _ _ => Or.inl) hmirrors.states (fun _ _ v _ => .refl _ v)
      fun _ _ v _ => .refl _ v
  · rintro g g' k k' (hg | ⟨rfl, rfl⟩) (hk | ⟨rfl, rfl⟩)
    · exact hs.renames.one_to_one hg hk
    · exact iff_of_false (hold g g' hg).1 (hold g g' hg).2
    · exact iff_of_false (Ne.symm (hold k k' hk).1) (Ne.symm (hold k k' hk).2)
    · exact iff_of_true rfl rfl
  · rintro g g' (hg | ⟨rfl, rfl⟩)
    · obtain ⟨o, o', ho, ho', hsame⟩ := hmirrors.renames.objects hg
      exact ⟨o, o', ho, ho', hsame.mono (fun _ _ => Or.inl) (fun v _ => .refl _ v)
        fun v _ => .refl _ v⟩
    · exact ⟨.empty, .empty, get?_allocFunction hsound.wf _, get?_allocFunction hsound'.wf _,
        FunctionObject.same_empty⟩
  · rintro g g' (hg | ⟨rfl, rfl⟩)
    · obtain ⟨hheld, hheld'⟩ := hmirrors.held g g' hg
      exact ⟨hheld.imp (List.mem_cons_of_mem _) id, hheld'.imp (List.mem_cons_of_mem _) id⟩
    · exact ⟨Or.inl (List.mem_cons_self ..), Or.inl (List.mem_cons_self ..)⟩

/-- The objects of two functions being compiled may be changed in the same way. -/
theorem modifyObject (hs : s.Mirrors R s') (hsound : s.Sound []) (hsound' : s'.Sound [])
    {f f' : FunctionHandle} (hf : R f f') (hhandle : f ∈ s.functions.handles)
    (hhandle' : f' ∈ s'.functions.handles) {change change' : FunctionObject → FunctionObject}
    {k k' : Heap} (hmodify : s.heap.modifyFunction f change = .ok k)
    (hmodify' : s'.heap.modifyFunction f' change' = .ok k')
    (hsame : ∀ o o', o.Same R s.heap s'.heap o' →
      (change o).Same R s.heap s'.heap (change' o')) :
    Mirrors R { s with heap := k } { s' with heap := k' } := by
  have hstrings := strings_modifyFunction hmodify
  have hstrings' := strings_modifyFunction hmodify'
  refine ⟨hs.upcoming, hs.previous, hs.current, hs.recovering, hs.diagnostics,
    hs.states.imp ?_, hs.renames.modifyFunction hf hmodify hmodify' hsame, fun g g' hg => ?_⟩
  · intro st st' hst
    obtain ⟨hfunction, hchunk⟩ := hst
    exact .intro hfunction (hchunk.of_strings hstrings hstrings')
  · obtain ⟨hheld, hheld'⟩ := hs.held g g' hg
    exact ⟨hheld.imp id fun h => h.of_agree fun v hv =>
        hsound.agree_modifyFunction hhandle hmodify hv,
      hheld'.imp id fun h => h.of_agree fun v hv =>
        hsound'.agree_modifyFunction hhandle' hmodify' hv⟩

/-- A function that one session names is named by the other. -/
theorem nameFunction (hs : s.Mirrors R s') (horderly : s.Orderly) (horderly' : s'.Orderly)
    {t : Session} (ht : s.nameFunction = .ok t) :
    ∃ t', s'.nameFunction = .ok t' ∧ t.Mirrors R t' := by
  obtain ⟨hmirrors, hname⟩ :=
    hs.intern horderly.sound horderly'.sound s.previous.lexeme
  have hsound := (Preserves.intern horderly.sound s.previous.lexeme).sound
  have hsound' := (Preserves.intern horderly'.sound s.previous.lexeme).sound
  obtain ⟨t', ht'⟩ := exists_nameFunction horderly'
  have hprevious : s'.previous.lexeme = s.previous.lexeme := congrArg Token.lexeme hs.previous
  refine ⟨t', ht', ?_⟩
  rw [Session.nameFunction] at ht ht'
  obtain ⟨k, hk, rfl⟩ := changeHeap_eq_ok ht
  obtain ⟨k', hk', rfl⟩ := changeHeap_eq_ok ht'
  rw [hprevious] at hk' ⊢
  refine hmirrors.modifyObject hsound hsound' hs.head.function (List.mem_cons_self ..)
    (List.mem_cons_self ..) hk hk' fun o o' ho => ?_
  refine ⟨?_, ho.arity, ho.upvalueCount, ho.chunk⟩
  cases hname with
  | string htext htext' => exact ⟨_, htext, htext'⟩

/-- What ending a function moves into its object is the same on both sides. -/
theorem store (hs : s.Mirrors R s') (hsound : s.Sound []) (hsound' : s'.Sound [])
    {st st' : FunctionState} (hst : st ∈ s.functions.states) (hst' : st' ∈ s'.functions.states)
    (hsame : st.Same R s.heap s'.heap st') {k k' : Heap}
    (hmodify : s.heap.modifyFunction st.function (fun o =>
      { o with arity := st.arity, upvalueCount := st.upvalues.length, chunk := st.chunk }) = .ok k)
    (hmodify' : s'.heap.modifyFunction st'.function (fun o =>
      { o with arity := st'.arity, upvalueCount := st'.upvalues.length, chunk := st'.chunk }) =
        .ok k') : Mirrors R { s with heap := k } { s' with heap := k' } :=
  hs.modifyObject hsound hsound' hsame.function
    (List.mem_map_of_mem (List.mem_map_of_mem hst))
    (List.mem_map_of_mem (List.mem_map_of_mem hst')) hmodify hmodify' fun _ _ ho =>
      ⟨ho.name, hsame.arity, congrArg List.length hsame.upvalues, hsame.chunk⟩

/-- A function that ends in one session ends in the other, at the same index and with the same
captures. -/
theorem endFunction (hs : s.Mirrors R s') (horderly : s.Orderly) (horderly' : s'.Orderly)
    {ended : UInt8 × List Capture} {t : Session} (ht : s.endFunction = .ok (ended, t)) :
    ∃ t', s'.endFunction = .ok (ended, t') ∧ t.Mirrors R t' := by
  have hheld := fun f => held_endFunction (f := f) horderly.sound ht
  obtain ⟨st, parent, rest, k, u, hfunctions, hcaptures, hmodify, rfl, hadd⟩ :=
    endFunction_eq_ok ht
  have hstates := hs.states
  rw [FunctionStack.states, FunctionStack.states, hfunctions] at hstates
  obtain ⟨hst, hparents⟩ := List.forall₂_cons.mp hstates
  obtain ⟨parent', rest', -, -, hrest'⟩ := List.forall₂_cons_left_iff.mp hparents
  have hfunctions' : s'.functions = ⟨s'.functions.current, parent' :: rest'⟩ := by
    rw [← hrest']
  obtain ⟨⟨⟨constant', captures'⟩, t'⟩, ht'⟩ := exists_endFunction horderly' hfunctions'
  have hheld' := fun f => held_endFunction (f := f) horderly'.sound ht'
  obtain ⟨st', parent₂, rest₂, k', u', hfunctions₂, hcaptures', hmodify', rfl, hadd'⟩ :=
    endFunction_eq_ok ht'
  rw [hfunctions'] at hfunctions₂
  cases hfunctions₂
  have hstore := hs.store horderly.sound horderly'.sound
    (by rw [FunctionStack.states, hfunctions]; exact List.mem_cons_self ..)
    (List.mem_cons_self ..) hst hmodify hmodify'
  have hstates := hstore.states
  rw [FunctionStack.states, FunctionStack.states, hfunctions, hrest'] at hstates
  obtain ⟨-, hparents⟩ := List.forall₂_cons.mp hstates
  obtain ⟨hparent, hrest⟩ := List.forall₂_cons.mp hparents
  -- the session whose constants hold the function that ended, before anything is reported of it
  have hpushed : Mirrors R
      (Session.modifyChunk (fun c => (c.addConstant (.function st.function)).2)
        { s with functions := ⟨parent, rest⟩, heap := k })
      (Session.modifyChunk (fun c => (c.addConstant (.function s'.functions.current.function)).2)
        { s' with functions := ⟨parent', rest'⟩, heap := k' }) := by
    refine ⟨hs.upcoming, hs.previous, hs.current, hs.recovering, hs.diagnostics,
      .cons (hparent.withChunk (hparent.chunk.addConstant (.function hst.function))) hrest,
      hstore.renames, fun f f' hf => ?_⟩
    obtain ⟨hbefore, hbefore'⟩ := hs.held f f' hf
    obtain ⟨hsame, hsame'⟩ := functions_heap_addConstant hadd
    obtain ⟨hsame₂, hsame₂'⟩ := functions_heap_addConstant hadd'
    exact ⟨hsame ▸ hsame' ▸ hheld f hbefore, hsame₂ ▸ hsame₂' ▸ hheld' f' hbefore'⟩
  have hsize : parent'.chunk.constants.size = parent.chunk.constants.size :=
    hparent.chunk.size_constants
  obtain ⟨constant, captures⟩ := ended
  obtain ⟨u', hu', hmirrors⟩ := hpushed.of_pushed hsize hadd
  rw [hadd'] at hu'
  cases hu'
  refine ⟨_, ?_, hmirrors⟩
  rw [ht', hcaptures', hst.upvalues, ← hcaptures]

end Mirrors

end Session

/-! ### Actions and compilations -/

section

variable {s s' t : Session}

/-- Where two sessions mirror each other, every action has the same answer, and the sessions
after it mirror each other. -/
theorem Action.mirrors {β : Type} (a : Action β) {b : β} (hs : s.Mirrors R s')
    (horderly : s.Orderly) (horderly' : s'.Orderly) (h : a.apply s = .ok (b, t)) :
    ∃ R' t', a.apply s' = .ok (b, t') ∧ t.Mirrors R' t' := by
  cases a with
  | advance =>
      cases h
      exact ⟨R, _, rfl, hs.advance⟩
  | fail problem =>
      cases h
      exact ⟨R, _, rfl, hs.fail problem⟩
  | failHere problem =>
      cases h
      exact ⟨R, _, rfl, hs.failHere problem⟩
  | resume =>
      cases h
      exact ⟨R, _, rfl, hs.upcoming, hs.previous, hs.current, rfl, hs.diagnostics, hs.states,
        hs.renames, hs.held⟩
  | emit op operands =>
      cases h
      exact ⟨R, _, rfl, hs.emit op operands⟩
  | patchJump offset =>
      obtain ⟨u, hu, h⟩ := bind_eq_ok.mp h
      cases h
      obtain ⟨u', hu', hmirrors⟩ := hs.patchJump hu
      exact ⟨R, u', by rw [Action.apply, hu', ok_bind]; rfl, hmirrors⟩
  | loadNumber =>
      cases h
      refine ⟨R, _, rfl, ?_⟩
      rw [Session.loadNumber, Session.loadNumber, hs.previous]
      split
      · exact hs.load (.number _)
      · exact hs.fail _
  | loadString =>
      obtain ⟨u, hu, h⟩ := bind_eq_ok.mp h
      cases h
      obtain ⟨u', hu', hmirrors⟩ := hs.loadString horderly.sound horderly'.sound hu
      exact ⟨R, u', by rw [Action.apply, hu', ok_bind]; rfl, hmirrors⟩
  | nameConstant =>
      obtain ⟨t', ht', hmirrors⟩ := hs.nameConstant horderly.sound horderly'.sound h
      exact ⟨R, t', ht', hmirrors⟩
  | beginScope =>
      cases h
      exact ⟨R, _, rfl, hs.modifyFunction hs.head.beginScope rfl rfl⟩
  | endScope =>
      obtain ⟨⟨flags, st⟩, hst, h⟩ := bind_eq_ok.mp h
      cases h
      obtain ⟨st', hst', hsame⟩ := hs.head.endScope hst
      refine ⟨R, s'.modifyFunction fun _ => st', ?_, hs.modifyFunction hsame
        (FunctionState.core_endScope hst) (FunctionState.core_endScope hst')⟩
      rw [Action.apply, Session.endScope, hst']
      rfl
  | declare =>
      cases h
      refine ⟨R, _, rfl, ?_⟩
      have hname : s'.previous.lexeme = s.previous.lexeme := congrArg Token.lexeme hs.previous
      rw [Session.declare, Session.declare, hname]
      rcases hs.head.declareLocal s.previous.lexeme with ⟨st, st', hst, hst', hsame⟩ |
        ⟨e, he, he'⟩
      · rw [hst, hst']
        exact hs.modifyFunction hsame (FunctionState.core_declareLocal hst)
          (FunctionState.core_declareLocal hst')
      · rw [he, he']
        exact hs.fail _
  | markInitialized =>
      cases h
      exact ⟨R, _, rfl, hs.modifyFunction hs.head.markInitialized
        (FunctionState.core_markInitialized _) (FunctionState.core_markInitialized _)⟩
  | findUpvalue =>
      cases h
      obtain ⟨hfound, hmirrors⟩ := hs.findUpvalue
      exact ⟨R, _, congrArg (fun found => Except.ok (found, s'.findUpvalue.2)) hfound, hmirrors⟩
  | beginFunction =>
      cases h
      exact ⟨_, _, rfl, hs.beginFunction horderly.sound horderly'.sound⟩
  | nameFunction =>
      obtain ⟨u, hu, h⟩ := bind_eq_ok.mp h
      cases h
      obtain ⟨u', hu', hmirrors⟩ := hs.nameFunction horderly horderly' hu
      exact ⟨R, u', by rw [Action.apply, hu', ok_bind]; rfl, hmirrors⟩
  | countParameter =>
      cases h
      exact ⟨R, _, rfl, hs.modifyFunction hs.head.countParameter rfl rfl⟩
  | endFunction =>
      obtain ⟨t', ht', hmirrors⟩ := hs.endFunction horderly horderly' h
      exact ⟨R, t', ht', hmirrors⟩

/-- A compilation does the same in two sessions that mirror each other. -/
theorem CompileM.mirrors {α : Type} (m : CompileM α) {a : α} (hs : s.Mirrors R s')
    (horderly : s.Orderly) (horderly' : s'.Orderly) (h : m.run s = .ok (a, t)) :
    ∃ R' t', m.run s' = .ok (a, t') ∧ t.Mirrors R' t' := by
  induction m generalizing R s s' t with
  | done result =>
      cases result with
      | error fault => cases h
      | ok b =>
          cases h
          exact ⟨R, s', rfl, hs⟩
  | ask q =>
      cases h
      exact ⟨R, s', congrArg (fun answer => Except.ok (answer, s')) (hs.answer q), hs⟩
  | act action => exact action.mirrors hs horderly horderly' h
  | chain first next ihFirst ihNext =>
      rw [run] at h
      split at h
      next b u hfirst =>
        obtain ⟨R₁, u', hfirst', hu⟩ := ihFirst hs horderly horderly' hfirst
        obtain ⟨R₂, t', hnext', ht⟩ := ihNext b hu (first.orderly horderly hfirst)
          (first.orderly horderly' hfirst') h
        exact ⟨R₂, t', by rw [run, hfirst']; exact hnext', ht⟩
      next => cases h
  | part phrase body ih => exact ih hs horderly horderly' h

end

end LoxBytecode
