import LoxBytecode.Proofs.Heap.Collection
import LoxBytecode.Proofs.Session.Fields

/-!
# Sound Sessions

A session is `Sound` when every handle that it still needs refers to a live object: what the
functions being compiled hold is closed under reachability, and their own half-built objects
are reachable from nowhere else, so that writing to them disturbs nothing that is finished.
`kept` are further values that have to survive, some of those that the host holds.

An action on a sound session keeps it sound, leaves every finished object that is reachable as
it was, and keeps it reachable (`Action.preserves`). By induction so does a whole run
(`run_preserves`). The cases with an idea are the four actions that touch the heap: interning a
text, beginning a function, naming it, and ending it.
-/

namespace LoxBytecode

open Heap

namespace Session

/-- Everything that the session needs is live, and the objects of the functions being compiled
are apart from everything finished. -/
structure Sound (kept : List Value) (s : Session) : Prop where
  host : kept ⊆ s.host
  wf : s.heap.Wf
  closed : s.heap.Closed (kept ++ roots s.functions)
  nodup : s.functions.handles.Nodup
  apart : ∀ f ∈ s.functions.handles,
    ¬ s.heap.Reach (kept ++ s.functions.pool) (.function f)

/-- The session `t` is sound, and nothing finished in `s` was lost or changed on the way. -/
structure Preserves (kept : List Value) (s t : Session) : Prop where
  sound : t.Sound kept
  agree : ∀ v, s.heap.Reach (kept ++ s.functions.pool) v → s.heap.Agree t.heap v
  reach : ∀ v, v.isObject = true → s.heap.Reach (kept ++ s.functions.pool) v →
    t.heap.Reach (kept ++ t.functions.pool) v
  noDeadHandles : s.heap.HasNoDeadHandles → t.heap.HasNoDeadHandles

variable {kept : List Value} {s t u : Session}

/-- A session that stays as it is preserves what it holds. -/
theorem Preserves.refl (hs : s.Sound kept) : Preserves kept s s :=
  ⟨hs, fun v _ => .refl s.heap v, fun _ _ hv => hv, id⟩

/-- What every step preserves, all of them do. -/
theorem Preserves.trans (h₁ : Preserves kept s t) (h₂ : Preserves kept t u) :
    Preserves kept s u where
  sound := h₂.sound
  agree v hv := by
    cases hobject : v.isObject with
    | true => exact (h₁.agree v hv).trans (h₂.agree v (h₁.reach v hobject hv))
    | false => cases v <;> trivial
  reach v hobject hv := h₂.reach v hobject (h₁.reach v hobject hv)
  noDeadHandles := h₂.noDeadHandles ∘ h₁.noDeadHandles

/-! ### What is held -/

/-- The pool is part of what a session holds. -/
theorem reach_roots_of_pool {h : Heap} {stack : FunctionStack} {v : Value}
    (hv : h.Reach (kept ++ stack.pool) v) : h.Reach (kept ++ roots stack) v := by
  refine hv.mono fun w hw => ?_
  rcases List.mem_append.mp hw with hkept | hpool
  · exact List.mem_append_left _ hkept
  · exact List.mem_append_right _ (FunctionStack.mem_roots_iff.mpr (Or.inr hpool))

/-- The allocations of a session keep everything alive that it must keep. -/
theorem Sound.reach_held (hs : s.Sound kept) {v : Value}
    (hv : s.heap.Reach (kept ++ roots s.functions) v) :
    s.heap.Reach (roots (s.host, s.functions)) v := by
  refine hv.mono fun w hw => ?_
  rcases List.mem_append.mp hw with hkept | hroots
  · exact List.mem_append_left _ (hs.host hkept)
  · exact List.mem_append_right _ hroots

/-- The functions being compiled are live. -/
theorem Sound.live_handle (hs : s.Sound kept) {f : FunctionHandle}
    (hf : f ∈ s.functions.handles) : s.heap.Live (.function f) :=
  hs.closed _ (.root (List.mem_append_right _
    (FunctionStack.mem_roots_iff.mpr (Or.inl ⟨f, hf, rfl⟩))))

/-! ### Changes that make nothing -/

/-- When the functions hold what they held and the heap agrees about all of it, everything is
preserved. -/
theorem Preserves.of_agree (hs : s.Sound kept) (hhost : t.host = s.host)
    (hcores : t.functions.cores = s.functions.cores) (hwf : t.heap.Wf)
    (hagree : ∀ v, s.heap.Reach (kept ++ roots s.functions) v → s.heap.Agree t.heap v)
    (hdead : s.heap.HasNoDeadHandles → t.heap.HasNoDeadHandles) : Preserves kept s t := by
  have hroots : roots t.functions = roots s.functions := by
    rw [FunctionStack.roots_eq, FunctionStack.roots_eq, hcores]
  have hpool : t.functions.pool = s.functions.pool := by
    rw [FunctionStack.pool, FunctionStack.pool, hcores]
  have hhandles : t.functions.handles = s.functions.handles := by
    rw [FunctionStack.handles, FunctionStack.handles, hcores]
  have hagreePool : ∀ v, s.heap.Reach (kept ++ s.functions.pool) v → s.heap.Agree t.heap v :=
    fun v hv => hagree v (reach_roots_of_pool hv)
  refine ⟨⟨hhost ▸ hs.host, hwf, ?_, hhandles ▸ hs.nodup, fun f hf hreach => ?_⟩,
    hagreePool, fun v _ hv => ?_, hdead⟩
  · rw [hroots]
    exact hs.closed.of_agree hagree
  · rw [hpool] at hreach
    exact hs.apart f (hhandles ▸ hf) (hreach.of_agree' hagreePool)
  · rw [hpool]
    exact hv.of_agree hagreePool

/-- A change to the tokens, the diagnostics or the scopes preserves everything. -/
theorem Preserves.of_cores (hs : s.Sound kept) (hhost : t.host = s.host)
    (hcores : t.functions.cores = s.functions.cores) (hheap : t.heap = s.heap) :
    Preserves kept s t :=
  .of_agree hs hhost hcores (hheap ▸ hs.wf) (fun v _ => hheap ▸ .refl s.heap v)
    (fun hdead => hheap ▸ hdead)

/-- A diagnostic preserves what a session holds. -/
theorem Preserves.fail (hs : s.Sound kept) (problem : Problem) :
    Preserves kept s (s.fail problem) :=
  .of_cores hs (host_report ..) (congrArg _ (functions_report ..)) (heap_report ..)

/-- A diagnostic at the current token preserves what a session holds. -/
theorem Preserves.failHere (hs : s.Sound kept) (problem : Problem) :
    Preserves kept s (s.failHere problem) :=
  .of_cores hs (host_report ..) (congrArg _ (functions_report ..)) (heap_report ..)

/-- Moving on preserves it. -/
theorem Preserves.advance (hs : s.Sound kept) : Preserves kept s s.advance :=
  .of_cores hs (host_readFrom ..) (congrArg _ (functions_readFrom ..)) (heap_readFrom ..)

/-- A change of the current function that keeps its handle and constants preserves everything. -/
theorem Preserves.modifyFunction (hs : s.Sound kept) (f : FunctionState → FunctionState)
    (hcore : (f s.functions.current).core = s.functions.current.core) :
    Preserves kept s (s.modifyFunction f) :=
  .of_cores hs rfl (List.cons_eq_cons.mpr ⟨hcore, rfl⟩) rfl

/-- A change of the code of the current function preserves everything. -/
theorem Preserves.modifyChunk (hs : s.Sound kept) (f : Chunk → Chunk)
    (hconstants : (f s.chunk).constants = s.chunk.constants) :
    Preserves kept s (s.modifyChunk f) :=
  .modifyFunction hs _ (congrArg (Prod.mk _) hconstants)

/-- An instruction preserves everything. -/
theorem Preserves.emit (hs : s.Sound kept) (op : Opcode) (operands : List UInt8) :
    Preserves kept s (s.emit op operands) :=
  .modifyChunk hs (·.writeInstruction op operands s.previous.line)
    (Chunk.constants_writeInstruction ..)

/-- A distance that is filled in preserves everything. -/
theorem Preserves.patchJump (hs : s.Sound kept) {offset : Nat}
    (h : s.patchJump offset = .ok t) : Preserves kept s t := by
  rcases patchJump_eq_ok h with ⟨c, hpatch, -, -, rfl⟩ | ⟨-, rfl⟩
  · exact .modifyChunk hs _ (Chunk.constants_patch16 hpatch)
  · exact .fail hs _

/-! ### Constants -/

/-- Holding more values that are no functions reaches only these in addition. -/
theorem reach_or_leaf {h : Heap} {held held' : List Value}
    (hsub : ∀ v ∈ held', v ∈ held ∨ (h.Live v ∧ v.function? = none)) {v : Value}
    (hv : h.Reach held' v) : h.Reach held v ∨ (h.Live v ∧ v.function? = none) := by
  induction hv with
  | root hmem => exact (hsub _ hmem).imp_left .root
  | child _ hget hchild ih =>
      rcases ih with hold | ⟨-, hleaf⟩
      · exact Or.inl (.child hold hget hchild)
      · cases hleaf

/-- A constant added to the current function is added to the pool. -/
theorem mem_pool_pushConstant (s : Session) {f : FunctionState → FunctionState} {v : Value}
    (hconstants : (f s.functions.current).chunk.constants =
      s.functions.current.chunk.constants.push v) (w : Value) :
    w ∈ (s.modifyFunction f).functions.pool ↔ w ∈ s.functions.pool ∨ w = v := by
  have hpool : (s.modifyFunction f).functions.pool =
      (f s.functions.current).chunk.constants.toList ++
        (s.functions.enclosing.map FunctionState.core).flatMap (·.2.toList) := rfl
  have hold : s.functions.pool = s.functions.current.chunk.constants.toList ++
      (s.functions.enclosing.map FunctionState.core).flatMap (·.2.toList) := rfl
  rw [hpool, hold, hconstants]
  simp only [List.mem_append, Array.toList_push, List.mem_singleton]
  exact or_right_comm

/-- Adding a constant that is no function preserves everything. -/
theorem Preserves.pushConstant (hs : s.Sound kept) (f : FunctionState → FunctionState)
    {v : Value} (hlive : s.heap.Live v) (hleaf : v.function? = none)
    (hfunction : (f s.functions.current).function = s.functions.current.function)
    (hconstants : (f s.functions.current).chunk.constants =
      s.functions.current.chunk.constants.push v) :
    Preserves kept s (s.modifyFunction f) := by
  have hhandles : (s.modifyFunction f).functions.handles = s.functions.handles :=
    List.cons_eq_cons.mpr ⟨hfunction, rfl⟩
  have hpool := mem_pool_pushConstant s hconstants
  have hroots : ∀ w, w ∈ roots (s.modifyFunction f).functions ↔
      w ∈ roots s.functions ∨ w = v := by
    intro w
    rw [FunctionStack.mem_roots_iff, FunctionStack.mem_roots_iff, hpool, hhandles, or_assoc]
  have hextra : ∀ {old new : List Value}, (∀ w, w ∈ new ↔ w ∈ old ∨ w = v) →
      ∀ w ∈ kept ++ new, w ∈ kept ++ old ∨ (s.heap.Live w ∧ w.function? = none) := by
    intro old new hnew w hw
    rw [List.mem_append, hnew] at hw
    rcases hw with hkept | hmem | rfl
    · exact Or.inl (List.mem_append_left _ hkept)
    · exact Or.inl (List.mem_append_right _ hmem)
    · exact Or.inr ⟨hlive, hleaf⟩
  refine ⟨⟨hs.host, hs.wf, fun w hw => ?_, hhandles ▸ hs.nodup, fun g hg hreach => ?_⟩,
    fun w _ => .refl _ w, fun w _ hw => hw.mono fun x hx => ?_, id⟩
  · rcases reach_or_leaf (hextra hroots) hw with hold | ⟨hlive, -⟩
    · exact hs.closed w hold
    · exact hlive
  · rcases reach_or_leaf (hextra hpool) hreach with hold | ⟨-, hnone⟩
    · exact hs.apart g (hhandles ▸ hg) hold
    · cases hnone
  · rcases List.mem_append.mp hx with hkept | hx
    · exact List.mem_append_left _ hkept
    · exact List.mem_append_right _ ((hpool x).mpr (Or.inl hx))

/-- The load of a value that is live and no function preserves everything. -/
theorem Preserves.load (hs : s.Sound kept) {v : Value} (hlive : s.heap.Live v)
    (hleaf : v.function? = none) : Preserves kept s (s.load v) := by
  rw [Session.load]
  split
  · exact .fail hs _
  · exact .pushConstant hs _ hlive hleaf rfl (Chunk.constants_writeLoad ..)

/-- A constant that is live and no function preserves everything. -/
theorem Preserves.addConstant (hs : s.Sound kept) {v : Value} {index : UInt8}
    (hlive : s.heap.Live v) (hleaf : v.function? = none)
    (h : s.addConstant v = .ok (index, t)) : Preserves kept s t := by
  have hpush : Preserves kept s (s.modifyChunk fun c => (c.addConstant v).2) :=
    .pushConstant hs _ hlive hleaf rfl (Chunk.constants_addConstant ..)
  rcases addConstant_eq_ok h with ⟨-, -, rfl⟩ | ⟨-, rfl⟩
  · exact hpush
  · exact hpush.trans (.fail hpush.sound _)

/-! ### Strings -/

/-- Interning answers with a live string and preserves everything. -/
theorem Preserves.intern (hs : s.Sound kept) (text : String) :
    Preserves kept s (s.intern text).2 := by
  have hgrown := intern_grown hs.wf text (s.host, s.functions)
  exact .of_agree hs rfl rfl hgrown.wf
    (fun v hv => hgrown.agree v (hs.reach_held hv) (hs.closed v hv))
    (fun hdead => hdead.intern hs.wf text _)

/-- A text that was interned is in the heap under its handle. -/
theorem Sound.get?_intern (hs : s.Sound kept) (text : String) :
    (s.intern text).2.heap.strings.get? (s.intern text).1.index = some text :=
  Heap.get?_intern hs.wf text (s.host, s.functions)

/-- The string of it is live. -/
theorem Sound.live_intern (hs : s.Sound kept) (text : String) :
    (s.intern text).2.heap.Live (.string (s.intern text).1) :=
  live_string_iff.mpr ⟨text, hs.get?_intern text⟩

/-- Loading a number preserves what a session holds. -/
theorem Preserves.loadNumber (hs : s.Sound kept) : Preserves kept s s.loadNumber := by
  rw [Session.loadNumber]
  split
  · exact .load hs trivial rfl
  · exact .fail hs _

/-- Loading a string, which may collect, preserves what a session holds. -/
theorem Preserves.loadString (hs : s.Sound kept) (h : s.loadString = .ok t) :
    Preserves kept s t := by
  rw [Session.loadString] at h
  cases hunquote : unquote s.previous.lexeme with
  | error fault =>
      rw [hunquote] at h
      cases h
  | ok text =>
      simp only [hunquote, ok_bind] at h
      cases h
      exact (Preserves.intern hs text).trans
        (.load (Preserves.intern hs text).sound (hs.live_intern text) rfl)

/-- Adding a name to the constants preserves what a session holds. -/
theorem Preserves.nameConstant (hs : s.Sound kept) {index : UInt8}
    (h : s.nameConstant = .ok (index, t)) : Preserves kept s t :=
  (Preserves.intern hs s.previous.lexeme).trans
    (.addConstant (Preserves.intern hs _).sound (hs.live_intern _) rfl h)

/-! ### Functions -/

/-- Beginning a function preserves everything: its handle is new, and its object is empty. -/
theorem Preserves.beginFunction (hs : s.Sound kept) : Preserves kept s s.beginFunction := by
  have hgrown := allocFunction_grown hs.wf (s.host, s.functions)
  have hagree : ∀ v, s.heap.Reach (kept ++ roots s.functions) v →
      s.heap.Agree (s.heap.allocFunction (s.host, s.functions)).2 v :=
    fun v hv => hgrown.agree v (hs.reach_held hv) (hs.closed v hv)
  have hagreePool : ∀ v, s.heap.Reach (kept ++ s.functions.pool) v →
      s.heap.Agree (s.heap.allocFunction (s.host, s.functions)).2 v :=
    fun v hv => hagree v (reach_roots_of_pool hv)
  have hfresh : ∀ g, s.heap.Reach (kept ++ roots s.functions) (.function g) →
      g ≠ (s.heap.allocFunction (s.host, s.functions)).1 :=
    fun g hg => allocFunction_fresh hs.wf _ (hs.reach_held hg) (hs.closed _ hg)
  have hsub : ∀ v ∈ kept ++ roots s.beginFunction.functions, v ∈ kept ++ roots s.functions ∨
      v = .function (s.heap.allocFunction (s.host, s.functions)).1 := by
    intro v hv
    rw [List.mem_append, FunctionStack.mem_roots_iff] at hv
    rw [List.mem_append, FunctionStack.mem_roots_iff]
    rcases hv with hkept | ⟨g, hg, rfl⟩ | hpool
    · exact Or.inl (Or.inl hkept)
    · rcases List.mem_cons.mp hg with rfl | hg
      · exact Or.inr rfl
      · exact Or.inl (Or.inr (Or.inl ⟨g, hg, rfl⟩))
    · exact Or.inl (Or.inr (Or.inr hpool))
  refine ⟨⟨hs.host, hgrown.wf, fun v hv => ?_, List.nodup_cons.mpr ⟨fun hmem => ?_, hs.nodup⟩,
    fun g hg hv => ?_⟩, hagreePool, fun v _ hv => hv.of_agree hagreePool,
    fun hdead => hdead.allocFunction hs.wf _⟩
  · rcases reach_allocFunction hs.wf _ hs.closed (fun _ => hs.reach_held) hsub hv with hold | rfl
    · exact (hagree v hold).live_iff.mpr (hs.closed v hold)
    · exact hgrown.live
  · exact hfresh _ (.root (List.mem_append_right _
      (FunctionStack.mem_roots_iff.mpr (Or.inl ⟨_, hmem, rfl⟩)))) rfl
  · have hold : s.heap.Reach (kept ++ s.functions.pool) (.function g) :=
      hv.of_agree' hagreePool
    rcases List.mem_cons.mp hg with rfl | hg
    · exact hfresh _ (reach_roots_of_pool hold) rfl
    · exact hs.apart g hg hold

/-- Writing to the object of a function that is being compiled leaves everything finished
alone. -/
theorem Sound.agree_modifyFunction (hs : s.Sound kept) {f : FunctionHandle} {h' : Heap}
    {change : FunctionObject → FunctionObject} (hf : f ∈ s.functions.handles)
    (hmodify : s.heap.modifyFunction f change = .ok h') {v : Value}
    (hv : s.heap.Reach (kept ++ s.functions.pool) v) : s.heap.Agree h' v := by
  refine Heap.agree_modifyFunction hmodify ?_
  rintro rfl
  exact hs.apart f hf hv

/-- A change to the object of a function that is being compiled preserves everything, if the
object gets no children but those that the session holds and live strings. -/
theorem Preserves.modifyObject (hs : s.Sound kept) {f : FunctionHandle} {h' : Heap}
    {change : FunctionObject → FunctionObject} (hf : f ∈ s.functions.handles)
    (hmodify : s.heap.modifyFunction f change = .ok h')
    (hnew : ∀ o v, v ∈ (change o).children → v ∈ o.children ∨
      s.heap.Reach (kept ++ roots s.functions) v ∨ (s.heap.Live v ∧ v.function? = none)) :
    Preserves kept s { s with heap := h' } := by
  have hlive := live_modifyFunction hmodify
  have hagree : ∀ v, s.heap.Reach (kept ++ s.functions.pool) v → s.heap.Agree h' v :=
    fun v hv => hs.agree_modifyFunction hf hmodify hv
  have hchildren : ∀ g o v, h'.functions.get? g = some o → v ∈ o.children →
      (∃ o', s.heap.functions.get? g = some o' ∧ v ∈ o'.children) ∨
        s.heap.Reach (kept ++ roots s.functions) v ∨ (s.heap.Live v ∧ v.function? = none) := by
    intro g o v ho hv
    rw [get?_modifyFunction hmodify] at ho
    split at ho
    next hg =>
      obtain ⟨o', ho', rfl⟩ := Option.map_eq_some_iff.mp ho
      exact (hnew o' v hv).imp_left fun hold => ⟨o', hg ▸ ho', hold⟩
    next => exact Or.inl ⟨o, ho, hv⟩
  have hreach : ∀ v, h'.Reach (kept ++ roots s.functions) v →
      s.heap.Reach (kept ++ roots s.functions) v ∨ (s.heap.Live v ∧ v.function? = none) := by
    intro v hv
    induction hv with
    | root hmem => exact Or.inl (.root hmem)
    | child _ ho hchild ih =>
        rcases hchildren _ _ _ ho hchild with ⟨o', ho', hold⟩ | hheld
        · rcases ih with hf | ⟨-, hnone⟩
          · exact Or.inl (.child hf ho' hold)
          · cases hnone
        · exact hheld
  refine ⟨⟨hs.host, hs.wf.modifyFunction hmodify, fun v hv => (hlive v).mpr ?_, hs.nodup,
    fun g hg hv => hs.apart g hg (hv.of_agree' hagree)⟩, hagree,
    fun v _ hv => hv.of_agree hagree, fun hdead g o ho v hv => (hlive v).mpr ?_⟩
  · exact (hreach v hv).elim (hs.closed v) (·.1)
  · rcases hchildren g o v ho hv with ⟨o', ho', hold⟩ | hheld
    · exact hdead g o' ho' v hold
    · exact hheld.elim (hs.closed v) (·.1)

/-- Naming a function preserves what a session holds. -/
theorem Preserves.nameFunction (hs : s.Sound kept) (h : s.nameFunction = .ok t) :
    Preserves kept s t := by
  have hintern := Preserves.intern hs s.previous.lexeme
  rw [Session.nameFunction] at h
  obtain ⟨h', hmodify, rfl⟩ := changeHeap_eq_ok h
  refine hintern.trans (.modifyObject hintern.sound (List.mem_cons_self ..) hmodify ?_)
  intro o v hv
  rcases List.mem_append.mp hv with hname | hconstant
  · obtain rfl := List.mem_singleton.mp hname
    exact Or.inr (Or.inr ⟨hs.live_intern _, rfl⟩)
  · exact Or.inl (List.mem_append_right _ hconstant)

/-- Moving a function that is being compiled into its object preserves everything: the session
holds the constants that the object gets. -/
theorem Preserves.store (hs : s.Sound kept) {st : FunctionState} (hst : st ∈ s.functions.states)
    {h' : Heap} (hmodify : s.heap.modifyFunction st.function (fun o =>
      { o with arity := st.arity, upvalueCount := st.upvalues.length, chunk := st.chunk }) =
        .ok h') : Preserves kept s { s with heap := h' } := by
  have hcore : st.core ∈ s.functions.cores := List.mem_map_of_mem hst
  refine .modifyObject hs (List.mem_map_of_mem hcore) hmodify fun o v hv => ?_
  rcases List.mem_append.mp hv with hname | hconstant
  · exact Or.inl (List.mem_append_left _ hname)
  · refine Or.inr (Or.inl (reach_roots_of_pool (.root (List.mem_append_right _ ?_))))
    exact List.mem_flatMap.mpr ⟨_, hcore, (List.mem_filter.mp hconstant).1⟩

/-- When the innermost function becomes a constant of the next one, the pool loses its constants
and gains that one. -/
theorem mem_pool_pop {st parent : FunctionState} {rest : List FunctionState}
    {stack : FunctionStack} (hfunctions : s.functions = ⟨st, parent :: rest⟩)
    (hstack : stack.cores = (parent.function, parent.chunk.constants.push (.function st.function))
      :: rest.map FunctionState.core) (v : Value) :
    v ∈ s.functions.pool ∨ v = .function st.function ↔
      v ∈ st.chunk.constants.toList ∨ v ∈ stack.pool := by
  have hcores : s.functions.cores = st.core :: parent.core :: rest.map FunctionState.core := by
    rw [hfunctions]
    rfl
  simp only [FunctionStack.pool, hcores, hstack, FunctionState.core, List.flatMap_cons,
    List.mem_append, Array.toList_push, List.mem_singleton]
  grind

/-- The finished part of such a stack reaches the new object and its name in addition, if the
object holds what the function held. -/
theorem reach_of_pop {st parent : FunctionState} {rest : List FunctionState}
    {o : FunctionObject} {stack : FunctionStack} (hfunctions : s.functions = ⟨st, parent :: rest⟩)
    (ho : s.heap.functions.get? st.function.index = some o)
    (hconstants : o.chunk.constants = st.chunk.constants)
    (hstack : stack.cores = (parent.function, parent.chunk.constants.push (.function st.function))
      :: rest.map FunctionState.core) {v : Value} (hv : s.heap.Reach (kept ++ stack.pool) v) :
    s.heap.Reach (kept ++ s.functions.pool) v ∨ v = .function st.function ∨
      v.function? = none := by
  induction hv with
  | @root v hmem =>
      rcases List.mem_append.mp hmem with hkept | hmem
      · exact Or.inl (.root (List.mem_append_left _ hkept))
      · rcases (mem_pool_pop hfunctions hstack v).mpr (Or.inr hmem) with hmem | rfl
        · exact Or.inl (.root (List.mem_append_right _ hmem))
        · exact Or.inr (Or.inl rfl)
  | child _ hget hchild ih =>
      rcases ih with hold | heq | hnone
      · exact Or.inl (.child hold hget hchild)
      · cases heq
        rw [ho] at hget
        cases hget
        rcases List.mem_append.mp hchild with hname | hconstant
        · obtain ⟨name, -, rfl⟩ := Option.map_eq_some_iff.mp (Option.mem_toList.mp hname)
          exact Or.inr (Or.inr rfl)
        · rw [hconstants] at hconstant
          refine Or.inl (.root (List.mem_append_right _ ?_))
          rw [FunctionStack.pool, hfunctions]
          exact List.mem_append_left _ (List.mem_filter.mp hconstant).1
      · cases hnone

/-- Replacing the innermost function by its object, a constant of the function around it,
preserves everything, if the object holds what the function held. -/
theorem Preserves.pop (hs : s.Sound kept) {st parent : FunctionState}
    {rest : List FunctionState} {o : FunctionObject} {stack : FunctionStack}
    (hfunctions : s.functions = ⟨st, parent :: rest⟩)
    (ho : s.heap.functions.get? st.function.index = some o)
    (hconstants : o.chunk.constants = st.chunk.constants)
    (hstack : stack.cores = (parent.function, parent.chunk.constants.push (.function st.function))
      :: rest.map FunctionState.core) :
    Preserves kept s { s with functions := stack } := by
  have hhandles : s.functions.handles = st.function :: stack.handles := by
    rw [FunctionStack.handles, FunctionStack.handles, hstack, hfunctions]
    rfl
  have hnodup := List.nodup_cons.mp (hhandles ▸ hs.nodup)
  have hst : st.function ∈ s.functions.handles := hhandles ▸ List.mem_cons_self ..
  have hpool := mem_pool_pop hfunctions hstack
  refine ⟨⟨hs.host, hs.wf, hs.closed.of_subset fun v hv => ?_, hnodup.2, fun g hg hv => ?_⟩,
    fun v _ => .refl _ v, fun v hobject hv => ?_, id⟩
  · refine .root ?_
    rcases List.mem_append.mp hv with hkept | hroots
    · exact List.mem_append_left _ hkept
    · refine List.mem_append_right _ (FunctionStack.mem_roots_iff.mpr ?_)
      rcases FunctionStack.mem_roots_iff.mp hroots with ⟨g, hg, rfl⟩ | hmem
      · exact Or.inl ⟨g, hhandles ▸ List.mem_cons_of_mem _ hg, rfl⟩
      · rcases (hpool v).mpr (Or.inr hmem) with hmem | rfl
        · exact Or.inr hmem
        · exact Or.inl ⟨_, hst, rfl⟩
  · rcases reach_of_pop hfunctions ho hconstants hstack hv with hold | heq | hnone
    · exact hs.apart g (hhandles ▸ List.mem_cons_of_mem _ hg) hold
    · cases heq
      exact hnodup.1 hg
    · cases hnone
  · have hnew : s.heap.Reach (kept ++ stack.pool) (.function st.function) := by
      refine .root (List.mem_append_right _ ?_)
      rw [FunctionStack.pool, hstack]
      simp
    induction hv with
    | @root v hmem =>
        rcases List.mem_append.mp hmem with hkept | hmem
        · exact .root (List.mem_append_left _ hkept)
        · rcases (hpool v).mp (Or.inl hmem) with hmem | hmem
          · exact .child hnew ho (mem_children_of_mem_constants (hconstants ▸ hmem) hobject)
          · exact .root (List.mem_append_right _ hmem)
    | child _ hget hchild ih => exact .child (ih rfl) hget hchild

/-- Ending a function, which becomes a constant, preserves what a session holds. -/
theorem Preserves.endFunction (hs : s.Sound kept) {constant : UInt8} {captures : List Capture}
    (h : s.endFunction = .ok ((constant, captures), t)) : Preserves kept s t := by
  obtain ⟨st, parent, rest, h', u, hfunctions, -, hmodify, rfl, hadd⟩ := endFunction_eq_ok h
  have hst : st ∈ s.functions.states := by
    rw [hfunctions]
    exact List.mem_cons_self ..
  have hstore := Preserves.store hs hst hmodify
  have hhandle : st.function ∈ s.functions.handles :=
    List.mem_map_of_mem (List.mem_map_of_mem hst)
  obtain ⟨o, ho⟩ := live_function_iff.mp (hs.live_handle hhandle)
  have hget := (get?_modifyFunction hmodify st.function.index).trans (if_pos rfl)
  rw [ho] at hget
  have hpop : Preserves kept { s with heap := h' }
      (Session.modifyChunk (fun c => (c.addConstant (.function st.function)).2)
        { s with functions := ⟨parent, rest⟩, heap := h' }) :=
    .pop hstore.sound hfunctions hget rfl rfl
  rcases addConstant_eq_ok hadd with ⟨-, -, rfl⟩ | ⟨-, rfl⟩
  · exact hstore.trans hpop
  · exact hstore.trans (hpop.trans (.fail hpop.sound _))

end Session

/-! ### All actions -/

section

open Session

variable {kept : List Value} {s t : Session}

/-- Every action on a sound session preserves everything. -/
theorem Action.preserves {β : Type} (a : Action β) {b : β} (hs : s.Sound kept)
    (h : a.apply s = .ok (b, t)) : Preserves kept s t := by
  cases a with
  | advance =>
      cases h
      exact .advance hs
  | fail problem =>
      cases h
      exact .fail hs problem
  | failHere problem =>
      cases h
      exact .failHere hs problem
  | resume =>
      cases h
      exact .of_cores hs rfl rfl rfl
  | emit op operands =>
      cases h
      exact .emit hs op operands
  | patchJump offset =>
      obtain ⟨u, hu, h⟩ := bind_eq_ok.mp h
      cases h
      exact .patchJump hs hu
  | loadNumber =>
      cases h
      exact .loadNumber hs
  | loadString =>
      obtain ⟨u, hu, h⟩ := bind_eq_ok.mp h
      cases h
      exact .loadString hs hu
  | nameConstant => exact .nameConstant hs h
  | beginScope =>
      cases h
      exact .modifyFunction hs _ (FunctionState.core_beginScope _)
  | endScope =>
      obtain ⟨⟨flags, st⟩, hst, h⟩ := bind_eq_ok.mp h
      cases h
      exact .modifyFunction hs _ (FunctionState.core_endScope hst)
  | declare =>
      cases h
      rw [Session.declare]
      split
      next st hst => exact .modifyFunction hs _ (FunctionState.core_declareLocal hst)
      next => exact .fail hs _
  | markInitialized =>
      cases h
      exact .modifyFunction hs _ (FunctionState.core_markInitialized _)
  | findUpvalue =>
      cases h
      exact .of_cores hs rfl (FunctionStack.cores_resolveUpvalue ..) rfl
  | beginFunction =>
      cases h
      exact .beginFunction hs
  | nameFunction =>
      obtain ⟨u, hu, h⟩ := bind_eq_ok.mp h
      cases h
      exact .nameFunction hs hu
  | countParameter =>
      cases h
      exact .modifyFunction hs _ rfl
  | endFunction => exact .endFunction hs h

/-- A run on a sound session preserves everything. -/
theorem CompileM.preserves {α : Type} (m : CompileM α) {a : α} (hs : s.Sound kept)
    (h : m.run s = .ok (a, t)) : Preserves kept s t :=
  m.run_keeps (fun a _ _ _ hp ha => hp.trans (a.preserves hp.sound ha)) (.refl hs) h

end

end LoxBytecode
