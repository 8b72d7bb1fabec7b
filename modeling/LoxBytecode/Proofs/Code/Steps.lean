import LoxBytecode.Proofs.Code.Wrote

/-!
# What the Steps Write

The steps of a compilation that begin and end no function, each with the items that it adds to
the code of the current one, what it does to the scope, and whether it passes a token. A jump
ahead is written with room for its distance, and `Wrote.patch` fills that in once the code
behind it is there.
-/

namespace LoxBytecode

open Heap

variable {s t u : Session} {τ τ₁ τ₂ : List Event} {is : List Item}

/-! ### Finished functions that are found -/

/-- What the finished part of `t` reaches among the functions was reached in `s`. -/
def Session.Finds (s t : Session) : Prop :=
  ∀ f, t.heap.Reach t.functions.pool (.function f) →
    s.heap.Reach s.functions.pool (.function f)

/-- What is found through two steps is found through both. -/
theorem Session.Finds.trans (h₁ : s.Finds u) (h₂ : u.Finds t) : s.Finds t :=
  fun f hf => h₁ f (h₂ f hf)

/-- What changes neither the heap nor the constants finds the same. -/
theorem Session.Finds.of_cores (hcores : t.functions.cores = s.functions.cores)
    (hheap : t.heap = s.heap) : s.Finds t := by
  intro f hf
  rw [FunctionStack.pool, hcores, hheap] at hf
  exact hf

/-- Nothing is found where the constants stay as they are. -/
theorem Session.Finds.of_preserves (h : Session.Preserves [] s t)
    (hpool : t.functions.pool = s.functions.pool) : s.Finds t := by
  intro f hf
  rw [hpool] at hf
  exact hf.of_agree' h.agree

/-- A constant that is no function leads to no function. -/
theorem Session.Finds.pushConstant {f : FunctionState → FunctionState} {v : Value}
    (hlive : s.heap.Live v) (hleaf : v.function? = none)
    (hconstants : (f s.functions.current).chunk.constants =
      s.functions.current.chunk.constants.push v) : s.Finds (s.modifyFunction f) := by
  intro g hg
  have hsub : ∀ w ∈ (s.modifyFunction f).functions.pool,
      w ∈ s.functions.pool ∨ (s.heap.Live w ∧ w.function? = none) := by
    intro w hw
    rcases (Session.mem_pool_pushConstant s hconstants w).mp hw with hold | rfl
    · exact Or.inl hold
    · exact Or.inr ⟨hlive, hleaf⟩
  rcases Session.reach_or_leaf hsub hg with hold | ⟨-, hnone⟩
  · exact hold
  · cases hnone

/-- A run that finds no further function leaves what was complete complete. -/
theorem Complete.of_yields {α : Type} {m : CompileM α} {a : α} (h : m.Yields s a τ t)
    (hhandles : s.functions.handles ⊆ t.functions.handles) (hfinds : s.Finds t)
    (hτ : ∀ e ∈ τ, e.function ∈ s.functions.handles) {σ : List Event} (hσ : Complete σ s) :
    Complete (σ ++ τ) t where
  paired f hf := by
    have hold := hfinds f hf
    refine hσ.paired_of_agree h.preserves.agree hold fun e he heq => ?_
    exact CompileM.not_mem_trace_of_finished h.before.orderly.sound (h.traced ▸ he) (heq ▸ hold)
  accounted e he := by
    rcases List.mem_append.mp he with he | he
    · rcases hσ.accounted e he with hhandle | hreach
      · exact Or.inl (hhandles hhandle)
      · exact Or.inr (h.preserves.reach _ rfl hreach)
    · exact Or.inl (hhandles (hτ e he))

/-! ### Steps -/

/-- What a step that begins and ends no function does to the current one. -/
structure Session.Steps (s : Session) (is : List Item) (t : Session) : Prop where
  function : t.functions.current.function = s.functions.current.function
  kind : t.functions.current.kind = s.functions.current.kind
  arity : t.functions.current.arity = s.functions.current.arity
  code : t.chunk.code.toList = s.chunk.code.toList ++ Item.code is
  constants : s.chunk.constants.toList <+: t.chunk.constants.toList
  upvalues : s.functions.current.upvalues <+: t.functions.current.upvalues
  enclosing : List.Forall₂ FunctionState.Grows s.functions.enclosing t.functions.enclosing
  marks : List.Forall₂ MarksOnly (Waiting s.functions.states) (Waiting t.functions.states)
  finds : s.Finds t
  indices : Value.functionIndices t.chunk.constants.toList =
    Value.functionIndices s.chunk.constants.toList

/-- A run that writes items proceeds by them. -/
theorem Proceeds.of_yields {α : Type} {m : CompileM α} {a : α} (h : m.Yields s a τ t)
    (hsteps : s.Steps is t)
    (hτ : τ = Item.events s.functions.current.function s.chunk.size is) :
    Proceeds s τ is t := by
  have hfunction : ∀ e ∈ τ, e.function = s.functions.current.function := by
    rw [hτ]
    exact fun e he => Item.function_of_mem_events he
  have hhandles : t.functions.handles = s.functions.handles :=
    FunctionStack.handles_of_grows hsteps.function hsteps.enclosing
  exact
    { preserves := h.preserves
      function := hsteps.function
      kind := hsteps.kind
      code := hsteps.code
      constants := hsteps.constants
      upvalues := hsteps.upvalues
      enclosing := hsteps.enclosing
      marks := hsteps.marks
      own := by rw [Event.ofFunction_eq_self hfunction, hτ]
      enclosed := fun e he st hst heq => by
        have hnodup := (List.nodup_cons.mp h.before.orderly.sound.nodup).1
        refine hnodup ?_
        show s.functions.current.function ∈ _
        rw [← hfunction e he, heq, List.map_map]
        exact List.mem_map.mpr ⟨st, hst, rfl⟩
      others := fun e he =>
        CompileM.not_mem_trace_of_finished h.before.orderly.sound (h.traced ▸ he)
      complete := fun σ hσ => hσ.of_yields h (fun _ => hhandles ▸ id) hsteps.finds fun e he => by
        rw [hfunction e he]
        exact List.mem_cons_self .. }

/-- A step that makes no closure. -/
theorem Wrote.of_yields {α : Type} {m : CompileM α} {a : α} (h : m.Yields s a τ t)
    (hsteps : s.Steps is t) (hmade : Item.made is = [])
    (hτ : τ = Item.events s.functions.current.function s.chunk.size is) :
    Wrote s τ is t where
  toProceeds := .of_yields h hsteps hτ
  closures := by rw [hsteps.indices, hmade, List.append_nil]
  arity := hsteps.arity

/-- Something that happens to the current function is accounted for. -/
theorem Complete.event {σ : List Event} (hσ : Complete σ s) (hs : s.Sound [])
    (happening : Happening) : Complete (σ ++ [s.event happening]) s where
  paired f hf := by
    refine (hσ.paired f hf).mono (fun v _ => .refl _ v) fun e he heq => ?_
    rw [List.mem_singleton.mp he] at heq
    rw [← heq] at hf
    exact hs.apart s.functions.current.function (List.mem_cons_self ..) hf
  accounted e he := by
    rcases List.mem_append.mp he with he | he
    · exact hσ.accounted e he
    · rw [List.mem_singleton.mp he]
      exact Or.inl (List.mem_cons_self ..)

/-- A mark takes no space. -/
theorem Wrote.event (hs : s.Orderly) (happening : Happening) :
    Wrote s [s.event happening] [s.scope.mark happening] s where
  preserves := .refl hs.sound
  function := rfl
  kind := rfl
  arity := rfl
  code := (List.append_nil _).symm
  constants := List.prefix_refl _
  upvalues := List.prefix_refl _
  enclosing := forall₂_grows_refl _
  marks := forall₂_marksOnly_refl _
  own := Event.ofFunction_eq_self fun e he => by rw [List.mem_singleton.mp he]; rfl
  enclosed e he st hst heq := by
    rw [List.mem_singleton.mp he] at heq
    refine (List.nodup_cons.mp hs.sound.nodup).1 ?_
    show (s.event happening).function ∈ _
    rw [heq, List.map_map]
    exact List.mem_map.mpr ⟨st, hst, rfl⟩
  others e he := by
    rw [List.mem_singleton.mp he]
    exact hs.sound.apart _ (List.mem_cons_self ..)
  complete σ hσ := hσ.event hs.sound happening
  closures := (List.append_nil _).symm

/-- The code of a phrase between its marks. -/
theorem Wrote.marked (h : Wrote s τ is t) (hs : s.Orderly) (ht : t.Orderly) (phrase : Phrase) :
    Wrote s (s.event (.begins phrase) :: τ ++ [t.event (.ends phrase)])
      (s.scope.mark (.begins phrase) :: is ++ [t.scope.mark (.ends phrase)]) t :=
  ((Wrote.event hs _).trans h).trans (Wrote.event ht _)

/-- An action that does not change the length of the code writes nothing. -/
theorem Action.trace_of_size_eq {β : Type} {a : Action β} {b : β} (ha : a.apply s = .ok (b, t))
    (hsize : t.chunk.size = s.chunk.size) : a.trace s = [] := by
  rw [trace, ha]
  exact if_neg fun h => by omega

/-- One that adds to the code of the current function writes an instruction. -/
theorem Action.trace_of_size_lt {β : Type} {a : Action β} {b : β} (ha : a.apply s = .ok (b, t))
    (hfunction : t.functions.current.function = s.functions.current.function)
    (hsize : s.chunk.size < t.chunk.size) : a.trace s = [s.event .writes] := by
  rw [trace, ha]
  exact if_pos ⟨hfunction, hsize⟩

/-- The code becomes longer by the items written. -/
theorem Session.Steps.size (h : s.Steps is t) : t.chunk.size = s.chunk.size + Item.size is := by
  have hlength := congrArg List.length h.code
  simpa [Chunk.size, Item.size] using hlength

/-- A step that writes no instruction. -/
theorem Wrote.of_silent {β : Type} {a : Action β} {b : β}
    (h : (CompileM.act a).Yields s b τ t) (hsteps : s.Steps [] t) : Wrote s τ [] t := by
  refine .of_yields h hsteps rfl ?_
  rw [h.act.2, Action.trace_of_size_eq h.act.1 hsteps.size]
  rfl

/-- One that writes an instruction happens to write that. -/
theorem Session.Steps.trace_eq {β : Type} {a : Action β} {b : β} {op : Opcode}
    {operands : List UInt8} (ha : a.apply s = .ok (b, t))
    (hsteps : s.Steps [s.scope.op op operands] t) :
    a.trace s = Item.events s.functions.current.function s.chunk.size
      [s.scope.op op operands] := by
  have hsize := hsteps.size
  rw [Scope.size_op_cons] at hsize
  rw [Action.trace_of_size_lt ha hsteps.function (by omega)]
  rfl

/-- A step that writes an instruction. -/
theorem Wrote.of_writing {β : Type} {a : Action β} {b : β} {op : Opcode}
    {operands : List UInt8} (h : (CompileM.act a).Yields s b τ t) (hop : op ≠ .closure)
    (hsteps : s.Steps [s.scope.op op operands] t) :
    Wrote s τ [s.scope.op op operands] t := by
  refine .of_yields h hsteps ?_ (h.act.2.trans (hsteps.trace_eq h.act.1))
  rw [Item.made, Scope.closures_op_cons _ hop]
  rfl

/-- A change that leaves the code, the constants and the captures of all functions alone. -/
theorem Session.Steps.of_eq (hfunction : t.functions.current.function =
      s.functions.current.function)
    (hkind : t.functions.current.kind = s.functions.current.kind)
    (harity : t.functions.current.arity = s.functions.current.arity)
    (hchunk : t.chunk = s.chunk)
    (hupvalues : t.functions.current.upvalues = s.functions.current.upvalues)
    (henclosing : t.functions.enclosing = s.functions.enclosing) (hheap : t.heap = s.heap) :
    s.Steps [] t where
  function := hfunction
  kind := hkind
  arity := harity
  code := by rw [hchunk, Item.code_nil, List.append_nil]
  constants := hchunk ▸ List.prefix_refl _
  upvalues := hupvalues ▸ List.prefix_refl _
  enclosing := henclosing ▸ forall₂_grows_refl _
  marks := by
    rw [FunctionStack.states, FunctionStack.states, henclosing, waiting_congr hupvalues]
    exact forall₂_marksOnly_refl _
  finds := by
    refine .of_cores ?_ hheap
    have hcore : t.functions.current.core = s.functions.current.core :=
      Prod.ext hfunction (congrArg Chunk.constants hchunk)
    rw [FunctionStack.cores, FunctionStack.cores, FunctionStack.states, FunctionStack.states,
      henclosing, List.map_cons, List.map_cons, hcore]
  indices := by rw [hchunk]

/-- Code has no marks. -/
theorem Session.waiting_modifyChunk (f : Chunk → Chunk) (s : Session) :
    Waiting (s.modifyChunk f).functions.states = Waiting s.functions.states :=
  waiting_congr rfl

/-- A change of the code that adds no constant. -/
theorem Session.Steps.modifyChunk {f : Chunk → Chunk}
    (hcode : (f s.chunk).code.toList = s.chunk.code.toList ++ Item.code is)
    (hconstants : (f s.chunk).constants = s.chunk.constants) :
    s.Steps is (s.modifyChunk f) where
  function := rfl
  kind := rfl
  arity := rfl
  code := hcode
  constants := by
    show s.chunk.constants.toList <+: (f s.chunk).constants.toList
    exact hconstants ▸ List.prefix_refl _
  upvalues := List.prefix_refl _
  enclosing := forall₂_grows_refl _
  marks := s.waiting_modifyChunk f ▸ forall₂_marksOnly_refl _
  finds := .of_cores (List.cons_eq_cons.mpr ⟨congrArg (Prod.mk _) hconstants, rfl⟩) rfl
  indices := congrArg (fun vs => Value.functionIndices vs.toList) hconstants

/-- A change of the code that adds a constant which is no function. -/
theorem Session.Steps.pushConstant {f : Chunk → Chunk} {v : Value} (hlive : s.heap.Live v)
    (hleaf : v.function? = none)
    (hcode : (f s.chunk).code.toList = s.chunk.code.toList ++ Item.code is)
    (hconstants : (f s.chunk).constants = s.chunk.constants.push v) :
    s.Steps is (s.modifyChunk f) where
  function := rfl
  kind := rfl
  arity := rfl
  code := hcode
  constants := by
    show s.chunk.constants.toList <+: (f s.chunk).constants.toList
    rw [hconstants, Array.toList_push]
    exact List.prefix_append ..
  upvalues := List.prefix_refl _
  enclosing := forall₂_grows_refl _
  marks := s.waiting_modifyChunk f ▸ forall₂_marksOnly_refl _
  finds := .pushConstant hlive hleaf hconstants
  indices := by
    show Value.functionIndices (f s.chunk).constants.toList = _
    rw [hconstants, Array.toList_push, Value.functionIndices_concat, hleaf]
    exact List.append_nil _

/-- Interning a text beforehand writes nothing. -/
theorem Session.Steps.of_intern (hs : s.Sound []) {text : String}
    (h : (s.intern text).2.Steps is t) : s.Steps is t where
  function := h.function
  kind := h.kind
  arity := h.arity
  code := h.code
  constants := h.constants
  upvalues := h.upvalues
  enclosing := h.enclosing
  marks := h.marks
  finds := (Session.Finds.of_preserves (.intern hs text) rfl).trans h.finds
  indices := h.indices

/-! ### Tokens -/

/-- From `s` to `t` neither the tokens nor the scope change. -/
structure Session.Stays (s t : Session) : Prop where
  tokens : s.SameTokens t
  scope : t.scope = s.scope

/-- Staying after staying is staying. -/
theorem Session.Stays.trans (h₁ : s.Stays u) (h₂ : u.Stays t) : s.Stays t where
  tokens := h₁.tokens.trans h₂.tokens
  scope := h₂.scope.trans h₁.scope

/-- From `s` to `t` a token is passed and nothing is written. -/
structure Session.Passes (s t : Session) : Prop where
  wrote : Wrote s [] [] t
  scope : t.scope = s.scope
  previous : t.previous = s.current
  remaining : s.remaining = s.current :: t.remaining

/-- Moving on writes nothing. -/
theorem Wrote.advance {a : Unit} (h : CompileM.advance.Yields s a τ t) :
    Wrote s τ [] t ∧ t.scope = s.scope := by
  have ht := h.advance.2
  have hfunctions : t.functions = s.functions := ht ▸ Session.functions_advance s
  have hheap : t.heap = s.heap := ht ▸ Session.heap_advance s
  refine ⟨.of_silent h (.of_eq (by rw [hfunctions]) (by rw [hfunctions]) (by rw [hfunctions])
    ?_ (by rw [hfunctions]) (by rw [hfunctions]) hheap), ?_⟩
  · rw [Session.chunk, hfunctions]
    rfl
  · rw [Session.scope, hfunctions]
    rfl

/-- Moving on passes the current token, unless that is the end of the source. -/
theorem Session.Clean.passes (hs : s.Clean) (ht : s.advance.Clean)
    (hkind : s.current.kind ≠ .eof) : s.Passes s.advance := by
  have hadvance : CompileM.advance.Yields s () [] s.advance :=
    ⟨hs, rfl, CompileM.trace_advance s, ht⟩
  obtain ⟨hwrote, hscope⟩ := Wrote.advance hadvance
  refine ⟨hwrote, hscope, previous_advance s, ?_⟩
  rw [hs.orderly.onTrack.remaining_advance, remaining_of_ne_eof hkind]
  rfl

namespace CompileM

variable {kind : TokenKind}

/-- A token that has to be there is there and passed. -/
theorem Yields.expect_passes {what : String} {a : Unit}
    (h : (CompileM.expect kind what).Yields s a τ t) (hkind : kind ≠ .eof) :
    s.current.kind = kind ∧ τ = [] ∧ s.Passes t := by
  obtain ⟨hcurrent, rfl, rfl⟩ := h.expect
  exact ⟨hcurrent, rfl, h.before.passes h.after (hcurrent ▸ hkind)⟩

/-- A token that may be there is passed, or nothing happens. -/
theorem Yields.acceptIf_passes {allowed a : Bool}
    (h : (CompileM.acceptIf allowed kind).Yields s a τ t) (hkind : kind ≠ .eof) :
    τ = [] ∧ (a = true ∧ (allowed = true ∧ s.current.kind = kind) ∧ s.Passes t ∨
      a = false ∧ ¬ (allowed = true ∧ s.current.kind = kind) ∧ s = t) := by
  obtain ⟨rfl, ⟨rfl, hcurrent, rfl⟩ | hstays⟩ := h.acceptIf
  · exact ⟨rfl, Or.inl ⟨rfl, hcurrent, h.before.passes h.after (hcurrent.2 ▸ hkind)⟩⟩
  · exact ⟨rfl, Or.inr hstays⟩

/-- A token that may be there is passed if it is there. -/
theorem Yields.accept_passes {a : Bool} (h : (CompileM.accept kind).Yields s a τ t)
    (hkind : kind ≠ .eof) :
    τ = [] ∧ (a = true ∧ s.current.kind = kind ∧ s.Passes t ∨
      a = false ∧ s.current.kind ≠ kind ∧ s = t) := by
  have haccept : (CompileM.acceptIf true kind).Yields s a τ t := h
  simpa using haccept.acceptIf_passes hkind

end CompileM

/-! ### Instructions -/

namespace CompileM

variable {a : Unit}

/-- An instruction is one item. -/
theorem Yields.steps_emit {op : Opcode} {operands : List UInt8}
    (h : (emit op operands).Yields s a τ t) :
    s.Steps [s.scope.op op operands] t ∧ s.Stays t := by
  have ht : s.emit op operands = t := by
    have happly := h.act.1
    cases happly
    rfl
  subst ht
  have hsteps : s.Steps [s.scope.op op operands]
      (s.modifyChunk (·.writeInstruction op operands s.previous.line)) := by
    refine .modifyChunk ?_ (Chunk.constants_writeInstruction ..)
    rw [Chunk.code_writeInstruction, Array.toList_append]
    simp [Scope.op]
  exact ⟨hsteps, ⟨rfl, rfl, rfl⟩, rfl⟩

/-- An instruction is written, and is no closure. -/
theorem Yields.emit {op : Opcode} {operands : List UInt8}
    (h : (emit op operands).Yields s a τ t) (hop : op ≠ .closure) :
    Wrote s τ [s.scope.op op operands] t ∧ s.Stays t :=
  ⟨.of_writing h hop h.steps_emit.1, h.steps_emit.2⟩

/-- Several instructions are written in order. -/
theorem Yields.emitAll {ops : List Opcode} (h : (emitAll ops).Yields s a τ t)
    (hops : ∀ op ∈ ops, op ≠ .closure) :
    Wrote s τ (ops.map (s.scope.op · [])) t ∧ s.Stays t := by
  induction ops generalizing s τ with
  | nil =>
      obtain ⟨-, rfl, rfl⟩ := Yields.pure h
      exact ⟨.refl h.before.orderly, ⟨rfl, rfl, rfl⟩, rfl⟩
  | cons op ops ih =>
      have h : (CompileM.emit op [] >>= fun _ => CompileM.emitAll ops).Yields s a τ t := h
      obtain ⟨_, u, τ₁, τ₂, hemit, hrest, rfl⟩ := h.bind
      obtain ⟨hop, hops⟩ := List.forall_mem_cons.mp hops
      obtain ⟨hwrote, hstays⟩ := hemit.emit hop
      obtain ⟨hwrote', hstays'⟩ := ih hrest hops
      rw [hstays.scope] at hwrote'
      exact ⟨hwrote.trans hwrote', hstays.trans hstays'⟩

/-! ### Constants -/

/-- The load of a constant is no closure. -/
theorem loadOf_ne_closure (index : Nat) : (Chunk.loadOf index).1 ≠ .closure := by
  rw [Chunk.loadOf]
  split <;> nofun

/-- A load that reports nothing adds its constant and writes the instruction. -/
theorem load_spec {v : Value} (hlive : s.heap.Live v) (hleaf : v.function? = none)
    (halert : s.recovering = false) (hclean : (s.load v).Clean) :
    s.chunk.constants.size < Chunk.maxConstants ∧
      s.Steps [s.scope.op (Chunk.loadOf s.chunk.constants.size).1
        (Chunk.loadOf s.chunk.constants.size).2] (s.load v) ∧
      s.Stays (s.load v) ∧ (s.load v).heap = s.heap ∧
      (World.of (s.load v)).constants[s.chunk.constants.size]? = some v := by
  cases hfull : s.chunk.isFull with
  | true =>
      rw [Session.load, if_pos hfull] at hclean
      exact absurd hclean (not_clean_report halert)
  | false =>
      have hload : s.load v = s.modifyChunk (·.writeLoad v s.previous.line) := by
        rw [Session.load, if_neg (by simp [hfull])]
      rw [hload]
      refine ⟨by simpa [Chunk.isFull] using hfull, .pushConstant hlive hleaf ?_
        (Chunk.constants_writeLoad ..), ⟨⟨rfl, rfl, rfl⟩, rfl⟩, rfl, ?_⟩
      · rw [Chunk.code_writeLoad, Array.toList_append]
        simp [Scope.op]
      · show (s.chunk.writeLoad v s.previous.line).constants.toList[_]? = _
        rw [Chunk.constants_writeLoad]
        simp

/-- A number is written as a load of it. -/
theorem Yields.numberLiteral (h : numberLiteral.Yields s a τ t) :
    ∃ x is, Number.ofText? s.previous.lexeme = some x ∧ Wrote s τ is t ∧ s.Stays t ∧
      ExprCode (World.of t) s.scope [.number x] is := by
  have ht : s.loadNumber = t := by
    have happly := h.act.1
    cases happly
    rfl
  cases hx : Number.ofText? s.previous.lexeme with
  | none =>
      rw [Session.loadNumber, hx] at ht
      exact absurd (ht ▸ h.after) (not_clean_report h.before.alert)
  | some x =>
      simp only [Session.loadNumber, hx] at ht
      subst ht
      obtain ⟨hlt, hsteps, hstays, -, hconstant⟩ :=
        load_spec (v := .number x) trivial rfl h.before.alert h.after
      exact ⟨x, _, rfl, .of_writing h (loadOf_ne_closure _) hsteps, hstays, .number rfl hlt hconstant⟩

/-- A string is written as a load of its text. -/
theorem Yields.stringLiteral (h : stringLiteral.Yields s a τ t) :
    ∃ text is, Session.unquote s.previous.lexeme = .ok text ∧ Wrote s τ is t ∧ s.Stays t ∧
      ExprCode (World.of t) s.scope [.string text] is := by
  have hsound := h.before.orderly.sound
  obtain ⟨u, hload, hu⟩ := bind_eq_ok.mp h.act.1
  obtain rfl : u = t := by
    cases hu
    rfl
  rw [Session.loadString] at hload
  obtain ⟨text, htext, hload⟩ := bind_eq_ok.mp hload
  have hu : (s.intern text).2.load (.string (s.intern text).1) = u := by
    cases hload
    rfl
  obtain ⟨hlt, hsteps, hstays, hheap, hconstant⟩ :=
    load_spec (hsound.live_intern text) rfl h.before.alert (hu ▸ h.after)
  rw [hu] at hsteps hstays hheap hconstant
  refine ⟨text, _, htext, .of_writing h (loadOf_ne_closure _) (hsteps.of_intern hsound),
    ⟨⟨hstays.tokens.upcoming, hstays.tokens.current, hstays.tokens.previous⟩, hstays.scope⟩,
    .string rfl hlt ⟨_, hconstant, ?_⟩⟩
  show u.heap.strings.get? _ = _
  rw [hheap]
  exact hsound.get?_intern text

/-- The name just passed is a constant then, and nothing is written. -/
theorem Yields.nameConstant {i : UInt8} (h : nameConstant.Yields s i τ t) :
    Wrote s τ [] t ∧ s.Stays t ∧ (World.of t).HasText i.toNat s.previous.lexeme := by
  have hsound := h.before.orderly.sound
  have hadd : (s.intern s.previous.lexeme).2.addConstant
      (.string (s.intern s.previous.lexeme).1) = .ok (i, t) := h.act.1
  rcases Session.addConstant_eq_ok hadd with ⟨hfits, rfl, rfl⟩ | ⟨-, rfl⟩
  · refine ⟨.of_silent h (.of_intern hsound (.pushConstant (hsound.live_intern _) rfl ?_ rfl)),
      ⟨⟨rfl, rfl, rfl⟩, rfl⟩, _, ?_, hsound.get?_intern _⟩
    · simp
    · have hindex : s.chunk.constants.size.toUInt8.toNat = s.chunk.constants.size :=
        Nat.mod_eq_of_lt (Nat.lt_succ_of_le hfits)
      show (s.chunk.constants.push _).toList[s.chunk.constants.size.toUInt8.toNat]? = _
      rw [hindex]
      simp
  · exact absurd h.after (not_clean_report h.before.alert)

/-! ### Jumps -/

/-- A jump is written with room for its distance. -/
theorem Yields.emitJump {op : Opcode} {offset : Nat} (h : (emitJump op).Yields s offset τ t)
    (hop : op ≠ .closure) :
    offset = s.chunk.size + 1 ∧
      Wrote s τ [s.scope.op op (Chunk.bytesOf16 Session.maxJump)] t ∧ s.Stays t := by
  obtain ⟨_, u, τ₁, τ₂, hemit, hrest, rfl⟩ := Yields.bind h
  obtain ⟨_, v, τ₃, τ₄, hsize, hpure, rfl⟩ := hrest.bind
  obtain ⟨rfl, rfl, rfl⟩ := hsize.codeSize
  obtain ⟨rfl, rfl, rfl⟩ := hpure.pure
  obtain ⟨hwrote, hstays⟩ := hemit.emit hop
  refine ⟨?_, ?_, hstays⟩
  · rw [hwrote.size, Scope.size_op_cons, Scope.length_bytesOf16, Item.size_nil]
    omega
  · simpa using hwrote

end CompileM

/-- Overwriting the operand of a jump in some code. -/
theorem Item.code_patch {before : List UInt8} {is js : List Item} {op : Opcode} {n : Nat}
    {operands : List UInt8} {high low : UInt8} (hoperands : operands.length = 2) :
    (((before ++ Item.code (is ++ .instr op operands n :: js)).set
        (before.length + Item.size is + 1) high).set
        (before.length + Item.size is + 1 + 1) low) =
      before ++ Item.code (is ++ .instr op [high, low] n :: js) := by
  obtain ⟨x, y, rfl⟩ : ∃ x y, operands = [x, y] := List.length_eq_two.mp hoperands
  simp [Item.size, Nat.add_assoc]

/-- A jump over the code behind it, once that is written. -/
theorem Wrote.patch {is js : List Item} {op : Opcode} {Γ : Scope} {a : Unit} {offset : Nat}
    (h : Wrote s τ₁ (is ++ Γ.op op (Chunk.bytesOf16 Session.maxJump) :: js) u)
    (hpatch : (CompileM.patchJump offset).Yields u a τ₂ t) (hop : op ≠ .closure)
    (hoffset : offset = s.chunk.size + Item.size is + 1) :
    Wrote s (τ₁ ++ τ₂) (is ++ Γ.jump op js :: js) t ∧ Item.Fits js ∧ u.Stays t ∧
      (World.of u).Le (World.of t) := by
  have hsize := h.size
  rw [Item.size_append, Scope.size_op_cons, Scope.length_bytesOf16] at hsize
  have hdistance : u.chunk.size - (offset + 2) = Item.size js := by omega
  obtain ⟨v, hv, hok⟩ := bind_eq_ok.mp hpatch.act.1
  obtain rfl : v = t := by
    cases hok
    rfl
  rcases Session.patchJump_eq_ok hv with ⟨c, hc, -, hfits, rfl⟩ | ⟨-, rfl⟩
  · rw [hdistance] at hc hfits
    have hcode : c.code.toList =
        s.chunk.code.toList ++ Item.code (is ++ Γ.jump op js :: js) := by
      rw [Chunk.code_patch16 hc, h.code, hoffset]
      exact Item.code_patch (Scope.length_bytesOf16 _)
    have hconstants : c.constants = u.chunk.constants := Chunk.constants_patch16 hc
    have hτ₂ : τ₂ = [] := by
      rw [hpatch.act.2]
      refine Action.trace_of_size_eq hpatch.act.1 ?_
      show c.code.size = u.chunk.code.size
      rw [← Array.length_toList, Chunk.code_patch16 hc, List.length_set, List.length_set,
        Array.length_toList]
    subst hτ₂
    have hworld : World.of (u.modifyChunk fun _ => c) = World.of u :=
      congrArg (fun constants : Array Value =>
        { World.of u with constants := constants.toList }) hconstants
    refine ⟨?_, hfits, ⟨⟨rfl, rfl, rfl⟩, rfl⟩, hworld ▸ .refl _⟩
    rw [List.append_nil]
    exact
      { preserves := h.preserves.trans hpatch.preserves
        function := h.function
        kind := h.kind
        arity := h.arity
        code := hcode
        constants := by
          show s.chunk.constants.toList <+: c.constants.toList
          exact hconstants ▸ h.constants
        upvalues := h.upvalues
        enclosing := h.enclosing
        marks := u.waiting_modifyChunk (fun _ => c) ▸ h.marks
        own := h.own.trans (Item.events_replace rfl)
        enclosed := h.enclosed
        others := h.others
        complete := fun σ hσ => by
          have hcores : (Session.modifyChunk (fun _ => c) u).functions.cores =
              u.functions.cores :=
            List.cons_eq_cons.mpr ⟨congrArg (Prod.mk _) hconstants, rfl⟩
          have hkept := (h.complete σ hσ).of_yields hpatch (fun _ => id) (.of_cores hcores rfl) (by simp)
          rwa [List.append_nil] at hkept
        closures := by
          have hmade : Item.made (is ++ Γ.jump op js :: js) =
              Item.made (is ++ Γ.op op (Chunk.bytesOf16 Session.maxJump) :: js) := by
            rw [Item.made, Item.made, Item.closures_append, Item.closures_append, Scope.jump,
              Scope.closures_op_cons _ hop, Scope.closures_op_cons _ hop]
          show Value.functionIndices c.constants.toList = _
          rw [hconstants, hmade]
          exact h.closures }
  · exact absurd hpatch.after (CompileM.not_clean_report hpatch.before.alert)

/-- A jump back to where some code began. -/
theorem CompileM.Yields.emitLoop {target : Nat} {a : Unit}
    (h : (emitLoop target).Yields s a τ t) :
    s.chunk.size + 3 - target ≤ Session.maxJump ∧
      Wrote s τ [s.scope.back (s.chunk.size + 3 - target)] t ∧ s.Stays t := by
  obtain ⟨_, u, τ₁, τ₂, hsize, hrest, rfl⟩ := Yields.bind h
  obtain ⟨rfl, rfl, rfl⟩ := hsize.codeSize
  rw [List.nil_append]
  split at hrest
  · exact hrest.fault.elim
  · dsimp only at hrest
    split at hrest
    next hfits => exact ⟨hfits, hrest.emit (by decide)⟩
    next =>
      obtain ⟨_, u, τ₁, τ₂, hfail, -, -⟩ := hrest.bind
      exact hfail.fail.elim

end LoxBytecode
