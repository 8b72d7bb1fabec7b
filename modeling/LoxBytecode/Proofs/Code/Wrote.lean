import LoxBytecode.Proofs.Code.Closing
import LoxBytecode.Proofs.Session.Clean
import LoxBytecode.Proofs.Session.Marks

/-!
# What a Compilation Wrote

`Wrote s τ is t` says that the way from `s` to `t`, with the events `τ`, added the items `is` to
the code of the current function, and did nothing to the functions around it but let them grow.
It composes, so the code of a phrase is put together from that of its parts.

The functions finished on the way are part of it: each is `Finished`, which means that its
object holds the code of some program, and that its events are those of writing that code. In that
code every scope closes as it should (`ClosedFunction`).
-/

namespace LoxBytecode

open Heap

/-! ### Function constants -/

/-- The indices of the functions among some values. -/
def Value.functionIndices (vs : List Value) : List Nat :=
  vs.zipIdx.filterMap fun (v, i) => v.function?.map fun _ => i

/-- The next constant has the next index, if it is a function. -/
theorem Value.functionIndices_concat (vs : List Value) (v : Value) :
    functionIndices (vs ++ [v]) =
      functionIndices vs ++ (v.function?.map fun _ => vs.length).toList := by
  rw [functionIndices, List.zipIdx_append, List.filterMap_append, functionIndices]
  cases hv : v.function? <;> simp [hv]

/-! ### Finished functions -/

/-- A world is that of a function object in a heap. -/
structure World.Describes (w : World) (h : Heap) (o : FunctionObject) : Prop where
  constants : w.constants = o.chunk.constants.toList
  heap : w.heap = h
  upvalues : w.upvalues = o.upvalueCount

/-- The code of a whole function: that of its body, and the return of nil. -/
inductive BodyCode (w : World) (arity : Nat) : List Item → Prop
  | intro {Γ Γ' : Scope} {body : Stmt} {a : List Item} :
      Γ.locals.length = arity + 1 → Γ.Settled → StmtCode w Γ body a Γ' →
        BodyCode w arity (a ++ [Γ'.op .nil [], Γ'.op .ret []])

/-- The object of a function holds the code of a program, and some events are those of writing
it. -/
def Finished (h : Heap) (σ : List Event) (f : FunctionHandle) : Prop :=
  ∃ o w is, h.functions.get? f.index = some o ∧ w.Describes h o ∧ BodyCode w o.arity is ∧
    o.chunk.code.toList = Item.code is ∧ Event.ofFunction f σ = Item.events f 0 is

/-- The code of a whole function whose scopes close as they should. -/
inductive ClosedBody (w : World) (arity : Nat) : List Item → Prop
  | intro {Γ Γ' : Scope} {body : Stmt} {a : List Item} :
      Γ.locals.length = arity + 1 → Γ.Settled → StmtCode w Γ body a Γ' →
        ClosedCode w Γ body a Γ' → ClosedBody w arity (a ++ [Γ'.op .nil [], Γ'.op .ret []])

/-- A body that closes its locals does so in every later world. -/
theorem ClosedBody.mono {w w' : World} (h : w.Le w') {arity : Nat} {is : List Item}
    (hb : ClosedBody w arity is) : ClosedBody w' arity is := by
  obtain ⟨harity, hsettled, hcode, hclosed⟩ := hb
  exact .intro harity hsettled (hcode.mono h) (hclosed.mono h)

/-- The object of a function holds the code of a program whose scopes close as they should, and
some events are those of writing it. -/
def ClosedFunction (h : Heap) (σ : List Event) (f : FunctionHandle) : Prop :=
  ∃ o w is, h.functions.get? f.index = some o ∧ w.Describes h o ∧ ClosedBody w o.arity is ∧
    o.chunk.code.toList = Item.code is ∧ Event.ofFunction f σ = Item.events f 0 is

/-- A function that closes its locals is finished. -/
theorem ClosedFunction.finished {h : Heap} {σ : List Event} {f : FunctionHandle}
    (hf : ClosedFunction h σ f) : Finished h σ f := by
  obtain ⟨o, w, is, ho, hw, ⟨harity, hsettled, hcode, -⟩, hbytes, hevents⟩ := hf
  exact ⟨o, w, _, ho, hw, .intro harity hsettled hcode, hbytes, hevents⟩

/-- The object of a function is closed, and its code makes closures of its function constants,
one of each and in their order. -/
def PairedFunction (h : Heap) (σ : List Event) (f : FunctionHandle) : Prop :=
  ∃ o w is, h.functions.get? f.index = some o ∧ w.Describes h o ∧ ClosedBody w o.arity is ∧
    o.chunk.code.toList = Item.code is ∧ Event.ofFunction f σ = Item.events f 0 is ∧
    Value.functionIndices o.chunk.constants.toList = Item.made is

/-- A function that was written in pairs closes its locals. -/
theorem PairedFunction.closed {h : Heap} {σ : List Event} {f : FunctionHandle}
    (hf : PairedFunction h σ f) : ClosedFunction h σ f := by
  obtain ⟨o, w, is, ho, hw, hbody, hbytes, hevents, -⟩ := hf
  exact ⟨o, w, is, ho, hw, hbody, hbytes, hevents⟩

/-- Besides itself a function reaches no functions but those that its constants reach. -/
theorem reach_constants_of_function {h : Heap} {f g : FunctionHandle} {o : FunctionObject}
    (ho : h.functions.get? f.index = some o) (hg : h.Reach [.function f] (.function g)) :
    g = f ∨ h.Reach o.chunk.constants.toList (.function g) := by
  suffices hall : ∀ v, h.Reach [.function f] v → v.function? = none ∨ v = .function f ∨
      h.Reach o.chunk.constants.toList v by
    rcases hall _ hg with hnone | heq | hreach
    · cases hnone
    · exact Or.inl (Value.function.inj heq)
    · exact Or.inr hreach
  intro v hv
  induction hv with
  | root hmem => exact Or.inr (Or.inl (List.mem_singleton.mp hmem))
  | child _ hget hchild ih =>
      rcases ih with hnone | heq | hreach
      · cases hnone
      · cases heq
        rw [ho] at hget
        cases hget
        rcases List.mem_append.mp hchild with hname | hconstant
        · obtain ⟨name, -, rfl⟩ := Option.map_eq_some_iff.mp (Option.mem_toList.mp hname)
          exact Or.inl rfl
        · exact Or.inr (Or.inr (.root (List.mem_filter.mp hconstant).1))
      · exact Or.inr (Or.inr (.child hreach hget hchild))

/-- A function stays as it is when nothing that it reaches changes and nothing more happens to
it. -/
theorem PairedFunction.mono {h h' : Heap} {σ τ : List Event} {f : FunctionHandle}
    (hf : PairedFunction h σ f) (hagree : ∀ v, h.Reach [.function f] v → h.Agree h' v)
    (hτ : ∀ e ∈ τ, e.function ≠ f) : PairedFunction h' (σ ++ τ) f := by
  obtain ⟨o, w, is, ho, hw, hbody, hcode, hevents, hpaired⟩ := hf
  have hroot : h.Reach [.function f] (.function f) := .root (List.mem_singleton.mpr rfl)
  have hle : w.Le { w with heap := h' } :=
    { World.Le.refl w with
      agree := fun v hv => by
        rw [hw.heap, hw.constants] at hv
        rw [hw.heap]
        cases hobject : v.isObject with
        | false => cases v <;> trivial
        | true => exact hagree v (reach_function_of_constants ho hv hobject) }
  refine ⟨o, { w with heap := h' }, is, Eq.trans (hagree _ hroot) ho,
    ⟨hw.constants, rfl, hw.upvalues⟩, hbody.mono hle, hcode, ?_, hpaired⟩
  rw [Event.ofFunction_append, Event.ofFunction_eq_nil hτ, List.append_nil, hevents]

/-- Every function that the finished part of a session reaches is paired with its closures, and
every event so far is one of such a function, or of one being compiled. -/
structure Complete (σ : List Event) (s : Session) : Prop where
  paired : ∀ f, s.heap.Reach s.functions.pool (.function f) → PairedFunction s.heap σ f
  accounted : ∀ e ∈ σ, e.function ∈ s.functions.handles ∨
    s.heap.Reach s.functions.pool (.function e.function)

/-- What was complete is paired wherever all that the session reaches is kept. -/
theorem Complete.paired_of_agree {s : Session} {h' : Heap} {σ τ : List Event}
    {f : FunctionHandle} (hσ : Complete σ s)
    (hagree : ∀ v, s.heap.Reach s.functions.pool v → s.heap.Agree h' v)
    (hf : s.heap.Reach s.functions.pool (.function f)) (hτ : ∀ e ∈ τ, e.function ≠ f) :
    PairedFunction h' (σ ++ τ) f := by
  refine (hσ.paired f hf).mono (fun v hv => hagree v (hv.trans fun w hw => ?_)) hτ
  rwa [List.mem_singleton.mp hw]

/-! ### Writing -/

/-- What the operands of the current function's code refer to. -/
def World.of (s : Session) : World :=
  ⟨s.chunk.constants.toList, s.heap, s.functions.states.map FunctionState.upvalues,
    s.functions.enclosing.map FunctionState.frame⟩

/-- The way from `s` to `t` added some items to the code of the current function. -/
structure Proceeds (s : Session) (τ : List Event) (is : List Item) (t : Session) : Prop where
  preserves : Session.Preserves [] s t
  function : t.functions.current.function = s.functions.current.function
  kind : t.functions.current.kind = s.functions.current.kind
  code : t.chunk.code.toList = s.chunk.code.toList ++ Item.code is
  constants : s.chunk.constants.toList <+: t.chunk.constants.toList
  upvalues : s.functions.current.upvalues <+: t.functions.current.upvalues
  enclosing : List.Forall₂ FunctionState.Grows s.functions.enclosing t.functions.enclosing
  marks : List.Forall₂ MarksOnly (Waiting s.functions.states) (Waiting t.functions.states)
  own : Event.ofFunction s.functions.current.function τ =
    Item.events s.functions.current.function s.chunk.size is
  enclosed : ∀ e ∈ τ, ∀ st ∈ s.functions.enclosing, e.function ≠ st.function
  others : ∀ e ∈ τ, ¬ s.heap.Reach s.functions.pool (.function e.function)
  complete : ∀ σ, Complete σ s → Complete (σ ++ τ) t

/-- The items make closures of the functions that became constants on that way. -/
structure Continues (s : Session) (τ : List Event) (is : List Item) (t : Session) : Prop
    extends Proceeds s τ is t where
  closures : Value.functionIndices t.chunk.constants.toList =
    Value.functionIndices s.chunk.constants.toList ++ Item.made is

/-- The same, behind the parameters of the function. -/
structure Wrote (s : Session) (τ : List Event) (is : List Item) (t : Session) : Prop
    extends Continues s τ is t where
  arity : t.functions.current.arity = s.functions.current.arity

variable {s t u : Session} {τ τ₁ τ₂ : List Event} {is is₁ is₂ : List Item}

/-- The constants of the current function are among those of all functions. -/
theorem Session.mem_pool_of_mem_constants {v : Value} (hv : v ∈ s.chunk.constants.toList) :
    v ∈ s.functions.pool :=
  List.mem_append_left _ hv

/-- The world of the function grows. -/
theorem Proceeds.le (h : Proceeds s τ is t) : (World.of s).Le (World.of t) where
  constants := h.constants
  agree v hv := h.preserves.agree v (hv.mono fun _ => Session.mem_pool_of_mem_constants)
  tables := .cons h.upvalues (forall₂_upvalues_of_grows h.enclosing)
  around := map_frame_of_grows h.enclosing

/-- The code has become longer by the items written. -/
theorem Proceeds.size (h : Proceeds s τ is t) :
    t.chunk.size = s.chunk.size + Item.size is := by
  have hlength := congrArg List.length h.code
  simpa [Chunk.size, Item.size] using hlength

/-- Writing on after writing is writing both. -/
theorem Proceeds.trans (h₁ : Proceeds s τ₁ is₁ u) (h₂ : Proceeds u τ₂ is₂ t) :
    Proceeds s (τ₁ ++ τ₂) (is₁ ++ is₂) t where
  preserves := h₁.preserves.trans h₂.preserves
  function := h₂.function.trans h₁.function
  kind := h₂.kind.trans h₁.kind
  code := by rw [h₂.code, h₁.code, Item.code_append, List.append_assoc]
  constants := h₁.constants.trans h₂.constants
  upvalues := h₁.upvalues.trans h₂.upvalues
  enclosing := forall₂_grows_trans h₁.enclosing h₂.enclosing
  marks := forall₂_marksOnly_trans h₁.marks h₂.marks
  own := by
    have hown := h₂.own
    rw [h₁.function, h₁.size] at hown
    rw [Event.ofFunction_append, h₁.own, hown, Item.events_append]
  enclosed e he st hst := by
    rcases List.mem_append.mp he with he | he
    · exact h₁.enclosed e he st hst
    · obtain ⟨st', hst', hgrows⟩ := exists_grows_of_mem h₁.enclosing hst
      have hne := h₂.enclosed e he st' hst'
      rwa [show st'.function = st.function from congrArg Prod.fst hgrows.core] at hne
  others e he := by
    rcases List.mem_append.mp he with he | he
    · exact h₁.others e he
    · exact fun hreach => h₂.others e he (h₁.preserves.reach _ rfl hreach)
  complete σ hσ := by
    rw [← List.append_assoc]
    exact h₂.complete _ (h₁.complete σ hσ)

/-- Continuing after continuing is continuing through both. -/
theorem Continues.trans (h₁ : Continues s τ₁ is₁ u) (h₂ : Continues u τ₂ is₂ t) :
    Continues s (τ₁ ++ τ₂) (is₁ ++ is₂) t where
  toProceeds := h₁.toProceeds.trans h₂.toProceeds
  closures := by rw [h₂.closures, h₁.closures, Item.made_append, List.append_assoc]

/-- Where nothing happens, nothing is written. -/
theorem Wrote.refl (hs : s.Orderly) : Wrote s [] [] s where
  preserves := .refl hs.sound
  function := rfl
  kind := rfl
  arity := rfl
  code := (List.append_nil _).symm
  constants := List.prefix_refl _
  upvalues := List.prefix_refl _
  enclosing := forall₂_grows_refl _
  marks := forall₂_marksOnly_refl _
  own := rfl
  enclosed e he := by cases he
  others e he := by cases he
  complete σ hσ := by rwa [List.append_nil]
  closures := (List.append_nil _).symm

/-- What is written in a row is written in all. -/
theorem Wrote.trans (h₁ : Wrote s τ₁ is₁ u) (h₂ : Wrote u τ₂ is₂ t) :
    Wrote s (τ₁ ++ τ₂) (is₁ ++ is₂) t where
  toContinues := h₁.toContinues.trans h₂.toContinues
  arity := h₂.arity.trans h₁.arity

end LoxBytecode
