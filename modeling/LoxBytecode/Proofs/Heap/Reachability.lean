import LoxBytecode.Heap

/-!
# Reachability

`Heap.Reach h held v` says that `v` can be reached from the values in `held` by following the
names and constants of live functions. Everything that happens to a heap is described through
it: two heaps `Agree` about a value when its object, or the lack of one, is the same in both,
and what is reachable depends on the objects reached alone (`Reach.of_agree`).

A heap `HasNoDeadHandles` when no live function stores the handle of an empty slot. Then
everything reachable from live values is live (`closed_of_hasNoDeadHandles`).
-/

namespace LoxBytecode

namespace Heap

/-! ### Liveness and agreement -/

/-- Whether a value's object is in the heap. Values without an object always are. -/
def Live (h : Heap) : Value → Prop
  | .string s => h.containsString s = true
  | .function f => h.containsFunction f = true
  | .nil | .bool _ | .number _ => True

/-- Two heaps have the same object for a value, or both have none. -/
def Agree (h h' : Heap) : Value → Prop
  | .string s => h'.strings.get? s.index = h.strings.get? s.index
  | .function f => h'.functions.get? f.index = h.functions.get? f.index
  | .nil | .bool _ | .number _ => True

/-- A value that is no object is always live. -/
theorem live_of_not_isObject {h : Heap} {v : Value} (hv : v.isObject = false) : h.Live v := by
  cases v <;> trivial

/-- A string is live if its slot holds a text. -/
theorem live_string_iff {h : Heap} {s : StringHandle} :
    h.Live (.string s) ↔ ∃ text, h.strings.get? s.index = some text := by
  simp [Live, containsString, Option.isSome_iff_exists]

/-- A function is live if its slot holds one. -/
theorem live_function_iff {h : Heap} {f : FunctionHandle} :
    h.Live (.function f) ↔ ∃ o, h.functions.get? f.index = some o := by
  simp [Live, containsFunction, Option.isSome_iff_exists]

/-- A heap agrees with itself. -/
theorem Agree.refl (h : Heap) (v : Value) : h.Agree h v := by
  cases v <;> trivial

/-- Two heaps agree or they do not, in whichever order. -/
theorem Agree.symm {h h' : Heap} {v : Value} (ha : h.Agree h' v) : h'.Agree h v := by
  cases v <;> first | trivial | exact Eq.symm ha

/-- Heaps that agree with a third one agree. -/
theorem Agree.trans {h h' h'' : Heap} {v : Value} (h₁ : h.Agree h' v) (h₂ : h'.Agree h'' v) :
    h.Agree h'' v := by
  cases v <;> first | trivial | exact Eq.trans h₂ h₁

/-- Heaps that agree about a value agree on whether it is live. -/
theorem Agree.live_iff {h h' : Heap} {v : Value} (ha : h.Agree h' v) : h'.Live v ↔ h.Live v := by
  cases v with
  | string s => rw [live_string_iff, live_string_iff, show _ = _ from ha]
  | function f => rw [live_function_iff, live_function_iff, show _ = _ from ha]
  | nil | bool | number => exact Iff.rfl

/-! ### Reachability -/

/-- The values that can be reached from some values that are held, through the names and
constants of live functions. -/
inductive Reach (h : Heap) (held : List Value) : Value → Prop
  | root {v : Value} : v ∈ held → Reach h held v
  | child {f : FunctionHandle} {o : FunctionObject} {v : Value} :
      Reach h held (.function f) → h.functions.get? f.index = some o → v ∈ o.children →
        Reach h held v

/-- What is reachable from reachable values is reachable. -/
theorem Reach.trans {h : Heap} {held held' : List Value} (hsub : ∀ v ∈ held, h.Reach held' v)
    {v : Value} (hv : h.Reach held v) : h.Reach held' v := by
  induction hv with
  | root hmem => exact hsub _ hmem
  | child _ hget hchild ih => exact .child ih hget hchild

/-- Nothing is reachable from nothing. -/
theorem not_reach_nil {h : Heap} {v : Value} : ¬ h.Reach [] v := by
  intro hv
  induction hv with
  | root hmem => cases hmem
  | child _ _ _ ih => exact ih

/-- Holding more reaches more. -/
theorem Reach.mono {h : Heap} {held held' : List Value} (hsub : held ⊆ held') {v : Value}
    (hv : h.Reach held v) : h.Reach held' v :=
  hv.trans fun _ hmem => .root (hsub hmem)

/-- Heaps that agree about everything reachable in the first reach the same from there. -/
theorem Reach.of_agree {h h' : Heap} {held : List Value}
    (hagree : ∀ v, h.Reach held v → h.Agree h' v) {v : Value} (hv : h.Reach held v) :
    h'.Reach held v := by
  induction hv with
  | root hmem => exact .root hmem
  | child hf hget hchild ih => exact .child ih (Eq.trans (hagree _ hf) hget) hchild

/-- And they reach nothing else. -/
theorem Reach.of_agree' {h h' : Heap} {held : List Value}
    (hagree : ∀ v, h.Reach held v → h.Agree h' v) {v : Value} (hv : h'.Reach held v) :
    h.Reach held v := by
  induction hv with
  | root hmem => exact .root hmem
  | child hf hget hchild ih => exact .child ih (Eq.trans (hagree _ ih).symm hget) hchild

/-- The objects among a function's constants are its children. -/
theorem mem_children_of_mem_constants {o : FunctionObject} {v : Value}
    (hv : v ∈ o.chunk.constants.toList) (hobject : v.isObject = true) : v ∈ o.children :=
  List.mem_append.mpr (Or.inr (List.mem_filter.mpr ⟨hv, hobject⟩))

/-- A function's name is its child. -/
theorem mem_children_of_name {o : FunctionObject} {s : StringHandle} (hn : o.name = some s) :
    .string s ∈ o.children := by
  simp [FunctionObject.children, hn]

/-- A function reaches the objects that its constants reach. -/
theorem reach_function_of_constants {h : Heap} {f : FunctionHandle} {o : FunctionObject}
    (ho : h.functions.get? f.index = some o) {v : Value}
    (hv : h.Reach o.chunk.constants.toList v) (hobject : v.isObject = true) :
    h.Reach [.function f] v := by
  have hroot : h.Reach [.function f] (.function f) := .root (List.mem_singleton.mpr rfl)
  induction hv with
  | root hmem => exact .child hroot ho (mem_children_of_mem_constants hmem hobject)
  | child _ hget hchild ih => exact .child (ih rfl) hget hchild

/-! ### Dead handles -/

/-- No live function stores the handle of an empty slot, as its name or among its constants. -/
def HasNoDeadHandles (h : Heap) : Prop :=
  ∀ f o, h.functions.get? f = some o → ∀ v ∈ o.children, h.Live v

/-- Everything reachable from some held values is live. -/
def Closed (h : Heap) (held : List Value) : Prop :=
  ∀ v, h.Reach held v → h.Live v

/-- Without dead handles, everything reachable from live values is live. -/
theorem closed_of_hasNoDeadHandles {h : Heap} {held : List Value} (hh : h.HasNoDeadHandles)
    (hheld : ∀ v ∈ held, h.Live v) : h.Closed held := by
  intro v hv
  induction hv with
  | root hmem => exact hheld _ hmem
  | child _ hget hchild _ => exact hh _ _ hget _ hchild

/-- What is closed under more holders is closed under fewer. -/
theorem Closed.of_subset {h : Heap} {held held' : List Value} (hc : h.Closed held')
    (hsub : ∀ v ∈ held, h.Reach held' v) : h.Closed held :=
  fun _ hv => hc _ (hv.trans hsub)

/-- What can be reached from closed values is closed itself. -/
theorem Closed.of_reach {h : Heap} {held : List Value} {v : Value} (hc : h.Closed held)
    (hv : h.Reach held v) : h.Closed [v] :=
  hc.of_subset fun _ hw => List.mem_singleton.mp hw ▸ hv

/-- Closedness only depends on the objects reachable. -/
theorem Closed.of_agree {h h' : Heap} {held : List Value} (hc : h.Closed held)
    (hagree : ∀ v, h.Reach held v → h.Agree h' v) : h'.Closed held := by
  intro v hv
  have hold : h.Reach held v := hv.of_agree' hagree
  exact (hagree v hold).live_iff.mpr (hc v hold)

end Heap

end LoxBytecode
