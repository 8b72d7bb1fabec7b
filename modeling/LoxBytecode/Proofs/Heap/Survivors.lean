import LoxBytecode.Proofs.Heap.Collection
import Mathlib

/-!
# What a Collection Leaves

A collection is exact: from any roots, dead handles and repetitions among them, it keeps the live
objects that they reach, as they were, and it removes all others and counts them
(`collect_exact`).

The objects removed are those that the two sweeps answer with (`removed`), which is why their
number is the one that the collection answers with.
-/

namespace LoxBytecode

namespace Heap

variable {h : Heap} {held : List Value}

/-- The handles of the objects that a collection removes, the strings first. -/
def removed (h : Heap) (held : List Value) : List Value :=
  (markFrom h.strings h.functions held).1.doomed.map (fun p => .string ⟨p.1⟩) ++
    (markFrom h.strings h.functions held).2.doomed.map (fun p => .function ⟨p.1⟩)

/-- A collection answers with the number of the objects that it removes. -/
theorem length_removed (h : Heap) (held : List Value) :
    (h.removed held).length = (h.collect held).1 := by
  rw [removed, List.length_append, List.length_map, List.length_map]
  rfl

/-- The handles of the slots that a sweep empties are different, whatever they are handles of. -/
theorem nodup_map_doomed {α β : Type} (a : Arena α) {g : Nat → β}
    (hinj : g.Injective) : (a.doomed.map fun p => g p.1).Nodup := by
  have hnodup := List.Nodup.map hinj (Arena.nodup_doomed a)
  rwa [List.map_map] at hnodup

/-- No object is removed twice. -/
theorem nodup_removed (h : Heap) (held : List Value) : (h.removed held).Nodup := by
  refine List.nodup_append.mpr ⟨?_, ?_, ?_⟩
  · exact nodup_map_doomed _ (g := fun i => Value.string ⟨i⟩) fun i j hij => by
      cases hij
      rfl
  · exact nodup_map_doomed _ (g := fun i => Value.function ⟨i⟩) fun i j hij => by
      cases hij
      rfl
  · intro v hv w hw
    obtain ⟨p, -, rfl⟩ := List.mem_map.mp hv
    obtain ⟨q, -, rfl⟩ := List.mem_map.mp hw
    rintro ⟨⟩

/-- A string is removed by a collection if it was live before and is not after it. -/
theorem mem_removed_string_iff {s : StringHandle} : .string s ∈ h.removed held ↔
    h.Live (.string s) ∧ ¬ (h.collect held).2.Live (.string s) := by
  obtain ⟨i⟩ := s
  have hget := (markFrom_frame h.strings h.functions held).1 i
  have hmem : .string ⟨i⟩ ∈ h.removed held ↔
      ∃ text, (i, text) ∈ (markFrom h.strings h.functions held).1.doomed := by
    simp [removed]
  rw [hmem, live_string_iff, live_string_iff, strings_collect]
  simp only [Arena.mem_doomed_iff, Arena.get?_sweep, hget]
  cases (markFrom h.strings h.functions held).1.isMarked i <;> simp

/-- A function is removed by a collection if it was live before and is not after it. -/
theorem mem_removed_function_iff {f : FunctionHandle} : .function f ∈ h.removed held ↔
    h.Live (.function f) ∧ ¬ (h.collect held).2.Live (.function f) := by
  obtain ⟨i⟩ := f
  have hget := (markFrom_frame h.strings h.functions held).2.1 i
  have hmem : .function ⟨i⟩ ∈ h.removed held ↔
      ∃ o, (i, o) ∈ (markFrom h.strings h.functions held).2.doomed := by
    simp [removed]
  rw [hmem, live_function_iff, live_function_iff, functions_collect]
  simp only [Arena.mem_doomed_iff, Arena.get?_sweep, hget]
  cases (markFrom h.strings h.functions held).2.isMarked i <;> simp

/-- The objects removed are those that were live and are not any more. -/
theorem mem_removed_iff {v : Value} :
    v ∈ h.removed held ↔ h.Live v ∧ ¬ (h.collect held).2.Live v := by
  cases v with
  | string s => exact mem_removed_string_iff
  | function f => exact mem_removed_function_iff
  | nil | bool | number => simp [removed, Live]

/-- An object survives a collection exactly when it was live and reachable. -/
theorem live_collect_iff (hw : h.Wf) {v : Value} (hobject : v.isObject = true) :
    (h.collect held).2.Live v ↔ h.Live v ∧ h.Reach held v := by
  constructor
  · intro hlive
    have hreach := reach_of_live_collect hw hobject hlive
    exact ⟨(agree_collect hw hreach).live_iff.mp hlive, hreach⟩
  · rintro ⟨hlive, hreach⟩
    exact (agree_collect hw hreach).live_iff.mpr hlive

/-- Nothing else is reachable from the handle of an empty slot. -/
theorem eq_of_reach_dead {f : FunctionHandle} (hdead : h.functions.get? f.index = none)
    {v : Value} (hv : h.Reach [.function f] v) : v = .function f := by
  induction hv with
  | root hmem => exact List.mem_singleton.mp hmem
  | child _ hget _ ih =>
      cases ih
      rw [hdead] at hget
      cases hget

/-- After a collection the live objects are those that were live and reachable from the roots,
unchanged and under their handles. The collection answers with the number of the others. -/
theorem collect_exact (hr : h.Reachable) (held : List Value) :
    (∀ v, v.isObject = true → ((h.collect held).2.Live v ↔ h.Live v ∧ h.Reach held v)) ∧
    (∀ v, (h.collect held).2.Live v → h.Agree (h.collect held).2 v) ∧
    ∃ gone : List Value, gone.Nodup ∧ gone.length = (h.collect held).1 ∧
      ∀ v, v ∈ gone ↔ h.Live v ∧ ¬ (h.collect held).2.Live v :=
  ⟨fun _ hobject => live_collect_iff hr.wf hobject, fun _ => agree_of_live_collect hr.wf,
    h.removed held, nodup_removed h held, length_removed h held, fun _ => mem_removed_iff⟩

/-- Two functions that refer to each other are both removed, when the only root is the handle of
a slot that was never filled. -/
theorem collect_exact_cycle : ∃ h : Heap, h.Reachable ∧
    h.Reach [.function ⟨0⟩] (.function ⟨1⟩) ∧ h.Reach [.function ⟨1⟩] (.function ⟨0⟩) ∧
    (h.collect [.function ⟨2⟩]).1 = 2 ∧ ¬ (h.collect [.function ⟨2⟩]).2.Live (.function ⟨0⟩) := by
  have hempty := Reachable.allocFunction [] (.allocFunction [] (.ofConfig ⟨false, 8, 2⟩))
  have hr := Reachable.modifyFunction (f := ⟨1⟩)
    (fun o => { o with chunk := (o.chunk.addConstant (.function ⟨0⟩)).2 })
    (.modifyFunction (f := ⟨0⟩)
      (fun o => { o with chunk := (o.chunk.addConstant (.function ⟨1⟩)).2 }) hempty rfl) rfl
  obtain ⟨hlive, -, -⟩ := collect_exact hr [.function ⟨2⟩]
  refine ⟨_, hr, .child (.root (List.mem_singleton.mpr rfl)) rfl (List.mem_singleton.mpr rfl),
    .child (.root (List.mem_singleton.mpr rfl)) rfl (List.mem_singleton.mpr rfl), by cbv, ?_⟩
  rw [hlive _ rfl]
  rintro ⟨-, hreach⟩
  cases eq_of_reach_dead rfl hreach

end Heap

end LoxBytecode
