import LoxBytecode.Proofs.Heap.Collection

/-!
# Heaps without Garbage

A heap is `Tight` under some values when they reach every object in it. A collection from these
values frees nothing (`collect_of_tight`): the objects, the free slots and the intern table stay
as they were. Heaps that differ in nothing but when they collect are `Alike`, and an allocation in
alike heaps without garbage fills the same slot of both.
-/

namespace LoxBytecode

/-! ### Sweeps that free nothing -/

namespace Arena

variable {α : Type}

/-- A sweep of an arena in which every object is marked frees nothing. -/
theorem doomed_eq_nil {a : Arena α} (h : ∀ i x, a.get? i = some x → a.isMarked i = true) :
    a.doomed = [] := by
  refine List.eq_nil_iff_forall_not_mem.mpr fun ⟨i, x⟩ hmem => ?_
  obtain ⟨hget, hclear⟩ := mem_doomed_iff.mp hmem
  rw [h i x hget] at hclear
  cases hclear

/-- Where nothing is swept, no slot becomes free. -/
theorem free_sweep {a : Arena α} (h : a.doomed = []) : a.sweep.1.free = a.free := by
  simp [sweep, h]

/-- Arenas with the same objects, no marks and the same free slots are equal. -/
theorem eq_of_get? {a b : Arena α} (hsize : a.slots.size = b.slots.size) (hfree : a.free = b.free)
    (ha : a.Clear) (hb : b.Clear) (hget : ∀ i, a.get? i = b.get? i) : a = b := by
  obtain ⟨slots, free⟩ := a
  obtain ⟨slots', free'⟩ := b
  obtain rfl : free = free' := hfree
  congr 1
  refine Array.ext hsize fun i hi hi' => ?_
  have hobject : slots[i].object = slots'[i].object := by
    have := hget i
    simpa [get?, hi, hi'] using this
  have hmark : slots[i].marked = slots'[i].marked := by
    have hclear : slots[i].marked = false := by simpa [isMarked, hi] using ha i
    have hclear' : slots'[i].marked = false := by simpa [isMarked, hi'] using hb i
    rw [hclear, hclear']
  cases h : slots[i]
  cases h' : slots'[i]
  rw [h, h'] at hobject hmark
  congr

end Arena

namespace Heap

variable {h h' : Heap} {held held' : List Value}

/-- Marking frees no slot. -/
theorem free_markFrom (strings : Arena String) (functions : Arena FunctionObject)
    (gray : List Value) :
    (markFrom strings functions gray).1.free = strings.free ∧
      (markFrom strings functions gray).2.free = functions.free := by
  fun_induction markFrom strings functions gray with
  | case1 => exact ⟨rfl, rfl⟩
  | case2 strings functions s gray ih => exact ih
  | case3 strings functions f gray hclear reached ih => exact ih
  | case4 strings functions f gray hmarked ih => exact ih
  | case5 strings functions gray ih => exact ih
  | case6 strings functions gray b ih => exact ih
  | case7 strings functions gray x ih => exact ih

/-! ### Tight heaps -/

/-- Every object of the heap is reachable from some values. -/
def Tight (h : Heap) (held : List Value) : Prop :=
  ∀ v, v.isObject = true → h.Live v → h.Reach held v

/-- The heaps differ in nothing but when they collect. -/
structure Alike (h h' : Heap) : Prop where
  strings : h'.strings = h.strings
  functions : h'.functions = h.functions
  interned : h'.interned = h.interned

/-- A heap is alike to itself. -/
theorem Alike.refl (h : Heap) : h.Alike h := ⟨rfl, rfl, rfl⟩

/-- Two heaps are alike in whichever order. -/
theorem Alike.symm (ha : h.Alike h') : h'.Alike h :=
  ⟨ha.strings.symm, ha.functions.symm, ha.interned.symm⟩

/-- Heaps that are alike to a third one are alike. -/
theorem Alike.trans {h'' : Heap} (ha : h.Alike h') (ha' : h'.Alike h'') : h.Alike h'' :=
  ⟨ha'.strings.trans ha.strings, ha'.functions.trans ha.functions,
    ha'.interned.trans ha.interned⟩

/-- Heaps that are alike agree about every value. -/
theorem Alike.agree (ha : h.Alike h') (v : Value) : h.Agree h' v := by
  cases v with
  | string s => exact congrArg (·.get? s.index) ha.strings
  | function f => exact congrArg (·.get? f.index) ha.functions
  | nil | bool | number => trivial

/-- Heaps that are alike have equally many live objects. -/
theorem Alike.live_eq (ha : h.Alike h') : h'.live = h.live := by
  rw [Heap.live, Heap.live, ha.strings, ha.functions]

/-- A collection from values that reach everything frees nothing. -/
theorem collect_of_tight (hw : h.Wf) (ht : h.Tight held) :
    (h.collect held).1 = 0 ∧ h.Alike (h.collect held).2 := by
  obtain ⟨hstrings, hfunctions, hsizeS, hsizeF⟩ := markFrom_frame h.strings h.functions held
  obtain ⟨hfreeS, hfreeF⟩ := free_markFrom h.strings h.functions held
  have hdoomedS : (markFrom h.strings h.functions held).1.doomed = [] := by
    refine Arena.doomed_eq_nil fun i text hget => ?_
    rw [hstrings] at hget
    exact covered_of_reach (v := .string ⟨i⟩) hw.functions_clear
      (ht _ rfl (live_string_iff.mpr ⟨text, hget⟩)) (hsizeS ▸ Arena.lt_size_of_get? hget)
  have hdoomedF : (markFrom h.strings h.functions held).2.doomed = [] := by
    refine Arena.doomed_eq_nil fun i o hget => ?_
    rw [hfunctions] at hget
    exact covered_of_reach (v := .function ⟨i⟩) hw.functions_clear
      (ht _ rfl (live_function_iff.mpr ⟨o, hget⟩)) (hsizeF ▸ Arena.lt_size_of_get? hget)
  have hagree : ∀ v, v.isObject = true → h.Live v → h.Agree (h.collect held).2 v :=
    fun v hobject hlive => agree_collect hw (ht v hobject hlive)
  refine ⟨?_, ?_, ?_, ?_⟩
  · show (markFrom h.strings h.functions held).1.doomed.length +
      (markFrom h.strings h.functions held).2.doomed.length = 0
    rw [hdoomedS, hdoomedF]
    rfl
  · refine Arena.eq_of_get? ?_ ?_ (Arena.clear_sweep _) hw.strings_clear fun i => ?_
    · rw [strings_collect, Arena.size_sweep, hsizeS]
    · rw [strings_collect, Arena.free_sweep hdoomedS, hfreeS]
    · cases hget : h.strings.get? i with
      | some text =>
          exact Eq.trans (hagree (.string ⟨i⟩) rfl (live_string_iff.mpr ⟨text, hget⟩)) hget
      | none =>
          rw [strings_collect, Arena.get?_sweep, hstrings, hget, ite_self]
  · refine Arena.eq_of_get? ?_ ?_ (Arena.clear_sweep _) hw.functions_clear fun i => ?_
    · rw [functions_collect, Arena.size_sweep, hsizeF]
    · rw [functions_collect, Arena.free_sweep hdoomedF, hfreeF]
    · cases hget : h.functions.get? i with
      | some o =>
          exact Eq.trans (hagree (.function ⟨i⟩) rfl (live_function_iff.mpr ⟨o, hget⟩)) hget
      | none =>
          rw [functions_collect, Arena.get?_sweep, hfunctions, hget, ite_self]
  · rw [interned_collect, hdoomedS]
    rfl

/-! ### Allocations in alike heaps -/

section

variable {ρ σ : Type} [HasRoots ρ] [HasRoots σ] {holder : ρ} {holder' : σ}

/-- A collection of a tight heap frees nothing, so what is left is alike. -/
theorem alike_collectIfDue (hw : h.Wf) (ht : h.Tight (roots holder)) :
    h.Alike (h.collectIfDue holder) := by
  rw [collectIfDue]
  split
  · exact (collect_of_tight hw ht).2
  · exact .refl h

/-- Interning a text changes no function. -/
theorem functions_intern_of_tight (hw : h.Wf) (ht : h.Tight (roots holder)) (text : String) :
    (h.intern text holder).2.functions = h.functions := by
  rw [intern]
  split
  · rfl
  · exact (alike_collectIfDue hw ht).functions

/-- A function gets the slot that the arena has for it. -/
theorem allocFunction_of_tight (hw : h.Wf) (ht : h.Tight (roots holder)) :
    (h.allocFunction holder).1 = ⟨(h.functions.alloc .empty).1⟩ ∧
      (h.allocFunction holder).2.functions = (h.functions.alloc .empty).2 := by
  rw [allocFunction_eq, (alike_collectIfDue hw ht).functions]
  exact ⟨rfl, rfl⟩

/-- It does not matter whether a collection was due in only one of two tight heaps. -/
theorem Alike.collectIfDue (ha : h.Alike h') (hw : h.Wf) (hw' : h'.Wf)
    (ht : h.Tight (roots holder)) (ht' : h'.Tight (roots holder')) :
    (h.collectIfDue holder).Alike (h'.collectIfDue holder') :=
  ((alike_collectIfDue hw ht).symm.trans ha).trans (alike_collectIfDue hw' ht')

/-- Heaps that are alike find the same strings. -/
theorem Alike.lookup (ha : h.Alike h') (text : String) : h'.lookup text = h.lookup text := by
  rw [Heap.lookup, Heap.lookup, ha.strings, ha.interned]

/-- A string that is added gets the same slot in both. -/
theorem Alike.addString (ha : h.Alike h') (text : String) :
    (h'.addString text).1 = (h.addString text).1 ∧
      (h.addString text).2.Alike (h'.addString text).2 := by
  rw [addString_eq, addString_eq, ha.strings, ha.interned]
  exact ⟨rfl, rfl, ha.functions, rfl⟩

/-- A text is interned in the same slot. -/
theorem Alike.intern (ha : h.Alike h') (hw : h.Wf) (hw' : h'.Wf)
    (ht : h.Tight (roots holder)) (ht' : h'.Tight (roots holder')) (text : String) :
    (h'.intern text holder').1 = (h.intern text holder).1 ∧
      (h.intern text holder).2.Alike (h'.intern text holder').2 := by
  rw [Heap.intern, Heap.intern, ha.lookup]
  cases h.lookup text with
  | some s => exact ⟨rfl, ha⟩
  | none => exact (ha.collectIfDue hw hw' ht ht').addString text

/-- A function gets the same slot. -/
theorem Alike.allocFunction (ha : h.Alike h') (hw : h.Wf) (hw' : h'.Wf)
    (ht : h.Tight (roots holder)) (ht' : h'.Tight (roots holder')) :
    (h'.allocFunction holder').1 = (h.allocFunction holder).1 ∧
      (h.allocFunction holder).2.Alike (h'.allocFunction holder').2 := by
  have hc := ha.collectIfDue hw hw' ht ht'
  rw [allocFunction_eq, allocFunction_eq, hc.functions]
  exact ⟨rfl, hc.strings, rfl, hc.interned⟩

end

/-- A function is changed in the same way. -/
theorem Alike.modifyFunction (ha : h.Alike h') {f : FunctionHandle}
    {change : FunctionObject → FunctionObject} {k : Heap}
    (hf : h.modifyFunction f change = .ok k) :
    ∃ k', h'.modifyFunction f change = .ok k' ∧ k.Alike k' := by
  obtain ⟨functions, hmodify, rfl⟩ := modifyFunction_eq_ok hf
  obtain ⟨strings', functions', interned', config', threshold', collections'⟩ := h'
  obtain ⟨hstrings, hfunctions, hinterned⟩ := ha
  obtain rfl : functions' = h.functions := hfunctions
  refine ⟨⟨strings', functions, interned', config', threshold', collections'⟩, ?_,
    hstrings, rfl, hinterned⟩
  simp only [Heap.modifyFunction, hmodify]

end Heap

end LoxBytecode
