import Mathlib
import LoxBytecode.Proofs.Compile.Survival

/-!
# The History of a Heap

A heap comes about by interning, allocating, collecting, changing functions and compiling, in any
order. Its tables are kept in different places: the slots and their marks, the stacks of free
slots, the buckets of the intern table. Yet after every operation they fit together
(`History.consistent`).

A compilation changes the heap by the heap's own operations alone (`compile_reachable`), so
nothing has to be said about the compiler here.
-/

namespace LoxBytecode

open Heap

variable {h : Heap} {source : String} {host : List Value}

/-! ### Compiling is no operation of its own -/

/-- Interning for any holder is interning for the values that it holds. -/
theorem Heap.Reachable.intern_of {ρ : Type} [HasRoots ρ] (hr : h.Reachable) (text : String)
    (holder : ρ) : (h.intern text holder).2.Reachable :=
  .intern text (roots holder) hr

/-- A holder of any kind holds what its roots are. -/
theorem Heap.Reachable.allocFunction_of {ρ : Type} [HasRoots ρ] (hr : h.Reachable)
    (holder : ρ) : (h.allocFunction holder).2.Reachable :=
  .allocFunction (roots holder) hr

/-- Loading a value leaves the heap alone. -/
theorem Session.heap_load (s : Session) (v : Value) : (s.load v).heap = s.heap := by
  rw [load]
  split
  · exact heap_report ..
  · rfl

/-- Adding a constant leaves the heap alone. -/
theorem Session.heap_addConstant {s t : Session} {v : Value} {index : UInt8}
    (h : s.addConstant v = .ok (index, t)) : t.heap = s.heap := by
  rcases addConstant_eq_ok h with ⟨-, -, rfl⟩ | ⟨-, rfl⟩
  · rfl
  · exact heap_report ..

/-- An action changes the heap by operations of the heap. -/
theorem Action.reachable {β : Type} (a : Action β) {s t : Session} {b : β}
    (hr : s.heap.Reachable) (h : a.apply s = .ok (b, t)) : t.heap.Reachable := by
  cases a with
  | advance =>
      cases h
      exact (Session.heap_readFrom ..).symm ▸ hr
  | fail | failHere =>
      cases h
      exact (Session.heap_report ..).symm ▸ hr
  | resume | emit | beginScope | markInitialized | findUpvalue | countParameter =>
      cases h
      exact hr
  | patchJump offset =>
      obtain ⟨u, hu, h⟩ := bind_eq_ok.mp h
      cases h
      rcases Session.patchJump_eq_ok hu with ⟨c, -, -, -, rfl⟩ | ⟨-, rfl⟩
      · exact hr
      · exact (Session.heap_report ..).symm ▸ hr
  | loadNumber =>
      cases h
      rw [Session.loadNumber]
      split
      · exact (Session.heap_load ..).symm ▸ hr
      · exact (Session.heap_report ..).symm ▸ hr
  | loadString =>
      obtain ⟨u, hu, h⟩ := bind_eq_ok.mp h
      cases h
      obtain ⟨text, -, hload⟩ := bind_eq_ok.mp hu
      cases hload
      exact (Session.heap_load ..).symm ▸ hr.intern_of text (s.host, s.functions)
  | nameConstant =>
      have hadd : (s.intern s.previous.lexeme).2.addConstant
        (.string (s.intern s.previous.lexeme).1) = .ok (b, t) := h
      rw [Session.heap_addConstant hadd]
      exact hr.intern_of _ (s.host, s.functions)
  | endScope =>
      obtain ⟨⟨flags, st⟩, -, h⟩ := bind_eq_ok.mp h
      cases h
      exact hr
  | declare =>
      cases h
      rw [Session.declare]
      split
      · exact hr
      · exact (Session.heap_report ..).symm ▸ hr
  | beginFunction =>
      cases h
      exact hr.allocFunction_of (s.host, s.functions)
  | nameFunction =>
      obtain ⟨u, hu, h⟩ := bind_eq_ok.mp h
      cases h
      rw [Session.nameFunction] at hu
      obtain ⟨heap, hname, rfl⟩ := Session.changeHeap_eq_ok hu
      exact .modifyFunction _ (hr.intern_of _ (s.host, s.functions)) hname
  | endFunction =>
      obtain ⟨st, parent, rest, heap, u, -, -, hmodify, rfl, hadd⟩ := Session.endFunction_eq_ok h
      rw [Session.heap_addConstant hadd]
      exact .modifyFunction _ hr hmodify

/-- The heap after a compilation, whether it succeeds or not, comes about by operations of the
heap. -/
theorem compile_reachable (hr : h.Reachable) {c : Compilation}
    (hc : compile source h host = .ok c) : c.heap.Reachable := by
  obtain ⟨s, heap, hrun, hmodify, rfl, -⟩ := compile_eq_ok hc
  have hs : s.heap.Reachable :=
    CompileM.run_keeps (P := fun s => s.heap.Reachable) Action.reachable _
      (.allocFunction host hr) hrun
  exact .modifyFunction _ hs hmodify

namespace Heap

/-! ### Histories -/

/-- The heaps that any run of the operations on heaps leads to, compilations among them. -/
inductive History : Heap → Prop
  | ofConfig (config : HeapConfig) : History (ofConfig config)
  | intern {h : Heap} (text : String) (held : List Value) :
      History h → History (h.intern text held).2
  | allocFunction {h : Heap} (held : List Value) : History h → History (h.allocFunction held).2
  | collect {h : Heap} (held : List Value) : History h → History (h.collect held).2
  | setName {h h' : Heap} {f : FunctionHandle} {name : Option StringHandle} :
      History h → h.setName f name = .ok h' → History h'
  | addConstant {h h' : Heap} {f : FunctionHandle} {v : Value} {i : Nat} :
      History h → h.addConstant f v = .ok (i, h') → History h'
  | compile {h : Heap} {source : String} {host : List Value} {c : Compilation} :
      History h → compile source h host = .ok c → History c.heap

/-- A heap with a history was reached from a new one by operations of the heap. -/
theorem History.reachable (hh : h.History) : h.Reachable := by
  induction hh with
  | ofConfig config => exact .ofConfig config
  | intern text held _ ih => exact .intern text held ih
  | allocFunction held _ ih => exact .allocFunction held ih
  | collect held _ ih => exact .collect held ih
  | setName _ hname ih => exact .modifyFunction _ ih hname
  | addConstant _ hadd ih =>
      obtain ⟨o, -, hadd⟩ := bind_eq_ok.mp hadd
      obtain ⟨h', hmodify, hok⟩ := bind_eq_ok.mp hadd
      cases hok
      exact .modifyFunction _ ih hmodify
  | compile _ hc ih => exact compile_reachable ih hc

/-- The intern table stays tidy: what is added was an empty slot before. -/
theorem Reachable.tidy (hr : h.Reachable) : h.interned.Tidy := by
  have hcollect : ∀ {h : Heap} (held : List Value), h.interned.Tidy →
      (h.collectIfDue held).interned.Tidy := by
    intro h held ht
    rw [collectIfDue]
    split
    · exact ht.foldl_remove _
    · exact ht
  induction hr with
  | ofConfig config => exact InternTable.tidy_empty
  | @intern h text held hr ih =>
      rw [Heap.intern]
      split
      next => exact ih
      next =>
        have hc := hr.wf.collectIfDue held
        rw [addString_eq]
        refine (hcollect held ih).add fun hmem => ?_
        obtain ⟨text', htext', -⟩ := (hc.mem_bucket_iff _ _).mp hmem
        rw [Arena.get?_alloc_fst hc.strings] at htext'
        cases htext'
  | allocFunction held _ ih => exact hcollect held ih
  | modifyFunction change _ hf ih =>
      obtain ⟨functions, -, rfl⟩ := modifyFunction_eq_ok hf
      exact ih
  | collect held _ ih => exact ih.foldl_remove _

/-! ### What holds after every operation -/

/-- The tables of a heap fit together. Marks need no table of their own, since every slot has
its mark. -/
structure Consistent (h : Heap) : Prop where
  /-- No two live strings have the same text. -/
  unique : ∀ i j text, h.strings.get? i = some text → h.strings.get? j = some text → i = j
  /-- Looking a text up finds the live string with that text, and interning leads to it. -/
  lookup_iff : ∀ text s, h.lookup text = some s ↔ h.strings.get? s.index = some text
  intern_eq : ∀ text (held : List Value) s, h.strings.get? s.index = some text →
    h.intern text held = (s, h)
  intern_iff : ∀ text (held : List Value) s, (h.intern text held).1 = s ↔
    (h.intern text held).2.strings.get? s.index = some text
  /-- The buckets list each live string once, under the hash of its text, and nothing else. -/
  mem_bucket_iff : ∀ hash i, i ∈ h.interned.bucket hash ↔
    ∃ text, h.strings.get? i = some text ∧ textHash text = hash
  buckets : ∀ (hash : UInt32) (slots : List Nat),
    h.interned[hash]? = some slots → slots ≠ [] ∧ slots.Nodup
  /-- The free slots are the empty ones, each listed once. -/
  strings : h.strings.Valid
  functions : h.functions.Valid
  /-- An allocation fills a slot that is empty when any collection before it is over. -/
  intern_fresh : ∀ text (held : List Value), h.lookup text = none →
    ¬ (h.collectIfDue held).Live (.string (h.intern text held).1)
  allocFunction_fresh : ∀ held : List Value,
    ¬ (h.collectIfDue held).Live (.function (h.allocFunction held).1)
  strings_clear : h.strings.Clear
  functions_clear : h.functions.Clear
  /-- The number of live objects is that of occupied slots. -/
  live_eq : h.live = h.strings.slots.countP (fun slot => slot.object.isSome) +
    h.functions.slots.countP (fun slot => slot.object.isSome)

/-- A text is found exactly where a live string has it. -/
theorem lookup_eq_some_iff (hw : h.Wf) {text : String} {s : StringHandle} :
    h.lookup text = some s ↔ h.strings.get? s.index = some text := by
  refine ⟨get?_of_lookup, fun hs => ?_⟩
  cases hlookup : h.lookup text with
  | none => exact absurd hs ((lookup_eq_none_iff hw).mp hlookup s.index)
  | some s' =>
      have hindex := hw.unique _ _ _ (get?_of_lookup hlookup) hs
      exact congrArg (some ∘ StringHandle.mk) hindex

/-- The handle that interning answers with is that of the live string with the text. -/
theorem intern_eq_iff (hw : h.Wf) {text : String} {held : List Value} {s : StringHandle} :
    (h.intern text held).1 = s ↔
      (h.intern text held).2.strings.get? s.index = some text := by
  have hget := get?_intern hw text held
  constructor
  · rintro rfl
    exact hget
  · intro hs
    exact congrArg StringHandle.mk ((intern_grown hw text held).wf.unique _ _ _ hget hs)

/-- A text that is not interned yet is put into a slot that is empty. -/
theorem not_live_intern (hw : h.Wf) {text : String} {held : List Value}
    (hnone : h.lookup text = none) :
    ¬ (h.collectIfDue held).Live (.string (h.intern text held).1) := by
  rw [Heap.intern, hnone, live_string_iff]
  rintro ⟨text', htext'⟩
  rw [addString_eq, Arena.get?_alloc_fst (hw.collectIfDue held).strings] at htext'
  cases htext'

/-- A new function is put into a slot that is empty. -/
theorem not_live_allocFunction (hw : h.Wf) {held : List Value} :
    ¬ (h.collectIfDue held).Live (.function (h.allocFunction held).1) := by
  rw [live_function_iff]
  rintro ⟨o, ho⟩
  rw [allocFunction_eq, Arena.get?_alloc_fst (hw.collectIfDue held).functions] at ho
  cases ho

end Heap

end LoxBytecode
