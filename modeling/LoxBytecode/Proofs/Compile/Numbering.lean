import Mathlib
import LoxBytecode.Proofs.Compile.History
import LoxBytecode.Proofs.Compile.Independence
import LoxBytecode.Proofs.Heap.Numbering

/-!
# Compilations in Preorder

A compilation that makes no garbage never gets a slot back. So each function that begins gets the
slot behind all others, and when it ends it becomes the last constant of the function around it
that is a function: the functions are numbered in preorder at all times (`Session.InPreorder`),
and in the end the slots are those of the script and all that is nested in it
(`exists_numbered`). The objects of the functions being compiled stay empty until they end, so the
invariant is about their constants where these are.
-/

namespace LoxBytecode

open Heap

/-- A function being compiled, and the functions among its constants. -/
def branch (core : FunctionHandle × Array Value) : FunctionHandle × List FunctionHandle :=
  (core.1, Value.functions core.2.toList)

/-- The functions being compiled, innermost first, and those among their constants. -/
def FunctionStack.branches (s : FunctionStack) : List (FunctionHandle × List FunctionHandle) :=
  s.cores.map branch

namespace Session

variable {s t : Session}

/-- No slot of a function was freed, and the functions have their slots in preorder. -/
structure InPreorder (s : Session) : Prop where
  full : s.heap.functions.free = #[]
  chained : Chained s.heap.functions s.functions.branches s.heap.functions.slots.size

/-! ### Operations -/

/-- A constant that is no function changes nothing about the functions. -/
theorem Adds.branches (h : s.Adds (fun v => v.function? = none) t) :
    t.functions.branches = s.functions.branches := by
  cases h with
  | nothing hcores => rw [FunctionStack.branches, FunctionStack.branches, hcores]
  | constant hv hcores =>
      rw [FunctionStack.branches, hcores, List.map_cons, branch, Value.functions,
        Array.toList_push, List.filterMap_append, List.filterMap_cons_none hv, List.filterMap_nil,
        List.append_nil]
      rfl

/-- New constants that are no functions do not disturb the order. -/
theorem InPreorder.of_adds (hs : s.InPreorder) (hheap : t.heap.functions = s.heap.functions)
    (h : s.Adds (fun v => v.function? = none) t) : t.InPreorder := by
  refine ⟨hheap ▸ hs.full, ?_⟩
  rw [hheap, h.branches]
  exact hs.chained

/-- Interning a text may collect, and the functions that stay keep their slots. -/
theorem InPreorder.intern (hs : s.InPreorder) (hsound : s.Sound []) (ht : s.Tight [])
    (text : String) : (s.intern text).2.InPreorder :=
  hs.of_adds (functions_intern_of_tight hsound.wf ht.heap text) (.nothing rfl)

/-- Loading a value that is no function keeps the order. -/
theorem InPreorder.load (hs : s.InPreorder) {v : Value} (hv : v.function? = none) :
    (s.load v).InPreorder :=
  hs.of_adds (congrArg Heap.functions (heap_load s v)) ((adds_load v).mono fun _ h => h ▸ hv)

/-- Adding a constant that is no function keeps the order. -/
theorem InPreorder.addConstant (hs : s.InPreorder) {v : Value} (hv : v.function? = none)
    {index : UInt8} (h : s.addConstant v = .ok (index, t)) : t.InPreorder :=
  hs.of_adds (congrArg Heap.functions (heap_addConstant h))
    ((adds_addConstant h).mono fun _ h => h ▸ hv)

/-- A function begins in a slot behind all others. -/
theorem InPreorder.beginFunction (hs : s.InPreorder) (hsound : s.Sound []) (ht : s.Tight []) :
    s.beginFunction.InPreorder := by
  obtain ⟨hhandle, hfunctions⟩ := allocFunction_of_tight hsound.wf ht.heap
  obtain ⟨hfull, hchained⟩ := hs
  have hget := Arena.get?_alloc hsound.wf.functions FunctionObject.empty
  have hbegun : s.beginFunction.functions.branches =
      ((s.heap.allocFunction (s.host, s.functions)).1, []) :: s.functions.branches := rfl
  have hheap : s.beginFunction.heap.functions =
      (s.heap.allocFunction (s.host, s.functions)).2.functions := rfl
  rw [hfunctions] at hheap
  rw [hhandle] at hbegun
  -- with no slot to reuse the arena grows
  have halloc : s.heap.functions.alloc .empty =
      (s.heap.functions.slots.size, ⟨s.heap.functions.slots.push ⟨some .empty, false⟩, #[]⟩) := by
    generalize s.heap.functions = a at hfull
    obtain ⟨slots, free⟩ := a
    obtain rfl : free = #[] := hfull
    exact Arena.alloc_of_full rfl _
  rw [halloc] at hheap hbegun hget
  refine ⟨hheap ▸ rfl, ?_⟩
  rw [hheap, hbegun, Array.size_push]
  refine Chained.push (hchained.mono fun i hi _ => ?_)
  rw [hget, if_neg (Nat.ne_of_lt hi)]

/-- Naming the current function keeps the order: a name is a string. -/
theorem InPreorder.nameFunction (hs : s.InPreorder) (hsound : s.Sound []) (ht : s.Tight [])
    (h : s.nameFunction = .ok t) : t.InPreorder := by
  rw [Session.nameFunction] at h
  obtain ⟨k, hmodify, rfl⟩ := changeHeap_eq_ok h
  rw [setName] at hmodify
  obtain ⟨hfull, hchained⟩ := hs.intern hsound ht s.previous.lexeme
  have hget := get?_modifyFunction hmodify
  obtain ⟨functions, hfunctions, rfl⟩ := modifyFunction_eq_ok hmodify
  obtain ⟨hsize, hfree⟩ := Arena.modify?_frame hfunctions
  refine ⟨hfree.trans hfull, ?_⟩
  rw [hsize]
  refine hchained.mono fun i _ _ => ?_
  rw [hget]
  split
  next hi =>
    rw [hi, Option.map_map]
    rfl
  next => rfl

/-- A function that ends is the last one among the constants of the function around it. -/
theorem InPreorder.endFunction (hs : s.InPreorder) (hsound : s.Sound [])
    {ended : UInt8 × List Capture} (h : s.endFunction = .ok (ended, t)) : t.InPreorder := by
  obtain ⟨constant, captures⟩ := ended
  obtain ⟨st, parent, rest, k, u, hfunctions, -, hmodify, rfl, hadd⟩ := endFunction_eq_ok h
  have hhandle : st.function ∈ s.functions.handles := by
    rw [hfunctions]
    exact List.mem_cons_self ..
  obtain ⟨o, ho⟩ := live_function_iff.mp (hsound.live_handle hhandle)
  obtain ⟨hfull, hchained⟩ := hs
  rw [FunctionStack.branches, FunctionStack.cores, FunctionStack.states, hfunctions] at hchained
  have hget := get?_modifyFunction hmodify
  obtain ⟨functions, hchanged, rfl⟩ := modifyFunction_eq_ok hmodify
  obtain ⟨hsize, hfree⟩ := Arena.modify?_frame hchanged
  have hpopped := Chained.pop hchained ((hget _).trans ((if_pos rfl).trans (congrArg _ ho))) rfl
    fun i hi => (hget i).trans (if_neg hi)
  obtain ⟨hstack, hheap⟩ := functions_heap_addConstant hadd
  have hpushed : t.functions.branches =
      (parent.function, Value.functions parent.chunk.constants.toList ++ [st.function]) ::
        (rest.map FunctionState.core).map branch := by
    have hlast : Value.functions [.function st.function] = [st.function] := rfl
    rw [hstack, ← hlast, Value.functions, Value.functions, ← List.filterMap_append,
      ← Array.toList_push]
    rfl
  refine ⟨hheap ▸ hfree.trans hfull, ?_⟩
  rw [hheap, hpushed, hsize]
  exact hpopped

end Session

/-! ### Runs -/

variable {s t : Session}

/-- Every action on a session without garbage keeps the functions in preorder. -/
theorem Action.inPreorder {β : Type} (a : Action β) {b : β} (hsound : s.Sound [])
    (ht : s.Tight []) (hs : s.InPreorder) (h : a.apply s = .ok (b, t)) : t.InPreorder := by
  by_cases ha : a.Allocates
  · cases a with
    | loadString =>
        obtain ⟨u, hu, h⟩ := bind_eq_ok.mp h
        cases h
        obtain ⟨text, -, hload⟩ := bind_eq_ok.mp hu
        cases hload
        exact (hs.intern hsound ht text).load rfl
    | nameConstant => exact (hs.intern hsound ht s.previous.lexeme).addConstant rfl h
    | beginFunction =>
        cases h
        exact hs.beginFunction hsound ht
    | nameFunction =>
        obtain ⟨u, hu, h⟩ := bind_eq_ok.mp h
        cases h
        exact hs.nameFunction hsound ht hu
    | endFunction => exact hs.endFunction hsound h
    | _ => exact ha.elim
  · refine hs.of_adds (congrArg _ (heap_of_not_allocates ha h)) ((adds ha h).mono fun v hv => ?_)
    cases v with
    | function f => cases hv
    | nil | bool | number | string => rfl

/-- Every run on which no session has garbage keeps the functions in preorder. -/
theorem CompileM.inPreorder {α : Type} {m : CompileM α} {a : α} (hsound : s.Sound [])
    (ht : ∀ u, m.Visits s u → u.Tight []) (hs : s.InPreorder) (h : m.run s = .ok (a, t)) :
    t.InPreorder := by
  induction m generalizing s t with
  | done result =>
      cases result with
      | error fault => cases h
      | ok b =>
          cases h
          exact hs
  | ask q =>
      cases h
      exact hs
  | act action => exact action.inPreorder hsound (ht s (Or.inl rfl)) hs h
  | chain first next ihFirst ihNext =>
      rw [run] at h
      split at h
      next b u hfirst =>
        have hu := ihFirst hsound (fun v hv => ht v (Or.inl hv)) hs hfirst
        exact ihNext b (first.preserves hsound hfirst).sound
          (fun v hv => ht v (Or.inr ⟨b, u, hfirst, hv⟩)) hu h
      next => cases h
  | part phrase body ih => exact ih hsound ht hs h

/-- A script alone is in preorder. -/
theorem Session.inPreorder_start (tokens : TokenStream) (config : HeapConfig) :
    (Session.start tokens (ofConfig config) []).InPreorder := by
  obtain ⟨hhandle, hfunctions⟩ := allocFunction_of_tight (wf_ofConfig config)
    (tight_ofConfig config (roots ([] : List Value)))
  have hheap : (Session.start tokens (ofConfig config) []).heap.functions =
      ((ofConfig config).functions.alloc .empty).2 := hfunctions
  have hbranches : (Session.start tokens (ofConfig config) []).functions.branches = [(⟨0⟩, [])] :=
    congrArg (fun f => [(f, [])]) hhandle
  refine ⟨hheap ▸ rfl, ?_⟩
  rw [hheap, hbranches]
  exact Chained.nil.push

/-- When a source is compiled from an empty heap, the script and the functions nested in it, each
before those in it, are in the slots one after the other, and no slot is free. -/
theorem exists_numbered {source : String} {config : HeapConfig} {c : Compilation}
    {script : FunctionHandle} (hc : compile source (ofConfig config) [] = .ok c)
    (hok : c.outcome = .ok script) : c.heap.functions.free = #[] ∧
      Numbered c.heap.functions 0 [script] c.heap.functions.slots.size := by
  obtain ⟨s, hrun, horderly, henclosing, hquiet, rfl, hmodify⟩ :=
    exists_finish_script (wf_ofConfig config) hc hok
  obtain ⟨hfull, hchained⟩ := CompileM.inPreorder
    (Session.start_sound (wf_ofConfig config) (fun _ hv => absurd hv not_reach_nil)
      (List.Subset.refl _)) (tight_of_visits hrun hquiet).2 (Session.inPreorder_start _ config) hrun
  rw [FunctionStack.branches, FunctionStack.cores, FunctionStack.states, henclosing] at hchained
  have hget := get?_modifyFunction hmodify
  obtain ⟨o, ho⟩ := live_function_iff.mp (horderly.sound.live_handle (List.mem_cons_self ..))
  have hnumbered := hchained.finish ((hget _).trans ((if_pos rfl).trans (congrArg _ ho))) rfl
    fun i hi => (hget i).trans (if_neg hi)
  obtain ⟨functions, hchanged, hheap⟩ := modifyFunction_eq_ok hmodify
  obtain ⟨hsize, hfree⟩ := Arena.modify?_frame hchanged
  have hfunctions : c.heap.functions = functions := congrArg Heap.functions hheap
  rw [← hsize, ← hfunctions] at hnumbered
  exact ⟨hfunctions ▸ hfree.trans hfull, hnumbered⟩

/-- Nothing in the heap is garbage then. -/
theorem tight_of_compile {source : String} {config : HeapConfig} {c : Compilation}
    {script : FunctionHandle} (hc : compile source (ofConfig config) [] = .ok c)
    (hok : c.outcome = .ok script) : c.heap.Tight [.function script] := by
  obtain ⟨s, hrun, horderly, henclosing, hquiet, rfl, hmodify⟩ :=
    exists_finish_script (wf_ofConfig config) hc hok
  exact tight_script horderly.sound (tight_of_visits hrun hquiet).1 henclosing hmodify

end LoxBytecode
