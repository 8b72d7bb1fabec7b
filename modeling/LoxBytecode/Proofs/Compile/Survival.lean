import Mathlib
import LoxBytecode.Proofs.Session.Faults

/-!
# Collections during a Compilation

Every interning and every new function may start a collection in the middle of a compilation.
Whatever these collect, the compilation never reads what they freed, and what the host and the
finished script hold survives.

## Main results

* `start_sound`, `compile_eq_ok`: a compilation begins in a sound session, and its result is the
  heap of a sound session with the script stored.
* `compile_survives`: no handle that is read was freed; no live function stores a dead handle
  afterwards; everything that the host reaches is unchanged; everything that the script reaches
  is live.
-/

namespace LoxBytecode

open Heap

variable {h : Heap} {host kept : List Value} {tokens : TokenStream}

/-! ### The beginning -/

namespace Session

/-- What the host keeps is not touched by the making of the script's object. -/
theorem agree_start (tokens : TokenStream) (hw : h.Wf) (hclosed : h.Closed kept)
    (hkept : kept ⊆ host) {v : Value} (hv : h.Reach kept v) : h.Agree (start tokens h host).heap v :=
  (allocFunction_grown hw host).agree v (hv.mono hkept) (hclosed v hv)

/-- A compilation begins in a sound session. -/
theorem start_sound (hw : h.Wf) (hclosed : h.Closed kept) (hkept : kept ⊆ host) :
    (start tokens h host).Sound kept := by
  have hgrown := allocFunction_grown hw host
  have hheld : ∀ v, h.Reach kept v → h.Reach (roots host) v := fun v hv => hv.mono hkept
  have hagree : ∀ v, h.Reach kept v → h.Agree (h.allocFunction host).2 v :=
    fun v hv => hgrown.agree v (hheld v hv) (hclosed v hv)
  have hsub : ∀ v ∈ kept ++ roots (start tokens h host).functions,
      v ∈ kept ∨ v = .function (h.allocFunction host).1 := by
    intro v hv
    rcases List.mem_append.mp hv with hkept | hroots
    · exact Or.inl hkept
    · exact Or.inr (List.mem_singleton.mp hroots)
  refine ⟨hkept, hgrown.wf, fun v hv => ?_, List.pairwise_singleton _ _, fun g hg hv => ?_⟩
  · rcases reach_allocFunction hw host hclosed hheld hsub hv with hold | rfl
    · exact (hagree v hold).live_iff.mpr (hclosed v hold)
    · exact hgrown.live
  · have hold : h.Reach kept (.function g) := by
      refine (hv.mono fun v hv => ?_).of_agree' hagree
      rcases List.mem_append.mp hv with hkept | hpool
      · exact hkept
      · cases hpool
    exact allocFunction_fresh hw host (hheld _ hold) (hclosed _ hold) (List.mem_singleton.mp hg)

end Session

/-! ### The end -/

/-- The script is one of the functions being compiled, whichever is the current one. -/
theorem FunctionStack.script_mem_states (s : FunctionStack) : s.script ∈ s.states := by
  rw [script, states]
  cases henclosing : s.enclosing.getLast? with
  | none =>
      rw [List.getLast?_eq_none_iff.mp henclosing]
      exact List.mem_singleton.mpr rfl
  | some st =>
      rw [List.getLastD_eq_getLast?, henclosing]
      exact List.mem_cons_of_mem _ (List.mem_of_getLast? henclosing)

/-- A compilation that ends well ran through, stored the script, and answers with it unless
there are diagnostics. -/
theorem compile_eq_ok {source : String} {c : Compilation}
    (hc : compile source h host = .ok c) :
    ∃ s heap, (CompileM.script (Session.budget (TokenStream.ofSource source))).run
        (Session.start (TokenStream.ofSource source) h host) = .ok ((), s) ∧
      s.heap.modifyFunction s.functions.script.function (fun o =>
        { o with
          arity := s.functions.script.arity
          upvalueCount := s.functions.script.upvalues.length
          chunk := s.functions.script.chunk }) = .ok heap ∧
      c.heap = heap ∧
      ∀ f, c.outcome = .ok f ↔ s.diagnostics.isEmpty = true ∧ f = s.functions.script.function := by
  obtain ⟨⟨⟨⟩, s⟩, hrun, hfinish⟩ := bind_eq_ok.mp hc
  obtain ⟨t, hstore, hend⟩ := bind_eq_ok.mp hfinish
  obtain ⟨heap, hmodify, rfl⟩ := Session.changeHeap_eq_ok hstore
  refine ⟨s, heap, hrun, hmodify, ?_⟩
  split at hend
  next hempty =>
    cases hend
    exact ⟨rfl, fun f => ⟨fun hf => ⟨hempty, by cases hf; rfl⟩, fun hf => by rw [hf.2]⟩⟩
  next hsome =>
    cases hend
    exact ⟨rfl, fun f => ⟨by rintro ⟨⟩, fun hf => absurd hf.1 hsome⟩⟩

/-- The session at the end, with the script stored, preserves what the one at the beginning
had. -/
theorem preserves_finish {source : String} {s : Session} {heap : Heap}
    (hs : (Session.start (TokenStream.ofSource source) h host).Sound kept)
    (hrun : (CompileM.script (Session.budget (TokenStream.ofSource source))).run
        (Session.start (TokenStream.ofSource source) h host) = .ok ((), s))
    (hmodify : s.heap.modifyFunction s.functions.script.function (fun o =>
        { o with
          arity := s.functions.script.arity
          upvalueCount := s.functions.script.upvalues.length
          chunk := s.functions.script.chunk }) = .ok heap) :
    Session.Preserves kept (Session.start (TokenStream.ofSource source) h host)
      { s with heap := heap } := by
  have hpreserves := CompileM.preserves _ hs hrun
  exact hpreserves.trans
    (.store hpreserves.sound (FunctionStack.script_mem_states _) hmodify)

/-- Everything that a script reaches is live. -/
theorem compile_closed {source : String} {c : Compilation} {script : FunctionHandle}
    (hw : h.Wf) (hc : compile source h host = .ok c) (hok : c.outcome = .ok script) :
    c.heap.Closed [.function script] := by
  obtain ⟨s, heap, hrun, hmodify, rfl, houtcome⟩ := compile_eq_ok hc
  obtain ⟨-, rfl⟩ := (houtcome script).mp hok
  have hs : (Session.start (TokenStream.ofSource source) h host).Sound [] :=
    Session.start_sound hw (fun _ hv => absurd hv not_reach_nil) (List.nil_subset host)
  refine (preserves_finish hs hrun hmodify).sound.closed.of_subset fun v hv => ?_
  obtain rfl := List.mem_singleton.mp hv
  exact .root (List.mem_append_right _ (FunctionStack.mem_roots_iff.mpr
    (Or.inl ⟨_, List.mem_map_of_mem (List.mem_map_of_mem s.functions.script_mem_states), rfl⟩)))

/-! ### Survival -/

/-- Compiling in a heap that came about by its own operations and stores no dead handle, with
live values held by the host: nothing freed is read, no dead handle is stored afterwards, what
the host reaches is still there and unchanged, and what the script reaches is live. -/
theorem compile_survives (source : String) (hreachable : h.Reachable)
    (hdead : h.HasNoDeadHandles) (hhost : ∀ v ∈ host, h.Live v) :
    (∀ fault, compile source h host = .error fault →
      fault ≠ .freedString ∧ fault ≠ .freedFunction) ∧
    ∀ c, compile source h host = .ok c →
      c.heap.HasNoDeadHandles ∧
      (∀ v, h.Reach host v → c.heap.Live v ∧ h.Agree c.heap v) ∧
      ∀ script, c.outcome = .ok script →
        ∀ v, c.heap.Reach [.function script] v → c.heap.Live v := by
  have hw := hreachable.wf
  have hclosed : h.Closed host := closed_of_hasNoDeadHandles hdead hhost
  have hs : (Session.start (TokenStream.ofSource source) h host).Sound host :=
    Session.start_sound hw hclosed (List.Subset.refl host)
  constructor
  · intro fault hc
    rcases bind_eq_error.mp hc with hrun | ⟨⟨⟨⟩, s⟩, hrun, hfinish⟩
    · have hfree := CompileM.run_ne_freed (CompileM.ownNotFreed_script _) hs hrun
      exact ⟨hfree.string, hfree.function⟩
    · have hlive := (CompileM.preserves _ hs hrun).sound.live_handle
        (List.mem_map_of_mem (List.mem_map_of_mem s.functions.script_mem_states))
      rcases bind_eq_error.mp hfinish with hstore | ⟨t, hstore, hend⟩
      · exact absurd hstore (Session.changeHeap_ne_error hlive)
      · split at hend <;> cases hend
  · intro c hc
    refine and_assoc.mp ⟨?_, fun script hok => compile_closed hw hc hok⟩
    obtain ⟨s, heap, hrun, hmodify, rfl, -⟩ := compile_eq_ok hc
    have hend := preserves_finish hs hrun hmodify
    refine ⟨hend.noDeadHandles (hdead.allocFunction hw host), fun v hv => ?_⟩
    have hstart := Session.agree_start (TokenStream.ofSource source) hw hclosed
      (List.Subset.refl host) hv
    have hreach : (Session.start (TokenStream.ofSource source) h host).heap.Reach
        (host ++ (Session.start (TokenStream.ofSource source) h host).functions.pool) v :=
      (hv.of_agree fun w hreach =>
        Session.agree_start _ hw hclosed (List.Subset.refl host) hreach).mono
          (List.subset_append_left ..)
    have hagree : h.Agree c.heap v := hstart.trans (hend.agree v hreach)
    exact ⟨hagree.live_iff.mpr (hclosed v hv), hagree⟩

/-- Compiling a script with a function in a heap that collects before every allocation: there
are collections, and a string that the host holds outlives them. -/
theorem compile_survives_stress :
    ∃ h c, h = ((ofConfig ⟨true, 0, 2⟩).intern "kept" ([] : List Value)).2 ∧
      compile "fun f(a) { return a; } print f(\"x\");" h [.string ⟨0⟩] = .ok c ∧
      c.heap.collections = 5 ∧ c.heap.HasNoDeadHandles ∧ c.heap.string ⟨0⟩ = .ok "kept" := by
  have hrun : (compile "fun f(a) { return a; } print f(\"x\");"
      ((ofConfig ⟨true, 0, 2⟩).intern "kept" ([] : List Value)).2 [.string ⟨0⟩]).map
        (·.heap.collections) = .ok 5 := by
    cbv
  have hfunctions : ((ofConfig ⟨true, 0, 2⟩).intern "kept" ([] : List Value)).2.functions =
      Arena.empty := by
    cbv
  have hstring : ((ofConfig ⟨true, 0, 2⟩).intern "kept" ([] : List Value)).2.strings.get? 0 =
      some "kept" := by
    cbv
  generalize hh : ((ofConfig ⟨true, 0, 2⟩).intern "kept" ([] : List Value)).2 = h at *
  have hreachable : h.Reachable := hh ▸ .intern "kept" [] (.ofConfig ⟨true, 0, 2⟩)
  have hdead : h.HasNoDeadHandles := by
    intro f o ho
    rw [hfunctions] at ho
    simp [Arena.get?, Arena.empty] at ho
  have hlive : ∀ v ∈ [Value.string ⟨0⟩], h.Live v := by
    intro v hv
    obtain rfl := List.mem_singleton.mp hv
    exact live_string_iff.mpr ⟨"kept", hstring⟩
  obtain ⟨-, hend⟩ :=
    compile_survives "fun f(a) { return a; } print f(\"x\");" hreachable hdead hlive
  obtain ⟨c, hc, hcollections⟩ : ∃ c, compile "fun f(a) { return a; } print f(\"x\");" h
      [.string ⟨0⟩] = .ok c ∧ c.heap.collections = 5 := by
    cases hc : compile "fun f(a) { return a; } print f(\"x\");" h [.string ⟨0⟩] with
    | error fault =>
        rw [hc] at hrun
        cases hrun
    | ok c =>
        rw [hc] at hrun
        exact ⟨c, rfl, Except.ok.inj hrun⟩
  obtain ⟨hdead, hkept, -⟩ := hend c hc
  have hagree := (hkept (.string ⟨0⟩) (.root (List.mem_singleton.mpr rfl))).2
  refine ⟨h, c, rfl, hc, hcollections, hdead, ?_⟩
  rw [Heap.string, show c.heap.strings.get? 0 = _ from hagree, hstring]

end LoxBytecode
