import LoxBytecode.Proofs.Compile.Garbage
import LoxBytecode.Proofs.Compile.Lexemes
import LoxBytecode.Proofs.Session.Mirrors

/-!
# What a Script Does Not Depend on

What compiling a source results in depends neither on the heap in which it is compiled, nor on
what the host holds there, nor on when collections run: the diagnostics are equal, and so are the
scripts up to the names of handles. In a heap that was empty no collection has anything to free,
so that even the handles are the same (`compile_independent`).
-/

namespace LoxBytecode

open Heap

variable {h h' k : Heap} {host host' : List Value} {tokens : TokenStream}

/-! ### Beginnings -/

namespace Session

/-- The functions of two sessions at the start of the same source correspond. -/
theorem mirrors_start (tokens : TokenStream) (hw : h.Wf) (hw' : h'.Wf) (host host' : List Value) :
    (start tokens h host).Mirrors (fun f f' => f = (h.allocFunction host).1 ∧
      f' = (h'.allocFunction host').1) (start tokens h' host') where
  upcoming := rfl
  previous := rfl
  current := rfl
  recovering := rfl
  diagnostics := rfl
  states := .cons (FunctionState.same_start ⟨rfl, rfl⟩ .script) .nil
  renames := by
    refine ⟨?_, ?_⟩
    · rintro f f' g g' ⟨rfl, rfl⟩ ⟨rfl, rfl⟩
      exact iff_of_true rfl rfl
    · rintro f f' ⟨rfl, rfl⟩
      exact ⟨.empty, .empty, get?_allocFunction hw host, get?_allocFunction hw' host',
        FunctionObject.same_empty⟩
  held := by
    rintro f f' ⟨rfl, rfl⟩
    exact ⟨Or.inl (List.mem_singleton.mpr rfl), Or.inl (List.mem_singleton.mpr rfl)⟩

/-- A new heap holds nothing, so nothing in it is there without reason. -/
theorem tight_ofConfig (config : HeapConfig) (held : List Value) :
    (ofConfig config).Tight held := by
  intro v hobject hlive
  cases v with
  | string s =>
      obtain ⟨text, htext⟩ := live_string_iff.mp hlive
      simp [ofConfig, Arena.get?, Arena.empty] at htext
  | function f =>
      obtain ⟨o, ho⟩ := live_function_iff.mp hlive
      simp [ofConfig, Arena.get?, Arena.empty] at ho
  | nil | bool | number => cases hobject

/-- At the start of a source the script is all there is in a heap that was empty. -/
theorem tight_start (tokens : TokenStream) (config : HeapConfig) :
    (start tokens (ofConfig config) []).Tight [] := by
  have hgrown := allocFunction_grown (wf_ofConfig config) ([] : List Value)
  refine ⟨fun v hobject hlive => Or.inr (Or.inr ⟨_, List.mem_singleton.mpr rfl, Or.inl ?_⟩),
    fun f hf o ho => ?_⟩
  · by_contra hne
    have hold := (hgrown.old v hlive hne).live_iff.mp hlive
    exact not_reach_nil (tight_ofConfig config [] v hobject hold)
  · obtain rfl := List.mem_singleton.mp hf
    have hempty := get?_allocFunction (wf_ofConfig config) ([] : List Value)
    rw [show o = .empty from Option.some_inj.mp (ho.symm.trans hempty)]
    rfl

/-- Configurations make no difference to the start of a source in an empty heap. -/
theorem twins_start (tokens : TokenStream) (config config' : HeapConfig) :
    (start tokens (ofConfig config) []).Twins (start tokens (ofConfig config') []) := by
  have halike : (ofConfig config).Alike (ofConfig config') := ⟨rfl, rfl, rfl⟩
  obtain ⟨hhandle, halike⟩ : ((ofConfig config').allocFunction ([] : List Value)).1 =
      ((ofConfig config).allocFunction ([] : List Value)).1 ∧
      ((ofConfig config).allocFunction ([] : List Value)).2.Alike
        ((ofConfig config').allocFunction ([] : List Value)).2 :=
    halike.allocFunction (wf_ofConfig config) (wf_ofConfig config') (tight_ofConfig config _)
      (tight_ofConfig config' _)
  exact ⟨halike, congrArg (fun f => (⟨[], tokens, .eof 1, .eof 1, false, #[],
    .ofScript (.start f .script), ((ofConfig config').allocFunction ([] : List Value)).2⟩ :
      Session)) hhandle⟩

end Session

/-! ### Ends -/

/-- What the functions being compiled reach, a script reaches that is alone and was stored. -/
theorem reach_script {s : Session} (hs : s.Sound []) (henclosing : s.functions.enclosing = [])
    (hmodify : s.heap.modifyFunction s.functions.current.function (fun o =>
      { o with
        arity := s.functions.current.arity
        upvalueCount := s.functions.current.upvalues.length
        chunk := s.functions.current.chunk }) = .ok k)
    {v : Value} (hobject : v.isObject = true) (hv : s.heap.Reach s.functions.pool v) :
    k.Reach [.function s.functions.current.function] v := by
  have hroot : k.Reach [.function s.functions.current.function]
      (.function s.functions.current.function) := .root (List.mem_singleton.mpr rfl)
  have hget := get?_modifyFunction hmodify
  have hmem : s.functions.current.function ∈ s.functions.handles := List.mem_cons_self ..
  obtain ⟨o, ho⟩ := live_function_iff.mp (hs.live_handle hmem)
  induction hv with
  | @root v hmem =>
      have hconstants : v ∈ s.functions.current.chunk.constants.toList := by
        rw [FunctionStack.pool, FunctionStack.cores, FunctionStack.states, henclosing] at hmem
        simpa [FunctionState.core] using hmem
      exact .child hroot ((hget _).trans ((if_pos rfl).trans (congrArg _ ho)))
        (mem_children_of_mem_constants hconstants hobject)
  | @child f o' v hf ho' hchild ih =>
      have hne : f.index ≠ s.functions.current.function.index := by
        intro heq
        obtain rfl : f = s.functions.current.function := congrArg FunctionHandle.mk heq
        exact hs.apart _ hmem hf
      exact .child (ih rfl) ((hget _).trans ((if_neg hne).trans ho')) hchild

/-- Nothing is garbage once a script is stored that made none. -/
theorem tight_script {s : Session} (hs : s.Sound []) (ht : s.Tight [])
    (henclosing : s.functions.enclosing = [])
    (hmodify : s.heap.modifyFunction s.functions.current.function (fun o =>
      { o with
        arity := s.functions.current.arity
        upvalueCount := s.functions.current.upvalues.length
        chunk := s.functions.current.chunk }) = .ok k) :
    k.Tight [.function s.functions.current.function] := by
  intro v hobject hlive
  have hlive := (live_modifyFunction hmodify v).mp hlive
  rcases ht.held v hobject hlive with hnew | hpool | ⟨f, hf, hv⟩
  · cases hnew
  · exact reach_script hs henclosing hmodify hobject hpool
  · have hf : f = s.functions.current.function := by
      rw [FunctionStack.handles, FunctionStack.cores, FunctionStack.states, henclosing] at hf
      exact List.mem_singleton.mp hf
    subst hf
    have hroot : k.Reach [.function s.functions.current.function]
        (.function s.functions.current.function) := .root (List.mem_singleton.mpr rfl)
    rcases hv with rfl | ⟨o, n, ho, hn, rfl⟩
    · exact hroot
    · exact .child hroot ((get?_modifyFunction hmodify _).trans ((if_pos rfl).trans
        (congrArg _ ho))) (mem_children_of_name hn)

/-! ### Independence -/

/-- A source is compiled to the end, whatever it is. -/
theorem exists_finish_source (source : String) (hw : h.Wf) (host : List Value) :
    ∃ s k, (CompileM.script (Session.budget (TokenStream.ofSource source))).run
        (Session.start (TokenStream.ofSource source) h host) = .ok ((), s) ∧
      s.Orderly ∧ s.functions.enclosing = [] ∧
      s.heap.modifyFunction s.functions.current.function (fun o =>
        { o with
          arity := s.functions.current.arity
          upvalueCount := s.functions.current.upvalues.length
          chunk := s.functions.current.chunk }) = .ok k ∧
      compile source h host = .ok ⟨if s.diagnostics.isEmpty then .ok s.functions.current.function
        else .error s.diagnostics.toList, k⟩ :=
  exists_finish hw host (TokenStream.kind_of_mem_ofSource source) fun t ht =>
    (TokenStream.legible_of_mem_ofSource source t ht).quoted

/-- A source that is compiled without diagnostics leaves its script stored. -/
theorem exists_finish_script {source : String} {c : Compilation} {script : FunctionHandle}
    (hw : h.Wf) (hc : compile source h host = .ok c) (hok : c.outcome = .ok script) :
    ∃ s, (CompileM.script (Session.budget (TokenStream.ofSource source))).run
        (Session.start (TokenStream.ofSource source) h host) = .ok ((), s) ∧
      s.Orderly ∧ s.functions.enclosing = [] ∧ s.diagnostics = #[] ∧
      s.functions.current.function = script ∧
      s.heap.modifyFunction s.functions.current.function (fun o =>
        { o with
          arity := s.functions.current.arity
          upvalueCount := s.functions.current.upvalues.length
          chunk := s.functions.current.chunk }) = .ok c.heap := by
  obtain ⟨s, k, hrun, horderly, henclosing, hmodify, hcompile⟩ := exists_finish_source source hw host
  cases hc.symm.trans hcompile
  cases hempty : s.diagnostics.isEmpty with
  | false => simp [hempty] at hok
  | true =>
      simp only [hempty, if_true] at hok
      cases hok
      exact ⟨s, hrun, horderly, henclosing, Array.isEmpty_iff.mp hempty, rfl, hmodify⟩

/-- Compilations of one source in two heaps end with the same diagnostics, or with scripts that
are the same up to the names of handles. -/
theorem compile_renaming (source : String) (hw : h.Wf) (hw' : h'.Wf) (host host' : List Value) :
    ∃ c c', compile source h host = .ok c ∧ compile source h' host' = .ok c' ∧
      ((∃ ds, c.outcome = .error ds ∧ c'.outcome = .error ds) ∨
        ∃ script script' R, c.outcome = .ok script ∧ c'.outcome = .ok script' ∧
          R script script' ∧ Renaming R c.heap c'.heap) := by
  have hkinds := TokenStream.kind_of_mem_ofSource source
  obtain ⟨s, k, hrun, horderly, henclosing, hmodify, hcompile⟩ :=
    exists_finish_source source hw host
  obtain ⟨s', k', hrun', horderly', henclosing', hmodify', hcompile'⟩ :=
    exists_finish_source source hw' host'
  obtain ⟨R, t, ht, hmirrors⟩ := CompileM.mirrors
    (CompileM.declarations (Session.budget (TokenStream.ofSource source)) >>= fun _ =>
      CompileM.emitReturn)
    (Session.mirrors_start (TokenStream.ofSource source) hw hw' host host').advance
    (orderly_advance_start hw hkinds) (orderly_advance_start hw' hkinds) hrun
  obtain rfl : s' = t := congrArg Prod.snd (Except.ok.inj (hrun'.symm.trans ht))
  refine ⟨_, _, hcompile, hcompile', ?_⟩
  rw [hmirrors.diagnostics]
  cases hempty : s.diagnostics.isEmpty with
  | false => exact Or.inl ⟨_, rfl, rfl⟩
  | true =>
      have hstored := hmirrors.store horderly.sound horderly'.sound (List.mem_cons_self ..)
        (List.mem_cons_self ..) hmirrors.head hmodify hmodify'
      exact Or.inr ⟨_, _, R, rfl, rfl, hmirrors.head.function, hstored.renames⟩

/-- No session of a compilation without diagnostics that began in an empty heap has garbage. -/
theorem tight_of_visits {source : String} {config : HeapConfig} {s : Session}
    (hrun : (CompileM.script (Session.budget (TokenStream.ofSource source))).run
      (Session.start (TokenStream.ofSource source) (ofConfig config) []) = .ok ((), s))
    (hquiet : s.diagnostics = #[]) : s.Tight [] ∧
      ∀ u, (CompileM.script (Session.budget (TokenStream.ofSource source))).Visits
        (Session.start (TokenStream.ofSource source) (ofConfig config) []) u → u.Tight [] := by
  have hstart := Session.tight_start (TokenStream.ofSource source) config
  have hadvance : (Session.start (TokenStream.ofSource source) (ofConfig config) []).advance.Tight
      [] := hstart.of_cores (Session.heap_advance _) (congrArg _ (Session.functions_advance _))
  have horderly : (Session.start (TokenStream.ofSource source) (ofConfig config) []).advance.Orderly :=
    orderly_advance_start (wf_ofConfig config) (TokenStream.kind_of_mem_ofSource source)
  have hrest : (CompileM.declarations (Session.budget (TokenStream.ofSource source)) >>= fun _ =>
      CompileM.emitReturn).run (Session.start (TokenStream.ofSource source) (ofConfig config)
        []).advance = .ok ((), s) := hrun
  have hbefore := CompileM.clean_of_heard horderly rfl (Session.heard_advance _)
    (CompileM.heard _ hrest) hquiet
  have hafter : s.Clean := CompileM.clean_of_heard (CompileM.orderly _ horderly hrest)
    hbefore.alert (CompileM.heard _ hrest) (.refl s) hquiet
  have hnames : (CompileM.declarations (Session.budget (TokenStream.ofSource source)) >>= fun _ =>
      CompileM.emitReturn).NamesOnce false :=
    ⟨CompileM.namesOnce_declarations _ _, fun _ =>
      CompileM.compositional_namesOnce.ofExpression.emitAll _ _⟩
  obtain ⟨hend, hvisited⟩ := CompileM.tight hnames hbefore hadvance (by rintro ⟨⟩) hrest hafter
  refine ⟨hend, fun u hu => ?_⟩
  rcases hu with (rfl | ⟨b, hb⟩) | ⟨b, t, ht, hu⟩
  · exact hstart
  · cases hb
    exact hadvance
  · cases ht
    exact hvisited u hu

/-- Compilations of one source in empty heaps that collect at different times put the same objects
into the same slots, if nothing is reported. -/
theorem compile_alike {source : String} {config : HeapConfig} {s : Session} {k : Heap}
    (hrun : (CompileM.script (Session.budget (TokenStream.ofSource source))).run
      (Session.start (TokenStream.ofSource source) (ofConfig config) []) = .ok ((), s))
    (hquiet : s.diagnostics = #[])
    (hmodify : s.heap.modifyFunction s.functions.current.function (fun o =>
      { o with
        arity := s.functions.current.arity
        upvalueCount := s.functions.current.upvalues.length
        chunk := s.functions.current.chunk }) = .ok k) (config' : HeapConfig) :
    ∃ c', compile source (ofConfig config') [] = .ok c' ∧
      c'.outcome = .ok s.functions.current.function ∧ k.Alike c'.heap := by
  have hkinds := TokenStream.kind_of_mem_ofSource source
  obtain ⟨s', k', hrun', -, -, hmodify', hcompile'⟩ :=
    exists_finish_source source (wf_ofConfig config') []
  obtain ⟨-, hvisited⟩ := tight_of_visits hrun hquiet
  have hstart := Session.twins_start (TokenStream.ofSource source) config config'
  have hadvance : (Session.start (TokenStream.ofSource source) (ofConfig config) []).advance.Twins
      (Session.start (TokenStream.ofSource source) (ofConfig config') []).advance := by
    have hmoved := Action.apply_withHeap (a := .advance) id (s := Session.start
      (TokenStream.ofSource source) (ofConfig config) []) rfl (Session.start
        (TokenStream.ofSource source) (ofConfig config') []).heap
    rw [← hstart.same] at hmoved
    have hsame := congrArg Prod.snd (Except.ok.inj hmoved)
    refine ⟨?_, ?_⟩
    · rw [Session.heap_advance, Session.heap_advance]
      exact hstart.alike
    · rw [Session.heap_advance]
      exact hsame
  obtain ⟨t, ht, htwins⟩ := CompileM.twins
    (CompileM.declarations (Session.budget (TokenStream.ofSource source)) >>= fun _ =>
      CompileM.emitReturn) hadvance
    (orderly_advance_start (wf_ofConfig config) hkinds)
    (orderly_advance_start (wf_ofConfig config') hkinds)
    (fun u hu => (hvisited u (Or.inr ⟨(), _, rfl, hu⟩)).heap) hrun
  obtain rfl : s' = t := congrArg Prod.snd (Except.ok.inj (hrun'.symm.trans ht))
  have hfunctions : s'.functions = s.functions := by
    rw [htwins.same]
    rfl
  have hdiagnostics : s'.diagnostics = s.diagnostics := by
    rw [htwins.same]
    rfl
  obtain ⟨k₂, hk₂, halike⟩ := htwins.alike.modifyFunction hmodify
  rw [hfunctions, hk₂] at hmodify'
  cases hmodify'
  refine ⟨_, hcompile', ?_, halike⟩
  rw [hdiagnostics, hquiet, hfunctions]
  rfl

/-- Compiling a source in any two heaps that came about by their own operations, with whatever
the hosts hold there and however the heaps collect, ends with equal diagnostics or with scripts
that are the same up to the names of handles. From an empty heap, moreover, no collection frees
anything that making the script or any session of a successful compilation could start; so the
heap after it holds the same objects in the same slots for every configuration, and nothing is
freed when only the script is held on to. -/
theorem compile_independent (source : String) :
    (∀ h h' host host', h.Reachable → h'.Reachable →
      ∃ c c', compile source h host = .ok c ∧ compile source h' host' = .ok c' ∧
        ((∃ ds, c.outcome = .error ds ∧ c'.outcome = .error ds) ∨
          ∃ script script' R, c.outcome = .ok script ∧ c'.outcome = .ok script' ∧
            R script script' ∧ Renaming R c.heap c'.heap)) ∧
    ∀ config c script, compile source (ofConfig config) [] = .ok c → c.outcome = .ok script →
      ((ofConfig config).collect []).1 = 0 ∧
      (∀ u, (CompileM.script (Session.budget (TokenStream.ofSource source))).Visits
          (Session.start (TokenStream.ofSource source) (ofConfig config) []) u →
        (u.heap.collect (roots (u.host, u.functions))).1 = 0) ∧
      (∀ config', ∃ c', compile source (ofConfig config') [] = .ok c' ∧
        c'.outcome = .ok script ∧ c'.heap.strings = c.heap.strings ∧
        c'.heap.functions = c.heap.functions ∧ c'.heap.live = c.heap.live) ∧
      (c.heap.collect [.function script]).1 = 0 := by
  refine ⟨fun h h' host host' hr hr' => compile_renaming source hr.wf hr'.wf host host',
    fun config c script hc hok => ?_⟩
  obtain ⟨s, k, hrun, horderly, henclosing, hmodify, hcompile⟩ :=
    exists_finish_source source (wf_ofConfig config) []
  rw [hc] at hcompile
  cases hcompile
  have hquiet : s.diagnostics = #[] := by
    by_contra hne
    have hempty : s.diagnostics.isEmpty = false := by simpa using hne
    simp [hempty] at hok
  simp only [hquiet, Array.isEmpty_empty, if_true] at hok
  cases hok
  obtain ⟨hend, hvisited⟩ := tight_of_visits hrun hquiet
  have hsound : (Session.start (TokenStream.ofSource source) (ofConfig config) []).Sound [] :=
    Session.start_sound (wf_ofConfig config) (fun _ hv => absurd hv not_reach_nil)
      (List.Subset.refl _)
  refine ⟨(collect_of_tight (wf_ofConfig config) (Session.tight_ofConfig config [])).1,
    fun u hu => ?_, fun config' => ?_, ?_⟩
  · have hu' : u.Sound [] := CompileM.visits_keeps
      (fun a _ _ _ hs ha => (a.preserves hs ha).sound) hsound hu
    exact (collect_of_tight hu'.wf (hvisited u hu).heap).1
  · obtain ⟨c', hc', hok', halike⟩ := compile_alike hrun hquiet hmodify config'
    exact ⟨c', hc', hok', halike.strings, halike.functions, halike.live_eq⟩
  · exact (collect_of_tight (horderly.sound.wf.modifyFunction hmodify)
      (tight_script horderly.sound hend henclosing hmodify)).1

/-- A script with a function, compiled in a heap that collects before every allocation and in one
where a function is in the way: the handles of the script differ, and nothing else does. -/
theorem compile_independent_moved :
    ∃ c c' R, compile "fun f(a) { return a; } print f(\"x\");" (ofConfig ⟨true, 0, 2⟩) [] = .ok c ∧
      compile "fun f(a) { return a; } print f(\"x\");"
        ((ofConfig .standard).allocFunction ([] : List Value)).2 [.function ⟨0⟩] = .ok c' ∧
      c.outcome = .ok ⟨0⟩ ∧ c'.outcome = .ok ⟨1⟩ ∧ R ⟨0⟩ ⟨1⟩ ∧ Renaming R c.heap c'.heap ∧
      (c.heap.collect [.function ⟨0⟩]).1 = 0 := by
  have hrun : (compile "fun f(a) { return a; } print f(\"x\");" (ofConfig ⟨true, 0, 2⟩) []).map
      (·.outcome.toOption) = .ok (some ⟨0⟩) := by
    cbv
  have hrun' : (compile "fun f(a) { return a; } print f(\"x\");"
      ((ofConfig .standard).allocFunction ([] : List Value)).2 [.function ⟨0⟩]).map
        (·.outcome.toOption) = .ok (some ⟨1⟩) := by
    cbv
  obtain ⟨hrenamed, htight⟩ := compile_independent "fun f(a) { return a; } print f(\"x\");"
  obtain ⟨c, hc, hok⟩ := exists_of_script_eq hrun
  obtain ⟨c', hc', hok'⟩ := exists_of_script_eq hrun'
  obtain ⟨c₁, c₁', hc₁, hc₁', hsame⟩ := hrenamed _ _ [] [.function ⟨0⟩]
    (.ofConfig ⟨true, 0, 2⟩) (.allocFunction [] (.ofConfig .standard))
  obtain rfl := Except.ok.inj (hc.symm.trans hc₁)
  obtain rfl := Except.ok.inj (hc'.symm.trans hc₁')
  rcases hsame with ⟨ds, herror, -⟩ | ⟨script, script', R, hscript, hscript', hR, hrenaming⟩
  · rw [hok] at herror
    cases herror
  · rw [hok] at hscript
    rw [hok'] at hscript'
    cases hscript
    cases hscript'
    exact ⟨c, c', R, hc, hc', hok, hok', hR, hrenaming, (htight _ c ⟨0⟩ hc hok).2.2.2⟩

end LoxBytecode
