import LoxBytecode.Proofs.Heap.Tight
import LoxBytecode.Proofs.Session.Clean

/-!
# Sessions without Garbage

A compilation that began in an empty heap and has reported nothing makes no garbage: every object
is reachable from the constants of what is being compiled, is the object of a function being
compiled, or is the name of one (`Session.Tight`). So a collection frees nothing, whenever it runs.

Every action keeps this but one. A function that is given a second name would lose the first. In
a compilation a function is named right after it was begun, which is a property of the tree of
its parts (`CompileM.NamesOnce`), and there its object has no name yet.
-/

namespace LoxBytecode

open Heap

/-! ### Sessions on the way -/

namespace CompileM

/-- The session is one that a run passes through, the first and the last one included. -/
def Visits {α : Type} : CompileM α → Session → Session → Prop
  | .done _, s, u => u = s
  | .ask _, s, u => u = s
  | .act a, s, u => u = s ∨ ∃ b, a.apply s = .ok (b, u)
  | .chain first next, s, u =>
    first.Visits s u ∨ ∃ b t, first.run s = .ok (b, t) ∧ (next b).Visits t u
  | .part _ body, s, u => body.Visits s u

/-- What every action keeps holds in every session on the way. -/
theorem visits_keeps {α : Type} {P : Session → Prop}
    (keeps : ∀ {β : Type} (a : Action β) {s t : Session} {b : β},
      P s → a.apply s = .ok (b, t) → P t)
    {m : CompileM α} {s u : Session} (start : P s) (h : m.Visits s u) : P u := by
  induction m generalizing s with
  | done result | ask q => exact h ▸ start
  | act action =>
      rcases h with rfl | ⟨b, hb⟩
      · exact start
      · exact keeps action start hb
  | chain first next ihFirst ihNext =>
      rcases h with h | ⟨b, t, hfirst, h⟩
      · exact ihFirst start h
      · exact ihNext b (run_keeps keeps first start hfirst) h
  | part phrase body ih => exact ih start h

end CompileM

namespace Session

/-- The value is the name of a function. -/
def IsName (h : Heap) (f : FunctionHandle) (v : Value) : Prop :=
  ∃ o n, h.functions.get? f.index = some o ∧ o.name = some n ∧ v = .string n

/-- All objects but some that were just made are held by what is being compiled, and the objects
of the functions being compiled have no constants yet. -/
structure Tight (new : List Value) (s : Session) : Prop where
  held : ∀ v, v.isObject = true → s.heap.Live v → v ∈ new ∨ s.heap.Reach s.functions.pool v ∨
    ∃ f ∈ s.functions.handles, v = .function f ∨ IsName s.heap f v
  blank : ∀ f ∈ s.functions.handles, ∀ o, s.heap.functions.get? f.index = some o →
    o.chunk.constants = #[]

variable {s t : Session} {new : List Value}

/-- The heap of such a session has no garbage. -/
theorem Tight.heap (ht : s.Tight []) : s.heap.Tight (roots (s.host, s.functions)) := by
  have hroots : ∀ {v}, v ∈ roots s.functions → v ∈ roots (s.host, s.functions) :=
    fun h => List.mem_append_right _ h
  intro v hobject hlive
  rcases ht.held v hobject hlive with hnew | hpool | ⟨f, hf, hv⟩
  · cases hnew
  · exact hpool.mono fun w hw => hroots (FunctionStack.mem_roots_iff.mpr (Or.inr hw))
  · have hfunction : s.heap.Reach (roots (s.host, s.functions)) (.function f) :=
      .root (hroots (FunctionStack.mem_roots_iff.mpr (Or.inl ⟨f, hf, rfl⟩)))
    rcases hv with rfl | ⟨o, n, ho, hn, rfl⟩
    · exact hfunction
    · exact .child hfunction ho (mem_children_of_name hn)

/-! ### Operations -/

/-- Nothing becomes garbage when the functions hold at least what they held. -/
theorem Tight.of_pool (ht : s.Tight new) (hheap : t.heap = s.heap)
    (hhandles : t.functions.handles = s.functions.handles)
    (hpool : s.functions.pool ⊆ t.functions.pool) : t.Tight new := by
  refine ⟨fun v hobject hlive => ?_, fun f hf o ho => ?_⟩
  · rw [hheap] at hlive ⊢
    rw [hhandles]
    exact (ht.held v hobject hlive).imp_right (Or.imp_left fun h => h.mono hpool)
  · rw [hheap] at ho
    exact ht.blank f (hhandles ▸ hf) o ho

/-- What changes neither the heap nor the constants of any function keeps a session tight. -/
theorem Tight.of_cores (ht : s.Tight new) (hheap : t.heap = s.heap)
    (hcores : t.functions.cores = s.functions.cores) : t.Tight new :=
  ht.of_pool hheap (by rw [FunctionStack.handles, FunctionStack.handles, hcores]) (by
    rw [FunctionStack.pool, FunctionStack.pool, hcores]
    exact List.Subset.refl _)

/-- A value is held once it is a constant. -/
theorem Tight.push {v : Value} (ht : s.Tight [v]) (f : FunctionState → FunctionState)
    (hfunction : (f s.functions.current).function = s.functions.current.function)
    (hconstants : (f s.functions.current).chunk.constants =
      s.functions.current.chunk.constants.push v) : (s.modifyFunction f).Tight [] := by
  have hpool := mem_pool_pushConstant s hconstants
  have hgrown : (s.modifyFunction f).Tight [v] :=
    ht.of_pool rfl (List.cons_eq_cons.mpr ⟨hfunction, rfl⟩) fun w hw => (hpool w).mpr (Or.inl hw)
  refine ⟨fun w hobject hlive => Or.inr ?_, hgrown.blank⟩
  rcases hgrown.held w hobject hlive with hnew | hheld
  · obtain rfl := List.mem_singleton.mp hnew
    exact Or.inl (.root ((hpool _).mpr (Or.inr rfl)))
  · exact hheld

/-- An allocation makes one object. -/
theorem Tight.grown (ht : s.Tight []) (hs : s.Sound []) {k : Heap} {held : List Value} {v : Value}
    (hgrown : s.heap.Grown held v k) (hheld : roots s.functions ⊆ held) :
    Tight [v] { s with heap := k } := by
  have hreach : ∀ {w}, s.heap.Reach (roots s.functions) w → s.heap.Agree k w :=
    fun hw => hgrown.agree _ (hw.mono hheld) (hs.closed _ hw)
  have hhandle : ∀ f ∈ s.functions.handles, s.heap.Agree k (.function f) := fun f hf =>
    hreach (.root (FunctionStack.mem_roots_iff.mpr (Or.inl ⟨f, hf, rfl⟩)))
  have hpool : ∀ w, s.heap.Reach s.functions.pool w → s.heap.Agree k w := fun w hw =>
    hreach (hw.mono fun x hx => FunctionStack.mem_roots_iff.mpr (Or.inr hx))
  refine ⟨fun w hobject hlive => ?_, fun f hf o ho => ht.blank f hf o ?_⟩
  · by_cases hw : w = v
    · exact Or.inl (List.mem_singleton.mpr hw)
    · have hold := (hgrown.old w hlive hw).live_iff.mp hlive
      rcases ht.held w hobject hold with hnew | hreached | ⟨f, hf, hname⟩
      · cases hnew
      · exact Or.inr (Or.inl (hreached.of_agree hpool))
      · refine Or.inr (Or.inr ⟨f, hf, hname.imp_right ?_⟩)
        rintro ⟨o, n, ho, hn, rfl⟩
        exact ⟨o, n, Eq.trans (hhandle f hf) ho, hn, rfl⟩
  · exact Eq.trans (hhandle f hf).symm ho

/-- A string that was interned is all that is new. -/
theorem Tight.intern (ht : s.Tight []) (hs : s.Sound []) (text : String) :
    (s.intern text).2.Tight [.string (s.intern text).1] :=
  ht.grown hs (intern_grown hs.wf text (s.host, s.functions)) (List.subset_append_right _ _)

/-- A value that is loaded is new no longer: it is a constant. -/
theorem Tight.load {v : Value} (ht : s.Tight [v]) (hs : s.recovering = false)
    (hclean : (s.load v).Clean) : (s.load v).Tight [] := by
  rw [Session.load] at hclean ⊢
  split at hclean
  · exact absurd hclean (CompileM.not_clean_report hs)
  · next hfull =>
    rw [if_neg hfull]
    exact ht.push _ rfl (Chunk.constants_writeLoad ..)

/-- A value that is added as a constant is new no longer. -/
theorem Tight.addConstant {v : Value} (ht : s.Tight [v]) (hs : s.recovering = false)
    {index : UInt8} (h : s.addConstant v = .ok (index, t)) (hclean : t.Clean) : t.Tight [] := by
  rcases addConstant_eq_ok h with ⟨-, -, rfl⟩ | ⟨-, rfl⟩
  · exact ht.push _ rfl (Chunk.constants_addConstant ..)
  · exact absurd hclean (CompileM.not_clean_report hs)

/-- A function that is begun is held by the stack, so nothing is new. -/
theorem Tight.beginFunction (ht : s.Tight []) (hs : s.Sound []) : s.beginFunction.Tight [] := by
  have hgrown := ht.grown hs (allocFunction_grown hs.wf (s.host, s.functions))
    (List.subset_append_right _ _)
  refine ⟨fun v hobject hlive => Or.inr ?_, fun f hf o ho => ?_⟩
  · rcases hgrown.held v hobject hlive with hnew | hpool | ⟨f, hf, hv⟩
    · exact Or.inr ⟨_, List.mem_cons_self .., Or.inl (List.mem_singleton.mp hnew)⟩
    · exact Or.inl hpool
    · exact Or.inr ⟨f, List.mem_cons_of_mem _ hf, hv⟩
  · rcases List.mem_cons.mp hf with rfl | hf
    · have hempty := get?_allocFunction hs.wf (s.host, s.functions)
      rw [show o = .empty from Option.some_inj.mp (ho.symm.trans hempty)]
      rfl
    · exact hgrown.blank f hf o ho

/-- Naming a function that has no name loses nothing. -/
theorem Tight.nameFunction (ht : s.Tight []) (hs : s.Sound [])
    (hunnamed : s.heap.functions.get? s.functions.current.function.index = some .empty)
    (h : s.nameFunction = .ok t) : t.Tight [] := by
  have hinterned := ht.intern hs s.previous.lexeme
  have hsound := (Preserves.intern hs s.previous.lexeme).sound
  have h : (s.intern s.previous.lexeme).2.changeHeap (·.setName s.functions.current.function
    (some (s.intern s.previous.lexeme).1)) = .ok t := h
  obtain ⟨k, hk, ht⟩ := changeHeap_eq_ok h
  have hmodify : (s.intern s.previous.lexeme).2.heap.modifyFunction
      s.functions.current.function
      (fun o => { o with name := some (s.intern s.previous.lexeme).1 }) = .ok k := hk
  obtain rfl : t = { (s.intern s.previous.lexeme).2 with heap := k } := ht
  have hget := get?_modifyFunction hmodify
  -- the object of the function is as it was before its name was interned
  have hobject : (s.intern s.previous.lexeme).2.heap.functions.get?
      s.functions.current.function.index = some .empty := by
    have hgrown := intern_grown hs.wf s.previous.lexeme (s.host, s.functions)
    have hheld : s.heap.Reach [] (.function s.functions.current.function) ∨
        s.heap.Reach (roots (s.host, s.functions)) (.function s.functions.current.function) :=
      Or.inr (.root (List.mem_append_right _ (FunctionStack.mem_roots_iff.mpr
        (Or.inl ⟨_, List.mem_cons_self .., rfl⟩))))
    exact Eq.trans (hgrown.agree _ (hheld.resolve_left not_reach_nil)
      (live_function_iff.mpr ⟨_, hunnamed⟩)) hunnamed
  refine ⟨fun v hisObject hlive => Or.inr ?_, fun f hf o ho => ?_⟩
  · have hlive := (live_modifyFunction hmodify v).mp hlive
    rcases hinterned.held v hisObject hlive with hnew | hpool | ⟨f, hf, hv⟩
    · refine Or.inr ⟨_, List.mem_cons_self .., Or.inr ⟨{ FunctionObject.empty with
        name := some (s.intern s.previous.lexeme).1 }, _, ?_, rfl, List.mem_singleton.mp hnew⟩⟩
      exact (hget _).trans ((if_pos rfl).trans (congrArg (Option.map _) hobject))
    · exact Or.inl (hpool.of_agree fun w hw =>
        hsound.agree_modifyFunction (List.mem_cons_self ..) hmodify hw)
    · refine Or.inr ⟨f, hf, hv.imp_right ?_⟩
      rintro ⟨o, n, ho, hn, rfl⟩
      by_cases hsame : f.index = s.functions.current.function.index
      · rw [hsame, hobject] at ho
        cases ho
        cases hn
      · exact ⟨o, n, (hget _).trans ((if_neg hsame).trans ho), hn, rfl⟩
  · by_cases hsame : f.index = s.functions.current.function.index
    · rw [hget, if_pos hsame, hobject] at ho
      cases ho
      rfl
    · rw [hget, if_neg hsame] at ho
      exact hinterned.blank f hf o ho

/-- A function that ends is held by a constant of the one around it, and holds its own. -/
theorem Tight.endFunction (ht : s.Tight []) (hs : s.Clean) {ended : UInt8 × List Capture}
    (h : s.endFunction = .ok (ended, t)) (hclean : t.Clean) : t.Tight [] := by
  obtain ⟨constant, captures⟩ := ended
  have hreach := (Preserves.endFunction hs.orderly.sound h).reach
  have hnodup := hs.orderly.sound.nodup
  obtain ⟨st, parent, rest, k, u, hfunctions, -, hmodify, rfl, hadd⟩ := endFunction_eq_ok h
  have hget := get?_modifyFunction hmodify
  have hhandles : s.functions.handles =
      st.function :: parent.function :: rest.map (·.function) := by
    rw [FunctionStack.handles, FunctionStack.cores, FunctionStack.states, hfunctions]
    simp [FunctionState.core, Function.comp_def]
  rw [hhandles] at hnodup
  have hother : ∀ f ∈ parent.function :: rest.map (·.function), f.index ≠ st.function.index :=
    fun f hf heq => by
      obtain rfl : f = st.function := congrArg FunctionHandle.mk heq
      exact (List.nodup_cons.mp hnodup).1 hf
  rcases addConstant_eq_ok hadd with ⟨-, -, rfl⟩ | ⟨-, rfl⟩
  case inr => exact absurd hclean (CompileM.not_clean_report hs.alert)
  have hended : k.Reach (Session.modifyChunk (fun c => (c.addConstant (.function st.function)).2)
      { s with functions := ⟨parent, rest⟩, heap := k }).functions.pool (.function st.function) :=
    .root ((mem_pool_pushConstant { s with functions := ⟨parent, rest⟩, heap := k }
      (f := fun st' => { st' with chunk := (st'.chunk.addConstant (.function st.function)).2 })
      rfl _).mpr (Or.inr rfl))
  have hremaining : (Session.modifyChunk (fun c => (c.addConstant (.function st.function)).2)
      { s with functions := ⟨parent, rest⟩, heap := k }).functions.handles =
      parent.function :: rest.map (·.function) := by
    show FunctionStack.handles ⟨_, rest⟩ = _
    rw [FunctionStack.handles, FunctionStack.cores, FunctionStack.states]
    simp [FunctionState.core, Function.comp_def]
  refine ⟨fun v hobject hlive => Or.inr ?_, fun f hf o ho => ?_⟩
  · have hlive := (live_modifyFunction hmodify v).mp hlive
    rw [hremaining]
    rcases ht.held v hobject hlive with hnew | hpool | ⟨f, hf, hv⟩
    · cases hnew
    · exact Or.inl (hreach v hobject hpool)
    · rw [hhandles] at hf
      rcases List.mem_cons.mp hf with rfl | hf
      · refine Or.inl ?_
        rcases hv with rfl | ⟨o, n, ho, hn, rfl⟩
        · exact hended
        · exact .child hended ((hget _).trans ((if_pos rfl).trans (congrArg _ ho)))
            (mem_children_of_name hn)
      · refine Or.inr ⟨f, hf, hv.imp_right ?_⟩
        rintro ⟨o, n, ho, hn, rfl⟩
        exact ⟨o, n, (hget _).trans ((if_neg (hother f hf)).trans ho), hn, rfl⟩
  · rw [hremaining] at hf
    have hold : s.heap.functions.get? f.index = some o :=
      ((hget _).trans (if_neg (hother f hf))).symm.trans ho
    exact ht.blank f (hhandles ▸ List.mem_cons_of_mem _ hf) o hold

end Session

end LoxBytecode
