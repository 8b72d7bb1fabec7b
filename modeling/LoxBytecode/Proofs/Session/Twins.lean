import LoxBytecode.Proofs.Session.Bounds
import LoxBytecode.Proofs.Session.Tight

/-!
# Twin Sessions

Twins are sessions whose heaps hold the same objects in the same slots and which differ in nothing
but when their heaps collect. Where no collection frees anything, every action leads from twins to
twins, with the same answer, and so does every run (`CompileM.twins`).
-/

namespace LoxBytecode

open Heap

/-! ### Actions that make nothing -/

namespace Action

/-- The action may put objects into the heap, or write to those that are there. -/
def Allocates {β : Type} : Action β → Prop
  | .loadString | .nameConstant | .beginFunction | .nameFunction | .endFunction => True
  | _ => False

end Action

namespace Session

variable (s : Session) (k : Heap)

/-- The session with another heap. -/
def withHeap : Session := { s with heap := k }

@[simp] theorem heap_withHeap : (s.withHeap k).heap = k := rfl

@[simp] theorem functions_withHeap : (s.withHeap k).functions = s.functions := rfl

@[simp] theorem previous_withHeap : (s.withHeap k).previous = s.previous := rfl

@[simp] theorem current_withHeap : (s.withHeap k).current = s.current := rfl

@[simp] theorem chunk_withHeap : (s.withHeap k).chunk = s.chunk := rfl

@[simp] theorem report_withHeap (tok : Token) (message : String) :
    (s.withHeap k).report tok message = (s.report tok message).withHeap k := by
  cases hr : s.recovering <;> simp [report, withHeap, hr]

@[simp] theorem fail_withHeap (problem : Problem) :
    (s.withHeap k).fail problem = (s.fail problem).withHeap k :=
  report_withHeap ..

@[simp] theorem failHere_withHeap (problem : Problem) :
    (s.withHeap k).failHere problem = (s.failHere problem).withHeap k :=
  report_withHeap ..

/-- Reading tokens has nothing to do with the heap. -/
theorem readFrom_withHeap (ts : List Token) :
    (s.withHeap k).readFrom ts = (s.readFrom ts).withHeap k := by
  induction ts generalizing s with
  | nil => rfl
  | cons t ts ih =>
      rw [readFrom, readFrom]
      split
      · rw [report_withHeap, ih]
      · rfl

@[simp] theorem modifyFunction_withHeap (f : FunctionState → FunctionState) :
    (s.withHeap k).modifyFunction f = (s.modifyFunction f).withHeap k := rfl

@[simp] theorem modifyChunk_withHeap (f : Chunk → Chunk) :
    (s.withHeap k).modifyChunk f = (s.modifyChunk f).withHeap k := rfl

@[simp] theorem load_withHeap (v : Value) : (s.withHeap k).load v = (s.load v).withHeap k := by
  rw [load, load, chunk_withHeap]
  split
  · exact fail_withHeap ..
  · rfl

/-- Adding a constant has nothing to do with the heap. -/
theorem addConstant_withHeap (v : Value) :
    (s.withHeap k).addConstant v =
      (s.addConstant v).map fun result => (result.1, result.2.withHeap k) := by
  rw [addConstant_eq, addConstant_eq, chunk_withHeap]
  split
  · rfl
  · rw [modifyChunk_withHeap, fail_withHeap]
    rfl

/-- Filling in a distance has nothing to do with the heap. -/
theorem patchJump_withHeap {offset : Nat} {t : Session} (h : s.patchJump offset = .ok t) :
    (s.withHeap k).patchJump offset = .ok (t.withHeap k) := by
  rcases patchJump_eq_ok h with ⟨c, hpatch, hsize, hdistance, rfl⟩ | ⟨hfar, rfl⟩
  · obtain ⟨t', ht'⟩ : ∃ t', (s.withHeap k).patchJump offset = .ok t' := exists_patchJump hsize
    rcases patchJump_eq_ok ht' with ⟨c', hpatch', -, -, rfl⟩ | ⟨hfar, -⟩
    · rw [chunk_withHeap, hpatch] at hpatch'
      cases hpatch'
      exact ht'
    · exact absurd hdistance (Nat.not_le.mpr hfar)
  · obtain ⟨t', ht'⟩ : ∃ t', (s.withHeap k).patchJump offset = .ok t' := exists_patchJump (by
      rw [chunk_withHeap]
      omega)
    rcases patchJump_eq_ok ht' with ⟨_, -, -, hdistance, -⟩ | ⟨-, rfl⟩
    · exact absurd hdistance (Nat.not_le.mpr hfar)
    · rw [ht', fail_withHeap]

end Session

/-- Whatever makes no objects does the same in every heap. -/
theorem Action.apply_withHeap {β : Type} {a : Action β} (ha : ¬ a.Allocates) {s t : Session}
    {b : β} (h : a.apply s = .ok (b, t)) (k : Heap) :
    a.apply (s.withHeap k) = .ok (b, t.withHeap k) := by
  cases a with
  | advance =>
      cases h
      exact congrArg (fun t => Except.ok ((), t))
        (Session.readFrom_withHeap { s with previous := s.current } k s.upcoming.ahead)
  | fail problem =>
      cases h
      exact congrArg (fun t => Except.ok ((), t)) (s.fail_withHeap k problem)
  | failHere problem =>
      cases h
      exact congrArg (fun t => Except.ok ((), t)) (s.failHere_withHeap k problem)
  | patchJump offset =>
      obtain ⟨u, hu, h⟩ := bind_eq_ok.mp h
      cases h
      rw [apply, Session.patchJump_withHeap s k hu]
      rfl
  | loadNumber =>
      cases h
      refine congrArg (fun t => Except.ok ((), t)) ?_
      rw [Session.loadNumber, Session.loadNumber, Session.previous_withHeap]
      split
      · exact Session.load_withHeap ..
      · exact Session.fail_withHeap ..
  | endScope =>
      obtain ⟨⟨flags, st⟩, hst, h⟩ := bind_eq_ok.mp h
      cases h
      rw [apply, Session.endScope, Session.functions_withHeap, hst]
      rfl
  | declare =>
      cases h
      refine congrArg (fun t => Except.ok ((), t)) ?_
      rw [Session.declare, Session.declare, Session.functions_withHeap, Session.previous_withHeap]
      split
      · rfl
      · exact Session.fail_withHeap ..
  | resume | emit | beginScope | markInitialized | findUpvalue | countParameter =>
      cases h
      rfl
  | loadString | nameConstant | beginFunction | nameFunction | endFunction =>
      exact absurd trivial ha

/-- Whatever makes no objects leaves the heap alone. -/
theorem Action.heap_of_not_allocates {β : Type} {a : Action β} (ha : ¬ a.Allocates)
    {s t : Session} {b : β} (h : a.apply s = .ok (b, t)) : t.heap = s.heap := by
  have hsame := apply_withHeap ha h s.heap
  rw [show s.withHeap s.heap = s from rfl, h] at hsame
  exact congrArg (fun result => result.2.heap) (Except.ok.inj hsame)

/-! ### Twins -/

/-- The sessions differ in nothing but when their heaps collect. -/
structure Session.Twins (s s' : Session) : Prop where
  alike : s.heap.Alike s'.heap
  same : s' = s.withHeap s'.heap

variable {s s' t : Session}

namespace Session.Twins

/-- A session with a heap that is alike is a twin. -/
theorem of_withHeap {k : Heap} (ha : s.heap.Alike k) : s.Twins (s.withHeap k) :=
  ⟨ha, rfl⟩

/-- What is reachable in one is reachable in the other. -/
theorem tight (hs : s.Twins s') (ht : s.heap.Tight (roots (s.host, s.functions))) :
    s'.heap.Tight (roots (s'.host, s'.functions)) := by
  obtain ⟨ha, hsame⟩ := hs
  intro v hobject hlive
  rw [hsame]
  exact (ht v hobject ((ha.agree v).live_iff.mp hlive)).of_agree fun w _ => ha.agree w

/-- A text is the same string on both sides. -/
theorem intern (hs : s.Twins s') (ht : s.heap.Tight (roots (s.host, s.functions)))
    (hw : s.heap.Wf) (hw' : s'.heap.Wf) (text : String) :
    (s'.intern text).1 = (s.intern text).1 ∧ (s.intern text).2.Twins (s'.intern text).2 := by
  obtain ⟨hhandle, halike⟩ := hs.alike.intern hw hw' ht (hs.tight ht) text
  have hsame : ∀ k, s'.withHeap k = s.withHeap k := by
    intro k
    rw [hs.same]
    rfl
  exact ⟨hhandle, halike, hsame (s'.intern text).2.heap⟩

/-- Twins stay twins when both load a value. -/
theorem load (hs : s.Twins s') (v : Value) : (s.load v).Twins (s'.load v) := by
  rw [hs.same, load_withHeap]
  refine of_withHeap ?_
  have hheap : (s.load v).heap = s.heap := by
    rw [Session.load]
    split
    · exact heap_report ..
    · rfl
  exact hheap ▸ hs.alike

/-- Twins stay twins when both add a constant, at the same index. -/
theorem addConstant (hs : s.Twins s') {v : Value} {index : UInt8}
    (h : s.addConstant v = .ok (index, t)) :
    ∃ t', s'.addConstant v = .ok (index, t') ∧ t.Twins t' := by
  have hheap := (functions_heap_addConstant h).2
  refine ⟨t.withHeap s'.heap, ?_, of_withHeap (hheap ▸ hs.alike)⟩
  rw [hs.same, addConstant_withHeap, h]
  rfl

/-- A change of the heap that is the same on both sides. -/
theorem changeHeap (hs : s.Twins s') {f : FunctionHandle}
    {change : FunctionObject → FunctionObject}
    (h : s.changeHeap (·.modifyFunction f change) = .ok t) :
    ∃ t', s'.changeHeap (·.modifyFunction f change) = .ok t' ∧ t.Twins t' := by
  obtain ⟨k, hk, rfl⟩ := changeHeap_eq_ok h
  obtain ⟨k', hk', halike⟩ := hs.alike.modifyFunction hk
  refine ⟨s'.withHeap k', ?_, halike, ?_⟩
  · simp only [Session.changeHeap, hk']
    rfl
  · rw [hs.same]
    rfl

/-- Twins stay twins when both begin a function, which gets the same handle. -/
theorem beginFunction (hs : s.Twins s') (ht : s.heap.Tight (roots (s.host, s.functions)))
    (hw : s.heap.Wf) (hw' : s'.heap.Wf) : s.beginFunction.Twins s'.beginFunction := by
  obtain ⟨hhandle, halike⟩ := hs.alike.allocFunction hw hw' ht (hs.tight ht)
  have hsame : ∀ f k, Session.withHeap
      { s' with functions := s'.functions.push (.start f .function) } k =
        Session.withHeap { s with functions := s.functions.push (.start f .function) } k := by
    intro f k
    rw [hs.same]
    rfl
  refine ⟨halike, ?_⟩
  have hbegun := hsame (s'.heap.allocFunction (s'.host, s'.functions)).1
    (s'.heap.allocFunction (s'.host, s'.functions)).2
  rw [hhandle] at hbegun
  refine Eq.trans ?_ hbegun
  rw [← hhandle]
  rfl

/-- Twins stay twins when both end a function. -/
theorem endFunction (hs : s.Twins s') (horderly' : s'.Orderly) {ended : UInt8 × List Capture}
    (h : s.endFunction = .ok (ended, t)) :
    ∃ t', s'.endFunction = .ok (ended, t') ∧ t.Twins t' := by
  obtain ⟨constant, captures⟩ := ended
  obtain ⟨st, parent, rest, k, u, hfunctions, hcaptures, hmodify, rfl, hadd⟩ :=
    endFunction_eq_ok h
  have hfunctions' : s'.functions = ⟨st, parent :: rest⟩ := by
    rw [hs.same, functions_withHeap, hfunctions]
  obtain ⟨⟨⟨constant', captures'⟩, t'⟩, ht'⟩ := exists_endFunction horderly' hfunctions'
  obtain ⟨st', parent', rest', k', u', hsame, hcaptures', hmodify', rfl, hadd'⟩ :=
    endFunction_eq_ok ht'
  rw [hfunctions'] at hsame
  cases hsame
  obtain ⟨k₂, hk₂, halike⟩ := hs.alike.modifyFunction hmodify
  rw [hmodify'] at hk₂
  cases hk₂
  have hstored : Twins { s with functions := ⟨parent, rest⟩, heap := k }
      { s' with functions := ⟨parent, rest⟩, heap := k' } := by
    refine ⟨halike, ?_⟩
    rw [hs.same]
    rfl
  obtain ⟨t₂, ht₂, htwins⟩ := hstored.addConstant hadd
  rw [hadd'] at ht₂
  cases ht₂
  exact ⟨t', by rw [ht', hcaptures', hcaptures], htwins⟩

end Session.Twins

/-- Where nothing is garbage, every action does the same in twins. -/
theorem Action.twins {β : Type} (a : Action β) {b : β} (hs : s.Twins s')
    (ht : s.heap.Tight (roots (s.host, s.functions))) (horderly : s.Orderly)
    (horderly' : s'.Orderly) (h : a.apply s = .ok (b, t)) :
    ∃ t', a.apply s' = .ok (b, t') ∧ t.Twins t' := by
  have hw := horderly.sound.wf
  have hw' := horderly'.sound.wf
  have hprevious : s'.previous = s.previous := by
    rw [hs.same]
    rfl
  have hfunctions : s'.functions = s.functions := by
    rw [hs.same]
    rfl
  by_cases ha : a.Allocates
  · cases a with
    | loadString =>
        obtain ⟨u, hu, h⟩ := bind_eq_ok.mp h
        cases h
        obtain ⟨text, htext, hload⟩ := bind_eq_ok.mp hu
        cases hload
        obtain ⟨hhandle, htwins⟩ := hs.intern ht hw hw' text
        refine ⟨(s'.intern text).2.load (.string (s'.intern text).1), ?_, ?_⟩
        · rw [Action.apply, Session.loadString, hprevious, htext]
          rfl
        · rw [hhandle]
          exact htwins.load _
    | nameConstant =>
        obtain ⟨hhandle, htwins⟩ := hs.intern ht hw hw' s.previous.lexeme
        obtain ⟨t', ht', htwins'⟩ :=
          htwins.addConstant (v := .string (s.intern s.previous.lexeme).1) h
        refine ⟨t', ?_, htwins'⟩
        rw [Action.apply, Session.nameConstant, hprevious]
        rw [← hhandle] at ht'
        exact ht'
    | beginFunction =>
        cases h
        exact ⟨_, rfl, hs.beginFunction ht hw hw'⟩
    | nameFunction =>
        obtain ⟨u, hu, h⟩ := bind_eq_ok.mp h
        cases h
        obtain ⟨hhandle, htwins⟩ := hs.intern ht hw hw' s.previous.lexeme
        have hnamed : (s.intern s.previous.lexeme).2.changeHeap
            (·.modifyFunction s.functions.current.function fun o =>
              { o with name := some (s.intern s.previous.lexeme).1 }) = .ok t := hu
        obtain ⟨t', ht', htwins'⟩ := htwins.changeHeap hnamed
        refine ⟨t', ?_, htwins'⟩
        rw [← hhandle] at ht'
        have hname : s'.nameFunction = .ok t' := by
          rw [Session.nameFunction, hprevious, hfunctions]
          exact ht'
        rw [Action.apply, hname]
        rfl
    | endFunction => exact hs.endFunction horderly' h
    | _ => exact ha.elim
  · have happly := apply_withHeap ha h s'.heap
    rw [← hs.same] at happly
    exact ⟨_, happly, .of_withHeap (heap_of_not_allocates ha h ▸ hs.alike)⟩

/-- Where nothing on the way is garbage, every compilation does the same in twins. -/
theorem CompileM.twins {α : Type} (m : CompileM α) {a : α} (hs : s.Twins s')
    (horderly : s.Orderly) (horderly' : s'.Orderly)
    (ht : ∀ u, m.Visits s u → u.heap.Tight (roots (u.host, u.functions)))
    (h : m.run s = .ok (a, t)) : ∃ t', m.run s' = .ok (a, t') ∧ t.Twins t' := by
  induction m generalizing s s' t with
  | done result =>
      cases result with
      | error fault => cases h
      | ok b =>
          cases h
          exact ⟨s', rfl, hs⟩
  | ask q =>
      cases h
      refine ⟨s', ?_, hs⟩
      rw [hs.same]
      cases q <;> rfl
  | act action => exact action.twins hs (ht s (Or.inl rfl)) horderly horderly' h
  | chain first next ihFirst ihNext =>
      rw [run] at h
      split at h
      next b u hfirst =>
        obtain ⟨u', hfirst', hu⟩ := ihFirst hs horderly horderly' (fun v hv => ht v (Or.inl hv))
          hfirst
        obtain ⟨t', hnext', htwins⟩ := ihNext b hu (first.orderly horderly hfirst)
          (first.orderly horderly' hfirst') (fun v hv => ht v (Or.inr ⟨b, u, hfirst, hv⟩)) h
        exact ⟨t', by rw [run, hfirst']; exact hnext', htwins⟩
      next => cases h
  | part phrase body ih => exact ih hs horderly horderly' ht h

end LoxBytecode
