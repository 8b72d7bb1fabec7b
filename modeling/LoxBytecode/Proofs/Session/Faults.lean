import LoxBytecode.Proofs.Compile.Forms
import LoxBytecode.Proofs.Session.Sound

/-!
# Faults of a Compilation

A compilation can end with a fault in two ways: by itself, or in an action. By itself it only
gives up its budget, or refuses an operand or a jump; only actions read the heap. And on a sound
session no action reads a handle that was freed. So no compilation that starts in a sound
session does (`CompileM.run_ne_freed`).
-/

namespace LoxBytecode

open Heap

/-- The fault is not that of reading a freed handle. -/
structure Fault.NotFreed (fault : Fault) : Prop where
  string : fault ≠ .freedString
  function : fault ≠ .freedFunction

/-- A compilation never ends by itself with the fault of a freed handle. -/
theorem Fault.Own.notFreed {fault : Fault} (h : fault.Own) : fault.NotFreed := by
  constructor
  all_goals
    rintro rfl
    exact h

/-! ### Faults of actions -/

namespace Session

variable {kept : List Value} {s : Session} {fault : Fault}

/-- Adding a constant reads no handle. -/
theorem notFreed_of_addConstant {v : Value} (h : s.addConstant v = .error fault) :
    fault.NotFreed := by
  simp only [addConstant] at h
  split at h
  · rcases bind_eq_error.mp h with hnarrow | ⟨_, _, h⟩
    · exact (own_of_narrow hnarrow).notFreed
    · cases h
  · cases h

/-- Filling in a distance reads no handle. -/
theorem notFreed_of_patchJump {offset : Nat} (h : s.patchJump offset = .error fault) :
    fault.NotFreed := by
  simp only [patchJump] at h
  split at h
  · cases h
    exact ⟨by decide, by decide⟩
  · split at h
    · split at h
      next => cases h
      next fault' hpatch =>
        cases h
        rw [Chunk.patch16] at hpatch
        split at hpatch <;> cases hpatch
        exact ⟨by decide, by decide⟩
    · cases h

/-- Loading a string reads no handle. -/
theorem notFreed_of_loadString (h : s.loadString = .error fault) : fault.NotFreed := by
  rcases bind_eq_error.mp h with hunquote | ⟨_, _, h⟩
  · rw [unquote] at hunquote
    split at hunquote <;> cases hunquote
    exact ⟨by decide, by decide⟩
  · cases h

/-- Leaving a scope reads no handle. -/
theorem notFreed_of_endScope (h : s.endScope = .error fault) : fault.NotFreed := by
  rcases bind_eq_error.mp h with hscope | ⟨_, _, h⟩
  · rw [FunctionState.endScope] at hscope
    split at hscope <;> cases hscope
    exact ⟨by decide, by decide⟩
  · cases h

/-- Changing a live function does not fail. -/
theorem changeHeap_ne_error {f : FunctionHandle} (hlive : s.heap.Live (.function f))
    {change : FunctionObject → FunctionObject} :
    s.changeHeap (·.modifyFunction f change) ≠ .error fault := by
  obtain ⟨h', hmodify⟩ := exists_modifyFunction hlive change
  rw [changeHeap, hmodify]
  rintro ⟨⟩

/-- The current function is in the heap, so it can be named. -/
theorem nameFunction_ne_error (hs : s.Sound kept) : s.nameFunction ≠ .error fault := by
  have hintern := Preserves.intern hs s.previous.lexeme
  exact changeHeap_ne_error (hintern.sound.live_handle (List.mem_cons_self ..))

/-- A live function whose name is live can be displayed. -/
theorem display_ne_error {h : Heap} {f : FunctionHandle} (hclosed : h.Closed [.function f]) :
    h.display (.function f) ≠ .error fault := by
  have hroot : h.Reach [.function f] (.function f) := .root (List.mem_singleton.mpr rfl)
  obtain ⟨o, ho⟩ := live_function_iff.mp (hclosed _ hroot)
  simp only [display, Heap.function, ho, ok_bind, displayFunction]
  cases hname : o.name with
  | none => rintro ⟨⟩
  | some name =>
      obtain ⟨text, htext⟩ :=
        live_string_iff.mp (hclosed _ (.child hroot ho (mem_children_of_name hname)))
      simp only [Heap.string, htext, ok_bind]
      rintro ⟨⟩

/-- The function that ends is in the heap, and so is all that is displayed of it. -/
theorem notFreed_of_endFunction (hs : s.Sound kept) (h : s.endFunction = .error fault) :
    fault.NotFreed := by
  rw [endFunction] at h
  rcases hfunctions : s.functions with ⟨st, - | ⟨parent, rest⟩⟩
  · rw [hfunctions] at h
    cases h
    exact ⟨by decide, by decide⟩
  · have hst : st ∈ s.functions.states := by
      rw [hfunctions]
      exact List.mem_cons_self ..
    have hhandle : st.function ∈ s.functions.handles :=
      List.mem_map_of_mem (List.mem_map_of_mem hst)
    rw [hfunctions] at h
    simp only [FunctionStack.pop?] at h
    cases hstore : store { s with functions := ⟨parent, rest⟩ } st with
    | error fault' =>
        exact absurd hstore (changeHeap_ne_error (s := { s with functions := ⟨parent, rest⟩ })
          (hs.live_handle hhandle))
    | ok u =>
        obtain ⟨h', hmodify, rfl⟩ := changeHeap_eq_ok hstore
        have hclosed : h'.Closed [.function st.function] := by
          refine (Preserves.store hs hst hmodify).sound.closed.of_subset fun v hv => ?_
          obtain rfl := List.mem_singleton.mp hv
          exact .root (List.mem_append_right _
            (FunctionStack.mem_roots_iff.mpr (Or.inl ⟨_, hhandle, rfl⟩)))
        rw [hstore, ok_bind] at h
        cases hdisplay : h'.display (.function st.function) with
        | error fault' => exact absurd hdisplay (display_ne_error hclosed)
        | ok text =>
            simp only [hdisplay, ok_bind] at h
            rcases bind_eq_error.mp h with hadd | ⟨_, _, h⟩
            · exact notFreed_of_addConstant hadd
            · cases h

end Session

/-- No action on a sound session reads a freed handle. -/
theorem Action.notFreed {β : Type} (a : Action β) {kept : List Value} {s : Session}
    {fault : Fault} (hs : s.Sound kept) (h : a.apply s = .error fault) : fault.NotFreed := by
  cases a with
  | advance | fail | failHere | resume | emit | loadNumber | beginScope | declare
  | markInitialized | findUpvalue | beginFunction | countParameter => cases h
  | patchJump offset =>
      rcases bind_eq_error.mp h with h | ⟨_, _, h⟩
      · exact Session.notFreed_of_patchJump h
      · cases h
  | loadString =>
      rcases bind_eq_error.mp h with h | ⟨_, _, h⟩
      · exact Session.notFreed_of_loadString h
      · cases h
  | nameConstant => exact Session.notFreed_of_addConstant h
  | endScope => exact Session.notFreed_of_endScope h
  | nameFunction =>
      rcases bind_eq_error.mp h with h | ⟨_, _, h⟩
      · exact absurd h (Session.nameFunction_ne_error hs)
      · cases h
  | endFunction => exact Session.notFreed_of_endFunction hs h

/-! ### Faults of compilations -/

namespace CompileM

/-- Every fault that a compilation ends with by itself, and not in an action, is none of reading
a freed handle. -/
abbrev OwnNotFreed {α : Type} (m : CompileM α) : Prop :=
  m.Only Fault.NotFreed fun _ => True

/-- A run that starts in a sound session reads no freed handle. -/
theorem run_ne_freed {α : Type} {m : CompileM α} (hm : m.OwnNotFreed) {kept : List Value}
    {s : Session} {fault : Fault} (hs : s.Sound kept) (h : m.run s = .error fault) :
    fault.NotFreed := by
  induction m generalizing s with
  | done result =>
      cases result with
      | error fault' =>
          cases h
          exact hm
      | ok a => cases h
  | ask q => cases h
  | act a => exact a.notFreed hs h
  | chain first next ihFirst ihNext =>
      rw [run] at h
      split at h
      next b u hfirst => exact ihNext b (hm.2 b) (first.preserves hs hfirst).sound h
      next fault' hfirst =>
        cases h
        exact ihFirst hm.1 hs hfirst
  | part phrase body ih => exact ih hm hs h

/-- The faults of a compilation's own are those of its parts. -/
theorem compositional_ownNotFreed : Compositional Action.OfDeclaration OwnNotFreed :=
  compositional_only (fun _ => Fault.Own.notFreed) fun _ => trivial

/-- None of a function's own faults is that of a freed handle. -/
theorem ownNotFreed_function {declaration : CompileM Unit} (budget : Nat)
    (hdeclaration : declaration.OwnNotFreed) : (function declaration budget).OwnNotFreed :=
  ⟨trivial, fun _ => ⟨trivial, fun _ =>
    compositional_ownNotFreed.behindName hdeclaration trivial budget⟩⟩

/-- None of a script's own faults is that of a freed handle. -/
theorem ownNotFreed_script (budget : Nat) : (script budget).OwnNotFreed :=
  ⟨trivial, fun _ =>
    ⟨compositional_ownNotFreed.declarations trivial ownNotFreed_function budget, fun _ =>
      compositional_ownNotFreed.ofExpression.emitAll _⟩⟩

end CompileM

end LoxBytecode
