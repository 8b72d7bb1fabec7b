import LoxBytecode.Proofs.Session.Bounds
import LoxBytecode.Proofs.Session.Marks

/-!
# Functions that Wait

While a function is compiled, those around it wait. All that the search for captures does to them
is mark locals and add captures, and to the outermost one, the script, it adds none (`AllWait`). No
other action reaches them before the function ends: they lie at the bottom of the stack, below the
function and all that were begun inside it (`Below`).
-/

namespace LoxBytecode

/-! ### What happens to functions that wait -/

namespace FunctionState

/-- What can happen to a function while an inner one is compiled: it grows, and a local that was
marked as captured stays marked. -/
structure Waits (st st' : FunctionState) : Prop extends st.Grows st' where
  marks : List.Forall₂ (fun l l' => l.captured = true → l'.captured = true) st.locals st'.locals

variable {st st' st'' : FunctionState}

/-- A function that stays as it is waits. -/
theorem Waits.refl (st : FunctionState) : st.Waits st :=
  ⟨.refl st, List.forall₂_same.mpr fun _ _ => id⟩

/-- Waiting after waiting is waiting. -/
theorem Waits.trans (h₁ : st.Waits st') (h₂ : st'.Waits st'') : st.Waits st'' := by
  refine ⟨h₁.toGrows.trans h₂.toGrows, ?_⟩
  have hmarks₁ := h₁.marks
  have hmarks₂ := h₂.marks
  generalize st.locals = ls, st'.locals = ls', st''.locals = ls'' at hmarks₁ hmarks₂
  induction hmarks₁ generalizing ls'' with
  | nil => exact hmarks₂
  | cons hmark _ ih =>
      cases hmarks₂ with
      | cons hmark' hrest => exact .cons (hmark' ∘ hmark) (ih _ hrest)

/-- Adding a capture leaves the locals alone. -/
theorem waits_addUpvalue (st : FunctionState) (c : Capture) : st.Waits (st.addUpvalue c).2 := by
  rw [st.addUpvalue_eq c]
  exact ⟨⟨rfl, rfl, rfl, rfl, rfl, rfl, st.prefix_addUpvalue c⟩, (Waits.refl st).marks⟩

/-- Marking takes no mark away. -/
theorem marks_markAll (cs : List Capture) (ls : List Local) :
    List.Forall₂ (fun l l' => l.captured = true → l'.captured = true) ls (markAll cs ls) := by
  induction ls with
  | nil => exact .nil
  | cons l ls ih => exact .cons (fun hl => by simp [hl]) ih

/-- A function waits while one of its locals is captured. -/
theorem waits_capture (st : FunctionState) (slot : Nat) : st.Waits (st.capture slot) :=
  ⟨st.grows_capture slot, st.locals_capture slot ▸ marks_markAll _ _⟩

end FunctionState

/-- What can happen to functions that wait, innermost first: the last of them, the script, gets no
captures. -/
inductive AllWait : List FunctionState → List FunctionState → Prop
  | nil : AllWait [] []
  | script {st st' : FunctionState} : st.Waits st' → st'.upvalues = st.upvalues →
      AllWait [st] [st']
  | cons {st st' outer outer' : FunctionState} {rest rest' : List FunctionState} : st.Waits st' →
      AllWait (outer :: rest) (outer' :: rest') →
        AllWait (st :: outer :: rest) (st' :: outer' :: rest')

namespace AllWait

variable {st st' : FunctionState} {outers outers' outers'' rest rest' : List FunctionState}

/-- Functions that stay as they are all wait. -/
theorem refl (outers : List FunctionState) : AllWait outers outers := by
  induction outers with
  | nil => exact .nil
  | cons st outers ih =>
      cases outers with
      | nil => exact .script (.refl st) rfl
      | cons => exact .cons (.refl st) ih

/-- Functions that wait first and then wait have waited all the time. -/
theorem trans (h₁ : AllWait outers outers') (h₂ : AllWait outers' outers'') :
    AllWait outers outers'' := by
  induction h₁ generalizing outers'' with
  | nil => exact h₂
  | script hwaits hupvalues =>
      cases h₂ with
      | script hwaits' hupvalues' =>
          exact .script (hwaits.trans hwaits') (hupvalues'.trans hupvalues)
  | cons hwaits _ ih =>
      cases h₂ with
      | cons hwaits' hrest => exact .cons (hwaits.trans hwaits') (ih hrest)

/-- Of functions that all wait the first does. -/
theorem head (h : AllWait (st :: rest) (st' :: rest')) : st.Waits st' := by
  cases h with
  | script hwaits | cons hwaits => exact hwaits

/-- Of functions that all wait those behind the first do. -/
theorem tail (h : AllWait (st :: rest) (st' :: rest')) : AllWait rest rest' := by
  cases h with
  | script => exact .nil
  | cons _ hrest => exact hrest

end AllWait

/-- Where there is a function around, a function may get a capture. -/
theorem allWait_addUpvalue {inner outer outer' : FunctionState} {rest rest' : List FunctionState}
    (c : Capture) (h : AllWait (outer :: rest) (outer' :: rest')) :
    AllWait (inner :: outer :: rest) ((inner.addUpvalue c).2 :: outer' :: rest') :=
  .cons (inner.waits_addUpvalue c) h

/-- The search for a capture marks locals and adds captures, but none to the last function. -/
theorem allWait_resolveCapture (name : String) (inner : FunctionState)
    (outers : List FunctionState) :
    AllWait (inner :: outers) ((resolveCapture name inner outers).2.1 ::
      (resolveCapture name inner outers).2.2) := by
  induction outers generalizing inner with
  | nil => exact .refl [inner]
  | cons outer rest ih =>
      rw [resolveCapture]
      cases hlocal : outer.resolveLocal name with
      | error e => exact .refl _
      | ok found =>
          cases found with
          | some slot =>
              refine allWait_addUpvalue ⟨true, slot⟩ ?_
              have hupvalues := outer.upvalues_capture slot
              cases rest with
              | nil => exact .script (outer.waits_capture slot) hupvalues
              | cons => exact .cons (outer.waits_capture slot) (.refl _)
          | none =>
              have hrest := ih outer
              rcases hres : resolveCapture name outer rest with ⟨e | (- | index), outer', rest'⟩ <;>
                rw [hres] at hrest
              · exact .cons (.refl inner) hrest
              · exact .cons (.refl inner) hrest
              · exact allWait_addUpvalue ⟨false, index⟩ hrest

/-! ### The bottom of the stack -/

/-- Some functions wait below others: below `n` that are at the front, and below the function of
a handle. -/
def Below (outers : List FunctionState) (f : FunctionHandle) :
    Nat → List FunctionState → Prop
  | 0, st :: rest => st.function = f ∧ AllWait outers rest
  | n + 1, _ :: rest => Below outers f n rest
  | _, [] => False

namespace Below

variable {outers states states' rest : List FunctionState} {f : FunctionHandle} {n : Nat}
  {st st' : FunctionState}

/-- There is a function above those that wait. -/
theorem ne_nil (h : Below outers f n states) : states ≠ [] := by
  rintro rfl
  cases n <;> exact h

/-- What happens to the function at the front does not reach them. -/
theorem front (h : Below outers f n (st :: rest)) (hfunction : st'.function = st.function) :
    Below outers f n (st' :: rest) := by
  cases n with
  | zero => exact ⟨hfunction.trans h.1, h.2⟩
  | succ => exact h

/-- Functions below the current one are below as before while all functions wait. -/
theorem waits (h : Below outers f n states) (hwaits : AllWait states states') :
    Below outers f n states' := by
  induction n generalizing states states' with
  | zero =>
      obtain ⟨st, rest, rfl⟩ := List.exists_cons_of_ne_nil h.ne_nil
      cases states' with
      | nil => cases hwaits
      | cons st' rest' =>
          have hfunction : st'.function = st.function := congrArg Prod.fst hwaits.head.core
          exact ⟨hfunction.trans h.1, h.2.trans hwaits.tail⟩
  | succ n ih =>
      obtain ⟨st, rest, rfl⟩ := List.exists_cons_of_ne_nil h.ne_nil
      cases states' with
      | nil => cases hwaits
      | cons st' rest' => exact ih h hwaits.tail

/-- The functions below are the last ones around the one at the front. -/
theorem exists_append (h : Below outers f n (st :: rest)) :
    ∃ inner held, rest = inner ++ held ∧ AllWait outers held := by
  induction n generalizing st rest with
  | zero => exact ⟨[], rest, rfl, h.2⟩
  | succ n ih =>
      have hrest : Below outers f n rest := h
      obtain ⟨st', rest, rfl⟩ := List.exists_cons_of_ne_nil hrest.ne_nil
      obtain ⟨inner, held, rfl, hheld⟩ := ih hrest
      exact ⟨st' :: inner, held, rfl, hheld⟩

end Below

/-! ### Actions -/

/-- What an action does to the number of functions that a compilation is in: `n` of them become a
number with a property. -/
def Action.Levels {β : Type} (P : Nat → Prop) (n : Nat) : Action β → Prop
  | .beginFunction => P (n + 1)
  | .endFunction => ∃ k, n = k + 1 ∧ P k
  | _ => P n

section

variable {s t : Session} {outers : List FunctionState} {f : FunctionHandle} {n : Nat}

/-- A change of the current function leaves those below it alone. -/
theorem Below.of_current (h : Below outers f n s.functions.states) {st : FunctionState}
    (hfunctions : t.functions = ⟨st, s.functions.enclosing⟩)
    (hfunction : st.function = s.functions.current.function) :
    Below outers f n t.functions.states := by
  rw [hfunctions]
  exact h.front hfunction

/-- What changes no function leaves those below the current one alone. -/
theorem Below.of_functions (h : Below outers f n s.functions.states)
    (hfunctions : t.functions = s.functions) : Below outers f n t.functions.states :=
  h.of_current hfunctions rfl

/-- Loading a value leaves the functions below alone. -/
theorem Below.load (h : Below outers f n s.functions.states) (v : Value) :
    Below outers f n (s.load v).functions.states := by
  rw [Session.load]
  split
  · exact h.of_functions (Session.functions_report ..)
  · exact h.of_current rfl rfl

/-- Adding a constant leaves the functions below alone. -/
theorem Below.addConstant (h : Below outers f n s.functions.states) {v : Value} {index : UInt8}
    (hadd : s.addConstant v = .ok (index, t)) : Below outers f n t.functions.states := by
  have hadded : Below outers f n
      (s.modifyChunk fun c => (c.addConstant v).2).functions.states := h.of_current rfl rfl
  exact hadded.of_functions (Session.functions_heap_addConstant hadd).1

/-- Filling in a distance leaves the functions below alone. -/
theorem Below.patchJump (h : Below outers f n s.functions.states) {offset : Nat}
    (hpatch : s.patchJump offset = .ok t) : Below outers f n t.functions.states := by
  rcases Session.patchJump_eq_ok hpatch with ⟨c, -, -, -, rfl⟩ | ⟨-, rfl⟩
  · exact h.of_current rfl rfl
  · exact h.of_functions (Session.functions_report ..)

/-- Declaring a local leaves the functions below alone. -/
theorem Below.declare (h : Below outers f n s.functions.states) :
    Below outers f n s.declare.functions.states := by
  rw [Session.declare]
  split
  next st hst => exact h.of_current rfl (congrArg Prod.fst (FunctionState.core_declareLocal hst))
  next => exact h.of_functions (Session.functions_report ..)

/-- No action reaches the functions that wait. -/
theorem Action.Levels.below {β : Type} {P : Nat → Prop} {a : Action β} {b : β}
    (ha : a.Levels P n) (h : Below outers f n s.functions.states)
    (hrun : a.apply s = .ok (b, t)) : ∃ k, P k ∧ Below outers f k t.functions.states := by
  cases a with
  | advance =>
      cases hrun
      exact ⟨n, ha, h.of_functions (Session.functions_advance s)⟩
  | fail | failHere =>
      cases hrun
      exact ⟨n, ha, h.of_functions (Session.functions_report ..)⟩
  | resume =>
      cases hrun
      exact ⟨n, ha, h⟩
  | emit | beginScope | countParameter =>
      cases hrun
      exact ⟨n, ha, h.of_current rfl rfl⟩
  | markInitialized =>
      cases hrun
      exact ⟨n, ha, h.of_current rfl
        (congrArg Prod.fst (FunctionState.core_markInitialized _))⟩
  | patchJump offset =>
      obtain ⟨u, hu, hrun⟩ := bind_eq_ok.mp hrun
      cases hrun
      exact ⟨n, ha, h.patchJump hu⟩
  | loadNumber =>
      cases hrun
      rw [Session.loadNumber]
      split
      · exact ⟨n, ha, h.load _⟩
      · exact ⟨n, ha, h.of_functions (Session.functions_report ..)⟩
  | loadString =>
      obtain ⟨u, hu, hrun⟩ := bind_eq_ok.mp hrun
      cases hrun
      obtain ⟨text, -, hu⟩ := bind_eq_ok.mp hu
      cases hu
      exact ⟨n, ha, Below.load (s := (s.intern text).2) h _⟩
  | nameConstant => exact ⟨n, ha, Below.addConstant (s := (s.intern s.previous.lexeme).2) h hrun⟩
  | endScope =>
      obtain ⟨⟨flags, st⟩, hst, hrun⟩ := bind_eq_ok.mp hrun
      cases hrun
      exact ⟨n, ha, h.of_current rfl (congrArg Prod.fst (FunctionState.core_endScope hst))⟩
  | declare =>
      cases hrun
      exact ⟨n, ha, h.declare⟩
  | findUpvalue =>
      cases hrun
      exact ⟨n, ha, h.waits (allWait_resolveCapture s.previous.lexeme s.functions.current
        s.functions.enclosing)⟩
  | beginFunction =>
      cases hrun
      exact ⟨n + 1, ha, h⟩
  | nameFunction =>
      obtain ⟨u, hu, hrun⟩ := bind_eq_ok.mp hrun
      cases hrun
      have hu : (s.intern s.previous.lexeme).2.changeHeap
          (·.setName s.functions.current.function (some (s.intern s.previous.lexeme).1)) =
            .ok t := hu
      obtain ⟨heap, -, rfl⟩ := Session.changeHeap_eq_ok hu
      exact ⟨n, ha, h⟩
  | endFunction =>
      obtain ⟨k, rfl, ha⟩ := ha
      obtain ⟨constant, captures⟩ := b
      obtain ⟨st, parent, rest, heap, u, hfunctions, -, -, rfl, hadd⟩ :=
        Session.endFunction_eq_ok hrun
      rw [hfunctions] at h
      exact ⟨k, ha, Below.addConstant
        (s := { s with functions := ⟨parent, rest⟩, heap := heap }) h hadd⟩

end

end LoxBytecode
