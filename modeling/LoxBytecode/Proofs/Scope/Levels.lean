import LoxBytecode.Proofs.Session.Bounds

/-!
# The Levels of a Stack

The functions being compiled can be counted from the outermost inwards: the script is at level 0.
The search for a capture is written here with levels for indices (`FunctionStack.resolveAt`). From
whatever level it begins, it is the same search, and it indexes no level that is not there
(`resolveAt_append`). The functions further in than that level have no part in it
(`exists_resolveUpvalueAt`).
-/

namespace LoxBytecode

namespace FunctionStack

/-- The functions of a stack by their levels: the script's is 0. -/
def levels (s : FunctionStack) : List FunctionState :=
  s.states.reverse

/-- The function at a level. -/
def stateAt (states : List FunctionState) (level : Nat) : Checked FunctionState :=
  match states[level]? with
  | some st => .ok st
  | none => .error .indexOutOfBounds

/-- Record a capture in the function at a level. The index that it has there is one byte. -/
def addUpvalueAt (states : List FunctionState) (level : Nat) (c : Capture) :
    Checked (Except ScopeError (Option Nat) × List FunctionState) := do
  let st ← stateAt states level
  match st.addUpvalue c with
  | (.error e, st) => return (.error e, states.set level st)
  | (.ok index, st) =>
    let _ ← narrow index
    return (.ok (some index), states.set level st)

/-- Mark the local in a slot of the function at a level. -/
def captureAt (states : List FunctionState) (level slot : Nat) : Checked (List FunctionState) := do
  let st ← stateAt states level
  if slot < st.locals.length then return states.set level (st.capture slot)
  else throw .indexOutOfBounds

/-- Resolve a name as a variable of a function around the one at a level. -/
def resolveAt (name : String) :
    Nat → List FunctionState → Checked (Except ScopeError (Option Nat) × List FunctionState)
  | 0, states => .ok (.ok none, states)
  | parent + 1, states => do
    let outer ← stateAt states parent
    match outer.resolveLocal name with
    | .error e => return (.error e, states)
    | .ok (some slot) =>
      let _ ← narrow slot
      let states ← captureAt states parent slot
      addUpvalueAt states (parent + 1) ⟨true, slot⟩
    | .ok none =>
      match ← resolveAt name parent states with
      | (.ok (some index), states) => addUpvalueAt states (parent + 1) ⟨false, index⟩
      | result => return result

variable {name : String} {states after : List FunctionState} {st : FunctionState}

/-- The state of a level is found at its place. -/
theorem stateAt_append : stateAt (states ++ st :: after) states.length = .ok st := by
  rw [stateAt, List.getElem?_append_right (Nat.le_refl _), Nat.sub_self]
  rfl

/-- The state of a level is replaced at its place. -/
theorem set_append (st' : FunctionState) :
    (states ++ st :: after).set states.length st' = states ++ st' :: after := by
  rw [List.set_append_right _ _ (Nat.le_refl _), Nat.sub_self]
  rfl

/-- The index of a capture is one byte. -/
theorem lt_of_addUpvalue {c : Capture} {index : Nat} (hst : st.Fits)
    (h : (st.addUpvalue c).1 = .ok index) : index < 256 := by
  rw [FunctionState.addUpvalue] at h
  split at h
  next i hi =>
    cases h
    exact Nat.lt_of_lt_of_le (List.idxOf?_eq_some_iff.mp hi).1 hst.upvalues
  next =>
    split at h <;> cases h
    next hroom => exact hroom

/-- A slot that is found fits a byte. -/
theorem lt_of_resolveLocal {slot : Nat} (hst : st.Fits)
    (h : st.resolveLocal name = .ok (some slot)) : slot < 256 :=
  Nat.lt_of_lt_of_le (FunctionState.lt_of_resolveLocal h) hst.locals

/-- A capture is added to the function of its level and to no other. -/
theorem addUpvalueAt_append (states after : List FunctionState) (hst : st.Fits) (c : Capture) :
    addUpvalueAt (states ++ st :: after) states.length c =
      .ok ((st.addUpvalue c).1.map some, states ++ (st.addUpvalue c).2 :: after) := by
  rw [addUpvalueAt, stateAt_append, ok_bind]
  rcases hadd : st.addUpvalue c with ⟨e | index, st'⟩
  · exact congrArg (fun l => Except.ok (_, l)) (set_append st')
  · have hindex := lt_of_addUpvalue hst (congrArg Prod.fst hadd)
    simp only [narrow_eq_ok hindex, ok_bind]
    exact congrArg (fun l => Except.ok (_, l)) (set_append st')

/-- A local is marked in the function of its level and in no other. -/
theorem captureAt_append {slot : Nat} (hslot : slot < st.locals.length) :
    captureAt (states ++ st :: after) states.length slot =
      .ok (states ++ st.capture slot :: after) := by
  rw [captureAt, stateAt_append, ok_bind, if_pos hslot, set_append]
  rfl

/-- Levels for indices or not, the search is the same, and no level is missing. -/
theorem resolveAt_append (name : String) (after : List FunctionState) {inner : FunctionState}
    {outers : List FunctionState} (hinner : inner.Fits) (houters : ∀ st ∈ outers, st.Fits) :
    resolveAt name outers.length (outers.reverse ++ inner :: after) =
      .ok ((resolveCapture name inner outers).1,
        (resolveCapture name inner outers).2.2.reverse ++
          (resolveCapture name inner outers).2.1 :: after) := by
  induction outers generalizing inner after with
  | nil => rfl
  | cons outer rest ih =>
      obtain ⟨houter, hrest⟩ := List.forall_mem_cons.mp houters
      have hlevels (outer' : FunctionState) : (outer' :: rest).reverse ++ inner :: after =
          rest.reverse ++ outer' :: inner :: after := by
        rw [List.reverse_cons, List.append_assoc, List.singleton_append]
      have hparent : stateAt ((outer :: rest).reverse ++ inner :: after) rest.length =
          .ok outer := by
        rw [hlevels, ← List.length_reverse]
        exact stateAt_append
      rw [List.length_cons, resolveAt, hparent, ok_bind, resolveCapture]
      cases hlocal : outer.resolveLocal name with
      | error e => rfl
      | ok found =>
          cases found with
          | some slot =>
              have hcapture : captureAt ((outer :: rest).reverse ++ inner :: after) rest.length
                  slot = .ok ((outer.capture slot :: rest).reverse ++ inner :: after) := by
                rw [hlevels, hlevels, ← List.length_reverse]
                exact captureAt_append (FunctionState.lt_of_resolveLocal hlocal)
              have hadd := addUpvalueAt_append (outer.capture slot :: rest).reverse after hinner
                ⟨true, slot⟩
              rw [List.length_reverse, List.length_cons] at hadd
              simp only [narrow_eq_ok (lt_of_resolveLocal houter hlocal), ok_bind, hcapture]
              exact hadd
          | none =>
              have hih : resolveAt name rest.length (rest.reverse ++ outer :: inner :: after) = _ :=
                ih _ houter hrest
              have hlength : (resolveCapture name outer rest).2.2.length = rest.length :=
                (resolveCapture_spec name outer rest).outers_grow.length_eq.symm
              rcases hres : resolveCapture name outer rest with ⟨found, outer', rest'⟩
              rw [hres] at hih hlength
              have hadd (c : Capture) := addUpvalueAt_append (outer' :: rest').reverse after
                hinner c
              rw [List.length_reverse, List.length_cons, hlength, List.reverse_cons,
                List.append_assoc] at hadd
              rw [hlevels, hih, ok_bind]
              rcases found with e | (- | index)
              · exact congrArg (fun states => Except.ok (_, states)) (by simp)
              · exact congrArg (fun states => Except.ok (_, states)) (by simp)
              · simpa using hadd ⟨false, index⟩

/-- From the level of the current function the search indexes no level that is not there. -/
theorem resolveAt_levels {s : FunctionStack} (hs : ∀ st ∈ s.states, st.Fits) (name : String) :
    resolveAt name s.level s.levels =
      .ok ((s.resolveUpvalue name).1, (s.resolveUpvalue name).2.levels) := by
  obtain ⟨hcurrent, henclosing⟩ := List.forall_mem_cons.mp hs
  have h := resolveAt_append name [] hcurrent henclosing
  rw [levels, levels, states, states, List.reverse_cons, List.reverse_cons]
  exact h

/-! ### Searches from any level -/

/-- A stack is known by its levels. -/
theorem levels_injective : Function.Injective levels := by
  rintro ⟨current, enclosing⟩ ⟨current', enclosing'⟩ h
  obtain ⟨rfl, rfl⟩ := List.cons_eq_cons.mp (List.reverse_injective h)
  rfl

/-- The functions in front of the one that the search begins at are left as they are. -/
theorem resolveCaptureOut_append (name : String) {before outers enclosing : List FunctionState}
    {inner current : FunctionState} (h : current :: enclosing = before ++ inner :: outers) :
    (resolveCaptureOut name before.length current enclosing).1 =
        (resolveCapture name inner outers).1 ∧
      (resolveCaptureOut name before.length current enclosing).2.1 ::
          (resolveCaptureOut name before.length current enclosing).2.2 =
        before ++ (resolveCapture name inner outers).2.1 ::
          (resolveCapture name inner outers).2.2 := by
  induction before generalizing current enclosing with
  | nil =>
      obtain ⟨rfl, rfl⟩ := List.cons_eq_cons.mp h
      rw [List.length_nil, resolveCaptureOut]
      · exact ⟨rfl, rfl⟩
      · rintro n outer rest ⟨⟩
  | cons b before ih =>
      obtain ⟨rfl, henclosing⟩ := List.cons_eq_cons.mp h
      cases enclosing with
      | nil => simp at henclosing
      | cons outer rest =>
          obtain ⟨hfound, hstates⟩ := ih henclosing
          rw [List.length_cons, resolveCaptureOut]
          exact ⟨hfound, congrArg (current :: ·) hstates⟩

/-- Looking a name up from a level is looking it up in the function there. -/
theorem exists_resolveUpvalueAt (name : String) {s : FunctionStack} {inner : FunctionState}
    {outers after : List FunctionState} (h : s.levels = outers.reverse ++ inner :: after) :
    ∃ t, s.resolveUpvalueAt outers.length name = .ok ((resolveCapture name inner outers).1, t) ∧
      t.levels = (resolveCapture name inner outers).2.2.reverse ++
        (resolveCapture name inner outers).2.1 :: after := by
  obtain ⟨current, enclosing⟩ := s
  have hstates : current :: enclosing = after.reverse ++ inner :: outers := by
    have hreverse := congrArg List.reverse h
    rwa [levels, List.reverse_reverse, List.reverse_append, List.reverse_cons,
      List.reverse_reverse, List.append_assoc, List.singleton_append] at hreverse
  have hlength := congrArg List.length hstates
  rw [List.length_cons, List.length_append, List.length_cons] at hlength
  have hlevel : outers.length ≤ enclosing.length := by omega
  have hout : enclosing.length - outers.length = after.reverse.length := by omega
  obtain ⟨hfound, hafter⟩ := resolveCaptureOut_append name hstates
  rw [resolveUpvalueAt, level, if_pos hlevel]
  dsimp only
  rw [hout, ← hfound]
  refine ⟨_, rfl, ?_⟩
  rw [levels, states, hafter]
  simp

end FunctionStack

end LoxBytecode
