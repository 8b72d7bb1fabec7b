import LoxBytecode.Proofs.Session.Captures

/-!
# Marks

A local is marked when a function inside captures it, and the capture is noted in that function at
the same time, which may lie several levels further in. So while a function is compiled the
locals of the one around it change only by the marks of its captures. `Waiting` pairs the captures
of each function on the stack with the locals of the function around it, and `MarksOnly` says what
can happen to such a pair; the search for a capture does no more as long as it finds room for
what it notes (`marksOnly_resolveCapture`).
-/

namespace LoxBytecode

/-- Mark the locals that some captures come from. The slot of a local is the number of those
behind it. -/
def markAll (cs : List Capture) : List Local → List Local
  | [] => []
  | l :: ls => { l with captured := l.captured || cs.contains ⟨true, ls.length⟩ } :: markAll cs ls

variable {cs cs' : List Capture} {ls : List Local}

@[simp] theorem length_markAll : (markAll cs ls).length = ls.length := by
  induction ls with
  | nil => rfl
  | cons l ls ih => rw [markAll, List.length_cons, List.length_cons, ih]

@[simp] theorem markAll_nil : markAll [] ls = ls := by
  induction ls with
  | nil => rfl
  | cons l ls ih => simp [markAll, ih]

/-- Captures can be marked one part after the other. -/
theorem markAll_append : markAll (cs ++ cs') ls = markAll cs' (markAll cs ls) := by
  induction ls with
  | nil => rfl
  | cons l ls ih => simp [markAll, ih, Bool.or_assoc]

/-- Only which captures there are matters. -/
theorem markAll_congr (h : ∀ c, c ∈ cs ↔ c ∈ cs') : markAll cs ls = markAll cs' ls := by
  induction ls with
  | nil => rfl
  | cons l ls ih =>
      have hcontains : cs.contains ⟨true, ls.length⟩ = cs'.contains ⟨true, ls.length⟩ := by
        rw [Bool.eq_iff_iff, List.contains_iff_mem, List.contains_iff_mem]
        exact h _
      rw [markAll, markAll, hcontains, ih]

/-- The local in a slot is marked when a capture comes from that slot. -/
theorem getElem?_markAll (cs : List Capture) (ls : List Local) (slot : Nat) :
    (markAll cs ls).reverse[slot]? =
      ls.reverse[slot]?.map fun l =>
        { l with captured := l.captured || cs.contains ⟨true, slot⟩ } := by
  induction ls with
  | nil => rfl
  | cons l ls ih =>
      have hlength : (markAll cs ls).reverse.length = ls.reverse.length := by simp
      rw [markAll, List.reverse_cons, List.reverse_cons]
      rcases Nat.lt_trichotomy slot ls.reverse.length with hlt | heq | hgt
      · rw [List.getElem?_append_left (hlength ▸ hlt), List.getElem?_append_left hlt, ih]
      · obtain rfl : slot = ls.length := heq.trans List.length_reverse
        simp
      · have hle : ls.length + 1 ≤ slot := by simpa using Nat.succ_le_of_lt hgt
        rw [List.getElem?_eq_none (by simpa using hle), List.getElem?_eq_none (by simpa using hle)]
        rfl

/-- A slot that is not taken marks nothing. -/
theorem markAll_of_length_le {slot : Nat} (h : ls.length ≤ slot) :
    markAll [⟨true, slot⟩] ls = ls := by
  induction ls with
  | nil => rfl
  | cons l ls ih =>
      have hle : ls.length + 1 ≤ slot := h
      have hne : ls.length ≠ slot := by omega
      rw [markAll, ih (Nat.le_of_succ_le h)]
      simp [hne]

/-- Capturing a local marks it. -/
theorem FunctionState.locals_capture (st : FunctionState) (slot : Nat) :
    (st.capture slot).locals = markAll [⟨true, slot⟩] st.locals := by
  rw [capture]
  split
  next hslot =>
    show st.locals.modify _ _ = _
    generalize st.locals = ls at hslot
    induction ls with
    | nil => cases hslot
    | cons l ls ih =>
        rw [List.length_cons, Nat.add_sub_cancel, markAll]
        rcases Nat.lt_or_eq_of_le (Nat.le_of_lt_succ hslot) with hlt | rfl
        · have hrest := ih hlt
          obtain ⟨i, hi⟩ : ∃ i, ls.length - slot = i + 1 := ⟨ls.length - 1 - slot, by omega⟩
          have hi' : ls.length - 1 - slot = i := by omega
          rw [hi'] at hrest
          rw [hi, List.modify_succ_cons, hrest]
          have hne : ls.length ≠ slot := by omega
          simp [hne]
        · rw [Nat.sub_self, List.modify_zero_cons, markAll_of_length_le (Nat.le_refl _)]
          simp
  next hslot => rw [markAll_of_length_le (Nat.le_of_not_lt hslot)]

/-- Marking a local changes no table of captures. -/
theorem FunctionState.upvalues_capture (st : FunctionState) (slot : Nat) :
    (st.capture slot).upvalues = st.upvalues := by
  rw [capture]
  split <;> rfl

/-- What comes from a capture marks no local. -/
theorem markAll_of_not_isLocal {index : Nat} : markAll [⟨false, index⟩] ls = ls := by
  induction ls with
  | nil => rfl
  | cons l ls ih => simp [markAll, ih]

/-! ### Functions that wait -/

/-- The captures of each function with the locals of the one around it, innermost first. -/
def Waiting : List FunctionState → List (List Capture × List Local)
  | inner :: outer :: rest => (inner.upvalues, outer.locals) :: Waiting (outer :: rest)
  | _ => []

/-- What can happen to the captures of a function and the locals of the one around it: captures
are added, and their locals are marked. -/
def MarksOnly (p q : List Capture × List Local) : Prop :=
  ∃ new, (∀ c ∈ p.1, c ∈ q.1) ∧ (∀ c ∈ new, c ∈ q.1) ∧ (∀ c ∈ q.1, c ∈ p.1 ∨ c ∈ new) ∧
    q.2 = markAll new p.2

/-- Nothing is marked where nothing changes. -/
theorem MarksOnly.refl (p : List Capture × List Local) : MarksOnly p p :=
  ⟨[], fun _ => id, List.forall_mem_nil _, fun _ => Or.inl, markAll_nil.symm⟩

/-- What is marked by one step and the next is marked by both. -/
theorem MarksOnly.trans {p q r : List Capture × List Local} (h₁ : MarksOnly p q)
    (h₂ : MarksOnly q r) : MarksOnly p r := by
  obtain ⟨new₁, hkept₁, hnew₁, hall₁, hlocals₁⟩ := h₁
  obtain ⟨new₂, hkept₂, hnew₂, hall₂, hlocals₂⟩ := h₂
  refine ⟨new₁ ++ new₂, fun c hc => hkept₂ c (hkept₁ c hc), fun c hc => ?_, fun c hc => ?_, ?_⟩
  · rcases List.mem_append.mp hc with hc | hc
    · exact hkept₂ c (hnew₁ c hc)
    · exact hnew₂ c hc
  · rcases hall₂ c hc with hc | hc
    · exact (hall₁ c hc).imp_right (List.mem_append_left _)
    · exact Or.inr (List.mem_append_right _ hc)
  · rw [hlocals₂, hlocals₁, markAll_append]

/-- Nothing is marked in any function where nothing changes. -/
theorem forall₂_marksOnly_refl (ps : List (List Capture × List Local)) :
    List.Forall₂ MarksOnly ps ps :=
  List.forall₂_same.mpr fun p _ => .refl p

/-- What is marked in the functions by one step and the next is marked by both. -/
theorem forall₂_marksOnly_trans {ps qs rs : List (List Capture × List Local)}
    (h₁ : List.Forall₂ MarksOnly ps qs) (h₂ : List.Forall₂ MarksOnly qs rs) :
    List.Forall₂ MarksOnly ps rs := by
  induction h₁ generalizing rs with
  | nil => exact h₂
  | cons hmarks _ ih =>
      cases h₂ with
      | cons hmarks' hrest => exact .cons (hmarks.trans hmarks') (ih hrest)

/-- A function that began without captures marks just what it captures. -/
theorem MarksOnly.eq_markAll {q : List Capture × List Local} (h : MarksOnly ([], ls) q) :
    q.2 = markAll q.1 ls := by
  obtain ⟨new, -, hnew, hall, hlocals⟩ := h
  rw [hlocals]
  refine markAll_congr fun c => ⟨hnew c, fun hc => ?_⟩
  exact (hall c hc).resolve_left List.not_mem_nil

/-! ### Searches -/

/-- A capture that finds room is noted. -/
theorem FunctionState.mem_addUpvalue {st : FunctionState} {c : Capture} {index : Nat}
    (h : (st.addUpvalue c).1 = .ok index) : c ∈ (st.addUpvalue c).2.upvalues :=
  List.mem_of_getElem? (getElem?_of_addUpvalue h)

/-- Noting a capture adds that one at most. -/
theorem FunctionState.mem_or_eq_of_addUpvalue {st : FunctionState} {c c' : Capture}
    (h : c' ∈ (st.addUpvalue c).2.upvalues) : c' ∈ st.upvalues ∨ c' = c := by
  rcases st.upvalues_addUpvalue c with hsame | hadded
  · exact Or.inl (hsame ▸ h)
  · rw [hadded, List.mem_append, List.mem_singleton] at h
    exact h

/-- A function that notes a capture at most, and marks the local that it comes from. -/
theorem marksOnly_addUpvalue {inner outer outer' : FunctionState} {c : Capture} {index : Nat}
    (h : (inner.addUpvalue c).1 = .ok index) (houter : outer'.locals = markAll [c] outer.locals) :
    MarksOnly (inner.upvalues, outer.locals) ((inner.addUpvalue c).2.upvalues, outer'.locals) := by
  refine ⟨[c], fun c' hc' => (inner.prefix_addUpvalue c).subset hc', fun c' hc' => ?_,
    fun c' hc' => ?_, houter⟩
  · rw [List.mem_singleton.mp hc']
    exact FunctionState.mem_addUpvalue h
  · exact (FunctionState.mem_or_eq_of_addUpvalue hc').imp_right List.mem_singleton.mpr

/-- Of the function at the front only the captures wait. -/
theorem waiting_congr {st st' : FunctionState} {rest : List FunctionState}
    (h : st'.upvalues = st.upvalues) : Waiting (st' :: rest) = Waiting (st :: rest) := by
  cases rest with
  | nil => rfl
  | cons outer rest => rw [Waiting, Waiting, h]

/-- A search that finds room for its captures marks what it captures, in every function. -/
theorem marksOnly_resolveCapture {name : String} {inner : FunctionState}
    {outers : List FunctionState} {found : Option Nat}
    (h : (resolveCapture name inner outers).1 = .ok found) :
    List.Forall₂ MarksOnly (Waiting (inner :: outers))
      (Waiting ((resolveCapture name inner outers).2.1 ::
        (resolveCapture name inner outers).2.2)) := by
  induction outers generalizing inner found with
  | nil => exact .nil
  | cons outer rest ih =>
      rw [resolveCapture] at h ⊢
      cases hlocal : outer.resolveLocal name with
      | error e =>
          rw [hlocal] at h
          cases h
      | ok slot =>
          rw [hlocal] at h
          cases slot with
          | some slot =>
              obtain ⟨index, hindex⟩ : ∃ index, (inner.addUpvalue ⟨true, slot⟩).1 = .ok index := by
                cases hadded : (inner.addUpvalue ⟨true, slot⟩).1 with
                | error e =>
                    simp only [hadded] at h
                    cases h
                | ok index => exact ⟨index, rfl⟩
              refine .cons (marksOnly_addUpvalue hindex (outer.locals_capture slot)) ?_
              rw [waiting_congr (outer.upvalues_capture slot)]
              exact forall₂_marksOnly_refl _
          | none =>
              have hspec := resolveCapture_spec name outer rest
              rcases hres : resolveCapture name outer rest with ⟨found', outer', rest'⟩
              have hrest {found : Option Nat} := @ih outer found
              simp only [hres] at h hrest hspec ⊢
              have hlocals : outer'.locals = outer.locals := by rw [hspec.inner_eq]
              cases found' with
              | error e => cases h
              | ok index =>
                  have hwaits := hrest rfl
                  cases index with
                  | none =>
                      refine .cons ?_ hwaits
                      rw [hlocals]
                      exact .refl _
                  | some index =>
                      obtain ⟨i, hi⟩ : ∃ i, (inner.addUpvalue ⟨false, index⟩).1 = .ok i := by
                        cases hadded : (inner.addUpvalue ⟨false, index⟩).1 with
                        | error e =>
                            simp only [hadded] at h
                            cases h
                        | ok i => exact ⟨i, rfl⟩
                      refine .cons (marksOnly_addUpvalue hi ?_) hwaits
                      rw [hlocals, markAll_of_not_isLocal]

end LoxBytecode
