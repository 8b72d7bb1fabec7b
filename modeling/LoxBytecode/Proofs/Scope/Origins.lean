import LoxBytecode.Proofs.Scope.Levels
import LoxBytecode.Proofs.Session.Marks

/-!
# Where Captures Lead

A capture is a pair of numbers in the table of a function. What it stands for is the local at the
end of the way outwards, through one table after the other (`originOf?`). The tables of a stack
that were built by looking names up are without duplicates, and then the way back is as good as
the variable: no two captures of a function lead to the same one (`originOf?_injective`).

The search for a name ends at the first function around with a local of that name (`Owner`). It
answers with the one capture that leads there. It is added where it is missing, and it cannot be
only where a table on the way is full (`Owner.fst_resolveCapture`). Searching again adds nothing
(`resolveCapture_again`).
-/

namespace LoxBytecode

/-! ### Ways outwards -/

section

variable {table : List Capture} {tables : List (List Capture)} {i j out slot : Nat}

/-- A capture of a slot leads to the function next to its own. -/
theorem originOf?_eq_zero :
    originOf? (table :: tables) i = some (0, slot) ↔ table[i]? = some ⟨true, slot⟩ := by
  rw [originOf?]
  rcases table[i]? with - | ⟨isLocal, index⟩
  · simp
  · cases isLocal <;> simp

/-- A capture of a capture leads one function further out than that one. -/
theorem originOf?_eq_succ :
    originOf? (table :: tables) i = some (out + 1, slot) ↔
      ∃ index, table[i]? = some ⟨false, index⟩ ∧ originOf? tables index = some (out, slot) := by
  rw [originOf?]
  rcases table[i]? with - | ⟨isLocal, index⟩
  · simp
  · cases isLocal <;> simp

/-- Without duplicates, no two captures of a function lead to the same variable. -/
theorem originOf?_injective (hnodup : ∀ table ∈ tables, table.Nodup) {p : Nat × Nat}
    (hi : originOf? tables i = some p) (hj : originOf? tables j = some p) : i = j := by
  induction tables generalizing i j p with
  | nil => cases hi
  | cons table tables ih =>
      obtain ⟨htable, htables⟩ := List.forall_mem_cons.mp hnodup
      have hsame {c : Capture} (hi : table[i]? = some c) (hj : table[j]? = some c) : i = j :=
        (List.getElem?_inj (List.getElem?_eq_some_iff.mp hi).1 htable).mp (hi.trans hj.symm)
      obtain ⟨out, slot⟩ := p
      cases out with
      | zero => exact hsame (originOf?_eq_zero.mp hi) (originOf?_eq_zero.mp hj)
      | succ out =>
          obtain ⟨index, hi, hindex⟩ := originOf?_eq_succ.mp hi
          obtain ⟨index', hj, hindex'⟩ := originOf?_eq_succ.mp hj
          obtain rfl := ih htables hindex hindex'
          exact hsame hi hj

/-- A table that is passed on the way to a place has a capture that leads there, or room for it. -/
def HasRoom (tables : List (List Capture)) (p : Nat × Nat) : Prop :=
  (∃ i, originOf? tables i = some p) ∨ ∀ table ∈ tables.head?, table.length < maxSlots

end

/-- Every capture that exists leads to a slot that exists. -/
theorem Linked.exists_originOf? {inner : FunctionState} {outers : List FunctionState}
    (h : Linked inner outers) {i : Nat} (hi : i < inner.upvalues.length) :
    ∃ out slot owner, originOf? ((inner :: outers).map FunctionState.upvalues) i =
      some (out, slot) ∧ outers[out]? = some owner ∧ slot < owner.locals.length := by
  induction outers generalizing inner i with
  | nil =>
      have hnone : inner.upvalues = [] := h
      rw [hnone] at hi
      cases hi
  | cons outer rest ih =>
      have hget := List.getElem?_eq_getElem hi
      have hvalid := h.1 _ (List.getElem_mem hi)
      rcases hc : inner.upvalues[i] with ⟨isLocal, index⟩
      rw [hc] at hget hvalid
      cases isLocal with
      | true => exact ⟨0, index, outer, originOf?_eq_zero.mpr hget, rfl, hvalid⟩
      | false =>
          obtain ⟨out, slot, owner, horigin, howner, hslot⟩ := ih h.2 hvalid
          exact ⟨out + 1, slot, owner, originOf?_eq_succ.mpr ⟨index, hget, horigin⟩, howner, hslot⟩

namespace FunctionState

variable {st : FunctionState} {name : String} {slot : Nat} {l : Local} {c : Capture}

/-! ### One function -/

/-- A name that no local has resolves to nothing. -/
theorem resolveLocal_of_none (h : findLocal? name st.locals = none) :
    st.resolveLocal name = .ok none := by
  rw [resolveLocal, h]

/-- A local that is not there is not found. -/
theorem findLocal?_eq_none {ls : List Local} (h : ∀ l ∈ ls, l.name ≠ name) :
    findLocal? name ls = none := by
  induction ls with
  | nil => rfl
  | cons l ls ih =>
      obtain ⟨hl, hls⟩ := List.forall_mem_cons.mp h
      rw [findLocal?, if_neg hl, ih hls]

/-- What is not found is not there. -/
theorem ne_of_findLocal?_eq_none {ls : List Local} (h : findLocal? name ls = none) :
    ∀ l ∈ ls, l.name ≠ name := by
  induction ls with
  | nil => exact List.forall_mem_nil _
  | cons l ls ih =>
      rw [findLocal?] at h
      split at h
      next => cases h
      next hname => exact List.forall_mem_cons.mpr ⟨hname, ih h⟩

/-- The local that is found for a name is the one in the highest slot. -/
theorem highest_of_findLocal? {ls : List Local} (h : findLocal? name ls = some (slot, l)) :
    ls.reverse[slot]? = some l ∧ l.name = name ∧
      ∀ slot' l', ls.reverse[slot']? = some l' → l'.name = name → slot' ≤ slot := by
  induction ls with
  | nil => cases h
  | cons l₀ ls ih =>
      have hlt {slot' : Nat} {l' : Local} (hslot' : (l₀ :: ls).reverse[slot']? = some l') :
          slot' < ls.length + 1 := by
        simpa using (List.getElem?_eq_some_iff.mp hslot').1
      have hbefore {slot' : Nat} (hlt : slot' < ls.length) :
          (l₀ :: ls).reverse[slot']? = ls.reverse[slot']? := by
        rw [List.reverse_cons, List.getElem?_append_left (by simpa using hlt)]
      have hlast : (l₀ :: ls).reverse[ls.length]? = some l₀ := by simp
      rw [findLocal?] at h
      split at h
      next hname =>
        cases h
        exact ⟨hlast, hname, fun slot' l' hslot' _ => Nat.le_of_lt_succ (hlt hslot')⟩
      next hname =>
        obtain ⟨hslot, hl, highest⟩ := ih h
        have hslotLt : slot < ls.length := by
          simpa using (List.getElem?_eq_some_iff.mp hslot).1
        refine ⟨(hbefore hslotLt).trans hslot, hl, fun slot' l' hslot' hname' => ?_⟩
        rcases Nat.lt_or_eq_of_le (Nat.le_of_lt_succ (hlt hslot')) with hlt' | rfl
        · exact highest slot' l' ((hbefore hlt').symm.trans hslot') hname'
        · rw [hlast] at hslot'
          cases hslot'
          exact absurd hname' hname

/-- Of several locals with a name the one in the highest slot is found. -/
theorem findLocal?_of_highest {ls : List Local} (hslot : ls.reverse[slot]? = some l)
    (hname : l.name = name)
    (highest : ∀ slot' l', ls.reverse[slot']? = some l' → l'.name = name → slot' ≤ slot) :
    findLocal? name ls = some (slot, l) := by
  cases hfind : findLocal? name ls with
  | none =>
      have hmem := List.mem_reverse.mp (List.mem_of_getElem? hslot)
      exact absurd hname (ne_of_findLocal?_eq_none hfind l hmem)
  | some p =>
      obtain ⟨slot', l'⟩ := p
      obtain ⟨hslot', hname', highest'⟩ := highest_of_findLocal? hfind
      obtain rfl : slot' = slot :=
        Nat.le_antisymm (highest _ _ hslot' hname') (highest' _ _ hslot hname)
      rw [Option.some.inj (hslot'.symm.trans hslot)]

/-- A capture is refused only where it is missing and the table is full. -/
theorem addUpvalue_fst (st : FunctionState) (c : Capture) :
    (∃ i, (st.addUpvalue c).1 = .ok i) ∧ (c ∈ st.upvalues ∨ st.upvalues.length < maxSlots) ∨
      (st.addUpvalue c).1 = .error .tooManyUpvalues ∧
        ¬ (c ∈ st.upvalues ∨ st.upvalues.length < maxSlots) := by
  rw [addUpvalue]
  split
  next i hi =>
    obtain ⟨hlt, heq, -⟩ := List.findIdx?_eq_some_iff_getElem.mp hi
    exact .inl ⟨⟨i, rfl⟩, .inl (eq_of_beq heq ▸ List.getElem_mem hlt)⟩
  next hnone =>
    have hnew : c ∉ st.upvalues := List.idxOf?_eq_none_iff.mp hnone
    split
    next hroom => exact .inl ⟨⟨_, rfl⟩, .inr hroom⟩
    next hfull => exact .inr ⟨rfl, not_or.mpr ⟨hnew, hfull⟩⟩

end FunctionState

/-! ### The function that a name belongs to -/

/-- The first of some functions with a local of a name, innermost first, is behind `out` others,
and the local is in a slot of it. -/
inductive Owner (name : String) : List FunctionState → Nat → Nat → Local → Prop
  | here {outer : FunctionState} {rest : List FunctionState} {slot : Nat} {l : Local} :
      FunctionState.findLocal? name outer.locals = some (slot, l) →
        Owner name (outer :: rest) 0 slot l
  | out {outer : FunctionState} {rest : List FunctionState} {out slot : Nat} {l : Local} :
      FunctionState.findLocal? name outer.locals = none → Owner name rest out slot l →
        Owner name (outer :: rest) (out + 1) slot l

section

variable {name : String} {inner : FunctionState} {outers : List FunctionState} {out slot : Nat}
  {l : Local}

/-- A name without a local changes nothing. -/
theorem resolveCapture_of_absent
    (h : ∀ st ∈ outers, FunctionState.findLocal? name st.locals = none) :
    resolveCapture name inner outers = (.ok none, inner, outers) := by
  induction outers generalizing inner with
  | nil => rfl
  | cons outer rest ih =>
      obtain ⟨houter, hrest⟩ := List.forall_mem_cons.mp h
      rw [resolveCapture, FunctionState.resolveLocal_of_none houter, ih hrest]

/-- A name whose local waits for its initialization changes nothing. -/
theorem Owner.resolveCapture_of_waiting (h : Owner name outers out slot l) (hl : l.depth = none) :
    resolveCapture name inner outers = (.error .ownInitializer, inner, outers) := by
  induction h generalizing inner with
  | here hfind =>
      rw [resolveCapture, FunctionState.resolveLocal, hfind]
      simp only [hl, Option.isNone_none, if_true]
  | out hnone _ ih => rw [resolveCapture, FunctionState.resolveLocal_of_none hnone, ih hl]

/-- The owner of a name is the first function around that has it as a local. -/
theorem Owner.findIn? (h : Owner name outers out slot l) :
    findIn? name (outers.map FunctionState.frame) = some (out, slot) := by
  induction h with
  | here hfind =>
      rw [List.map_cons, LoxBytecode.findIn?, FunctionState.frame, slotOf?_eq, hfind]
      rfl
  | out hnone _ ih =>
      rw [List.map_cons, LoxBytecode.findIn?, FunctionState.frame, slotOf?_eq, hnone, ih]
      rfl

/-- A name resolves to the slot of a local that can be read. -/
theorem resolveLocal_of_some {st : FunctionState}
    (h : FunctionState.findLocal? name st.locals = some (slot, l)) (hl : l.depth ≠ none) :
    st.resolveLocal name = .ok (some slot) := by
  rw [FunctionState.resolveLocal, h]
  simp only [Option.isNone_iff_eq_none, hl, if_false]

/-- Of the locals around, the search marks the one that it finds. -/
theorem Owner.locals_resolveCapture (h : Owner name outers out slot l) (hl : l.depth ≠ none) :
    (resolveCapture name inner outers).2.2.map FunctionState.locals =
      (outers.map FunctionState.locals).modify out (markAll [⟨true, slot⟩]) := by
  induction h generalizing inner with
  | @here outer rest slot l hfind =>
      rw [resolveCapture, resolveLocal_of_some hfind hl]
      show (outer.capture slot :: rest).map FunctionState.locals = _
      rw [List.map_cons, List.map_cons, List.modify_zero_cons, FunctionState.locals_capture]
  | @out outer rest out slot l hnone _ ih =>
      have hrest := @ih outer hl
      have houter : (resolveCapture name outer rest).2.1.locals = outer.locals := by
        rw [(resolveCapture_spec name outer rest).inner_eq]
      rw [resolveCapture, FunctionState.resolveLocal_of_none hnone, List.map_cons (l := rest),
        List.modify_succ_cons, ← hrest, ← houter]
      rcases resolveCapture name outer rest with ⟨e | (- | index), outer', rest'⟩ <;> rfl

/-- Around a function a capture leads to a variable. A capture of it leads there too, and no other
capture of the function does, so that the function has room for the variable just when it has room
for that capture. -/
theorem hasRoom_succ_iff {outer outer' : FunctionState} {rest rest' : List FunctionState}
    {index : Nat} (hlinked : Linked inner (outer :: rest))
    (hgrows : List.Forall₂ FunctionState.Grows (outer :: rest) (outer' :: rest'))
    (hnodup : ∀ st ∈ outer' :: rest', st.upvalues.Nodup)
    (horigin : originOf? ((outer' :: rest').map FunctionState.upvalues) index = some (out, slot)) :
    HasRoom ((inner :: outer :: rest).map FunctionState.upvalues) (out + 1, slot) ↔
      ⟨false, index⟩ ∈ inner.upvalues ∨ inner.upvalues.length < maxSlots := by
  have hmore {i : Nat} {p : Nat × Nat} :=
    @originOf?_mono _ _ (forall₂_upvalues_of_grows hgrows) i p
  have hleads : (∃ i, originOf? ((inner :: outer :: rest).map FunctionState.upvalues) i =
      some (out + 1, slot)) ↔ ⟨false, index⟩ ∈ inner.upvalues := by
    simp only [List.map_cons (l := outer :: rest), originOf?_eq_succ, List.mem_iff_getElem?]
    constructor
    · rintro ⟨i, index', hi, hindex'⟩
      have hnodup' := List.forall_mem_map.mpr hnodup
      exact ⟨i, originOf?_injective hnodup' horigin (hmore hindex') ▸ hi⟩
    · rintro ⟨i, hi⟩
      have hvalid : index < outer.upvalues.length := hlinked.1 _ (List.mem_of_getElem? hi)
      obtain ⟨out', slot', -, horigin', -⟩ := hlinked.2.exists_originOf? hvalid
      exact ⟨i, index, hi, Option.some.inj ((hmore horigin').symm.trans horigin) ▸ horigin'⟩
  rw [HasRoom, hleads]
  simp

/-- All functions on the way have room when the first has and those behind it have. -/
theorem forall_hasRoom_succ (hinner : HasRoom ((inner :: outers).map FunctionState.upvalues)
      (out + 1, slot))
    (houters : ∀ j ≤ out, HasRoom ((outers.drop j).map FunctionState.upvalues) (out - j, slot)) :
    ∀ j ≤ out + 1,
      HasRoom (((inner :: outers).drop j).map FunctionState.upvalues) (out + 1 - j, slot) := by
  intro j hj
  cases j with
  | zero => exact hinner
  | succ j => simpa using houters j (Nat.le_of_succ_le_succ hj)

/-- The search finds a capture for the local just when each function on the way has one for it, or
room for one. -/
theorem Owner.fst_resolveCapture (h : Owner name outers out slot l) (hl : l.depth ≠ none)
    (hlinked : Linked inner outers) (hfits : ∀ st ∈ inner :: outers, st.Fits) :
    (∃ i, (resolveCapture name inner outers).1 = .ok (some i)) ∧
        (∀ j ≤ out, HasRoom (((inner :: outers).drop j).map FunctionState.upvalues)
          (out - j, slot)) ∨
      (resolveCapture name inner outers).1 = .error .tooManyUpvalues ∧
        ∃ j ≤ out, ¬ HasRoom (((inner :: outers).drop j).map FunctionState.upvalues)
          (out - j, slot) := by
  induction h generalizing inner with
  | @here outer rest slot l hfind =>
      have hroom : HasRoom ((inner :: outer :: rest).map FunctionState.upvalues) (0, slot) ↔
          ⟨true, slot⟩ ∈ inner.upvalues ∨ inner.upvalues.length < maxSlots := by
        simp only [HasRoom, List.map_cons, originOf?_eq_zero, List.mem_iff_getElem?,
          List.head?_cons, Option.mem_some_iff, forall_eq']
      rw [resolveCapture, resolveLocal_of_some hfind hl]
      rcases inner.addUpvalue_fst ⟨true, slot⟩ with ⟨⟨i, hi⟩, hyes⟩ | ⟨herror, hno⟩
      · refine .inl ⟨⟨i, congrArg (Except.map some) hi⟩, fun j hj => ?_⟩
        obtain rfl := Nat.le_zero.mp hj
        exact hroom.mpr hyes
      · exact .inr ⟨congrArg (Except.map some) herror, 0, Nat.le_refl _, mt hroom.mp hno⟩
  | @out outer rest out slot l hnone hrest ih =>
      obtain ⟨hinner, houters⟩ := List.forall_mem_cons.mp hfits
      have hspec := resolveCapture_spec name outer rest
      have hnodup := @fits_resolveCapture name outer rest houters
      rw [resolveCapture, FunctionState.resolveLocal_of_none hnone]
      rcases hres : resolveCapture name outer rest with ⟨found, outer', rest'⟩
      rw [hres] at hspec hnodup
      have hih := ih hl hlinked.2 houters
      rw [hres] at hih
      rcases hih with ⟨⟨index, rfl⟩, hrooms⟩ | ⟨rfl, j, hj, hfull⟩
      · obtain ⟨p, hp, horigin⟩ := hspec.place index rfl
        obtain rfl := Option.some.inj (hrest.findIn?.symm.trans hp)
        have hroom := hasRoom_succ_iff hlinked (.cons hspec.grows hspec.outers_grow)
          (fun st hst => (hnodup st hst).distinct) horigin
        rcases inner.addUpvalue_fst ⟨false, index⟩ with ⟨⟨i, hi⟩, hyes⟩ | ⟨herror, hno⟩
        · exact .inl ⟨⟨i, congrArg (Except.map some) hi⟩, forall_hasRoom_succ (hroom.mpr hyes) hrooms⟩
        · exact .inr ⟨congrArg (Except.map some) herror, 0, Nat.zero_le _, mt hroom.mp hno⟩
      · exact .inr ⟨rfl, j + 1, Nat.succ_le_succ hj, by simpa using hfull⟩

end

/-! ### Looking a name up again -/

namespace FunctionState

variable {st st' : FunctionState}

/-- Finding a name depends on names and depths only, not on marks. -/
theorem findLocal?_of_ident {name : String} {ls ls' : List Local}
    (h : ls'.map ident = ls.map ident) :
    (findLocal? name ls').map (fun p => (p.1, p.2.depth)) =
      (findLocal? name ls).map fun p => (p.1, p.2.depth) := by
  induction ls generalizing ls' with
  | nil =>
      obtain rfl := List.map_eq_nil_iff.mp h
      rfl
  | cons l ls ih =>
      obtain ⟨l', ls', rfl, hl, hls⟩ := List.map_eq_cons_iff.mp h
      obtain ⟨hname, hdepth⟩ := Prod.mk.inj hl
      have hlength : ls'.length = ls.length := by simpa using congrArg List.length hls
      rw [findLocal?, findLocal?, hname]
      split
      · simp [hlength, hdepth]
      · exact ih hls

/-- What a name means in a function that waits stays what it is. -/
theorem Grows.resolveLocal (h : st.Grows st') (name : String) :
    st'.resolveLocal name = st.resolveLocal name := by
  have hfind := @findLocal?_of_ident name _ _ h.locals
  rw [FunctionState.resolveLocal, FunctionState.resolveLocal]
  cases hst : findLocal? name st.locals with
  | none =>
      rw [hst, Option.map_none, Option.map_eq_none_iff] at hfind
      rw [hfind]
  | some p =>
      rw [hst, Option.map_some, Option.map_eq_some_iff] at hfind
      obtain ⟨p', hst', hsame⟩ := hfind
      obtain ⟨hslot, hdepth⟩ := Prod.mk.inj hsame
      simp only [hst', hslot, hdepth]

/-- A capture that is there is found where it is, and one that was refused is refused again. -/
theorem addUpvalue_again (st : FunctionState) (c : Capture) :
    (st.addUpvalue c).2.addUpvalue c = st.addUpvalue c := by
  cases hidx : st.upvalues.idxOf? c with
  | some i => simp only [addUpvalue, hidx]
  | none =>
      by_cases hroom : st.upvalues.length < maxSlots
      · have hnew : c ∉ st.upvalues := List.idxOf?_eq_none_iff.mp hidx
        have hlast : (st.upvalues ++ [c]).idxOf? c = some st.upvalues.length := by
          rw [List.idxOf?, List.findIdx?_append, ← List.idxOf?, hidx]
          simp
        simp only [addUpvalue, hidx, if_pos hroom, hlast]
      · simp only [addUpvalue, hidx, if_neg hroom]

/-- Marking a local twice is marking it once. -/
theorem capture_again (st : FunctionState) (slot : Nat) :
    (st.capture slot).capture slot = st.capture slot := by
  have hcapture (st : FunctionState) : st.capture slot =
      { st with locals := markAll [⟨true, slot⟩] st.locals } := by
    rw [← st.locals_capture, capture]
    split <;> rfl
  have hmarks : markAll [⟨true, slot⟩] (markAll [⟨true, slot⟩] st.locals) =
      markAll [⟨true, slot⟩] st.locals := by
    rw [← markAll_append]
    exact markAll_congr (by simp)
  rw [hcapture (st.capture slot), hcapture st]
  simp only [hmarks]

end FunctionState

/-- A name that is looked up again is answered in the same way, and nothing is added for it. -/
theorem resolveCapture_again (name : String) (inner : FunctionState)
    (outers : List FunctionState) :
    resolveCapture name (resolveCapture name inner outers).2.1
      (resolveCapture name inner outers).2.2 = resolveCapture name inner outers := by
  induction outers generalizing inner with
  | nil => rfl
  | cons outer rest ih =>
      have hih := ih outer
      have hgrows := (resolveCapture_spec name outer rest).grows
      rw [resolveCapture]
      cases hlocal : outer.resolveLocal name with
      | error e => rw [resolveCapture, hlocal]
      | ok found =>
          cases found with
          | some slot =>
              have hlocal' := ((outer.grows_capture slot).resolveLocal name).trans hlocal
              simp only [resolveCapture, hlocal', inner.addUpvalue_again, outer.capture_again]
          | none =>
              rcases hres : resolveCapture name outer rest with ⟨found, outer', rest'⟩
              rw [hres] at hih hgrows
              have hlocal' := (hgrows.resolveLocal name).trans hlocal
              rcases found with e | (- | index)
              · simp only [resolveCapture, hlocal', hih]
              · simp only [resolveCapture, hlocal', hih]
              · simp only [resolveCapture, hlocal', hih, inner.addUpvalue_again]

end LoxBytecode
