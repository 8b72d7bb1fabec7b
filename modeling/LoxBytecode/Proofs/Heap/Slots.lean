import LoxBytecode.Arena
import Mathlib.Data.List.Nodup

/-!
# The Slots of an Arena

An arena is `Valid` when its stack of free slots lists exactly the empty slots, without
repeats. This is what makes allocation safe: the slot that it fills was empty
(`get?_alloc_fst`), so every other slot keeps its object (`get?_alloc`). It is `Clear` when no
slot is marked, which is how a collection finds it and leaves it (`clear_sweep`).

## Main results

* `Valid.alloc`, `Valid.modify?`, `Valid.mark`, `Valid.sweep`: every operation keeps an arena
  valid.
* `get?_alloc`, `get?_modify?`, `get?_mark`, `get?_sweep`: what each operation does to the
  object of every slot. A sweep keeps exactly the marked objects.
* `mem_doomed_iff`: the objects that a sweep answers with are the unmarked ones.
-/

namespace LoxBytecode

namespace Arena

variable {α : Type}

/-- The stack of free slots lists exactly the empty slots, without repeats. -/
structure Valid (a : Arena α) : Prop where
  nodup : a.free.toList.Nodup
  mem_free_iff : ∀ i, i ∈ a.free.toList ↔ i < a.slots.size ∧ a.get? i = none

/-- Whether a slot exists and is marked. -/
def isMarked (a : Arena α) (i : Nat) : Bool :=
  a.slots[i]?.any (·.marked)

/-- No slot is marked. -/
def Clear (a : Arena α) : Prop :=
  ∀ i, a.isMarked i = false

/-! ### Reading slots -/

/-- An occupied slot exists. -/
theorem lt_size_of_get? {a : Arena α} {i : Nat} {x : α} (h : a.get? i = some x) :
    i < a.slots.size := by
  rcases Nat.lt_or_ge i a.slots.size with hlt | hge
  · exact hlt
  · simp [get?, Array.getElem?_eq_none hge] at h

/-- An existing slot is unmarked exactly when it is not marked. -/
theorem isUnmarked_eq (a : Arena α) (i : Nat) :
    a.isUnmarked i = (decide (i < a.slots.size) && !a.isMarked i) := by
  rcases Nat.lt_or_ge i a.slots.size with hlt | hge
  · simp [isUnmarked, isMarked, hlt]
  · simp [isUnmarked, Nat.not_lt.mpr hge]

/-- The objects of all indices are those of the slots, one after the other. -/
theorem map_get?_range (a : Arena α) :
    (List.range a.slots.size).map a.get? = a.slots.toList.map (·.object) := by
  refine List.ext_getElem (by simp) fun i hi _ => ?_
  have hlt : i < a.slots.size := by simpa using hi
  simp [get?, hlt]

/-- The slots of a valid arena are the occupied and the free ones, so what `live` computes from
their numbers is how many are occupied. -/
theorem Valid.live_eq {a : Arena α} (ha : a.Valid) :
    a.live = a.slots.countP fun slot => slot.object.isSome := by
  have hfree : a.free.toList.Perm
      ((List.range a.slots.size).filter fun i => ¬ (a.get? i).isSome) := by
    refine (List.perm_ext_iff_of_nodup ha.nodup (List.nodup_range.filter _)).mpr fun i => ?_
    simp [ha.mem_free_iff]
  have hempty : a.free.size =
      (List.range a.slots.size).countP fun i => ¬ (a.get? i).isSome := by
    rw [List.countP_eq_length_filter, ← hfree.length_eq, Array.length_toList]
  have hoccupied : (List.range a.slots.size).countP (fun i => (a.get? i).isSome) =
      a.slots.countP fun slot => slot.object.isSome := by
    have hmap := congrArg (List.countP Option.isSome) (map_get?_range a)
    rw [List.countP_map, List.countP_map] at hmap
    rw [← Array.countP_toList]
    exact hmap
  have hsplit := List.length_eq_countP_add_countP (fun i => (a.get? i).isSome)
    (l := List.range a.slots.size)
  rw [List.length_range, hoccupied, ← hempty] at hsplit
  rw [live]
  omega

/-- An arena without slots is valid. -/
theorem valid_empty : (empty : Arena α).Valid :=
  ⟨by simp [empty], by simp [empty, get?]⟩

/-- No slot of an empty arena is marked. -/
theorem clear_empty : (empty : Arena α).Clear := by
  intro i
  simp [empty, isMarked]

/-! ### Allocation -/

/-- The top of a valid stack of free slots is an empty slot. -/
theorem Valid.back_free {a : Arena α} (ha : a.Valid) {i : Nat} (h : a.free.back? = some i) :
    i < a.slots.size ∧ a.get? i = none :=
  (ha.mem_free_iff i).mp (Array.mem_toList_iff.mpr (Array.mem_of_back? h))

/-- With a free slot left, an allocation fills the one freed last. -/
theorem alloc_of_free {slots : Array (Slot α)} {free : Array Nat} {i : Nat}
    (h : free.back? = some i) (x : α) :
    alloc ⟨slots, free⟩ x =
      (i, ⟨slots.modify i fun slot => { slot with object := some x }, free.pop⟩) := by
  simp only [alloc, h]

/-- With no free slot left, an allocation adds one. -/
theorem alloc_of_full {slots : Array (Slot α)} {free : Array Nat}
    (h : free.back? = none) (x : α) :
    alloc ⟨slots, free⟩ x = (slots.size, ⟨slots.push ⟨some x, false⟩, free⟩) := by
  simp only [alloc, h]

/-- An allocation fills a slot that was empty. -/
theorem get?_alloc_fst {a : Arena α} (ha : a.Valid) (x : α) : a.get? (a.alloc x).1 = none := by
  obtain ⟨slots, free⟩ := a
  cases htop : free.back? with
  | some i =>
      rw [alloc_of_free htop]
      exact (ha.back_free htop).2
  | none =>
      rw [alloc_of_full htop]
      simp [get?]

/-- An allocation puts the object into its slot and keeps every other slot. -/
theorem get?_alloc {a : Arena α} (ha : a.Valid) (x : α) (i : Nat) :
    (a.alloc x).2.get? i = if i = (a.alloc x).1 then some x else a.get? i := by
  obtain ⟨slots, free⟩ := a
  cases htop : free.back? with
  | some j =>
      rw [alloc_of_free htop]
      have hlt : j < slots.size := (ha.back_free htop).1
      by_cases hij : i = j
      · subst hij
        simp only [get?, Array.getElem?_modify, if_true]
        simp [hlt]
      · simp [get?, Array.getElem?_modify, Ne.symm hij, hij]
  | none =>
      rw [alloc_of_full htop]
      by_cases hi : i = slots.size
      · simp [get?, hi]
      · simp only [get?, Array.getElem?_push, hi, if_false]

/-- An allocation keeps an arena valid. -/
theorem Valid.alloc {a : Arena α} (ha : a.Valid) (x : α) : (a.alloc x).2.Valid := by
  have hget := get?_alloc ha x
  obtain ⟨slots, free⟩ := a
  cases htop : free.back? with
  | some j =>
      rw [alloc_of_free htop] at hget ⊢
      -- the popped slot is gone from the stack because the stack had no repeats
      have hsplit : free.toList = free.pop.toList ++ [j] := by
        obtain ⟨free', rfl⟩ := Array.back?_eq_some_iff.mp htop
        simp
      have hnodup := ha.nodup
      have hmem := ha.mem_free_iff
      simp only at hnodup hmem
      rw [hsplit] at hnodup
      obtain ⟨hpop, -, hdisjoint⟩ := List.nodup_append.mp hnodup
      refine ⟨hpop, fun i => ?_⟩
      have hi := hmem i
      rw [hsplit, List.mem_append, List.mem_singleton] at hi
      by_cases hij : i = j
      · subst hij
        have hnot : i ∉ free.pop.toList := fun hin => hdisjoint i hin i (by simp) rfl
        simp only [hget, hnot, if_true, reduceCtorEq, and_false]
      · simp only [hget, hij, if_false, Array.size_modify]
        simpa only [hij, or_false] using hi
  | none =>
      rw [alloc_of_full htop] at hget ⊢
      refine ⟨ha.nodup, fun i => ?_⟩
      have hi := ha.mem_free_iff i
      by_cases hsize : i = slots.size
      · simp only [hget, hsize, if_true, reduceCtorEq, and_false, iff_false]
        rw [hsize] at hi
        simp [hi]
      · simp only [hget, hsize, if_false, Array.size_push]
        refine hi.trans (and_congr_left fun _ => ?_)
        simp only
        omega

/-- An allocation leaves all marks clear. -/
theorem Clear.alloc {a : Arena α} (hc : a.Clear) (x : α) : (a.alloc x).2.Clear := by
  intro i
  have hi := hc i
  obtain ⟨slots, free⟩ := a
  cases htop : free.back? with
  | some j =>
      rw [alloc_of_free htop]
      simp only [isMarked, Array.getElem?_modify] at hi ⊢
      split
      · cases hslot : slots[i]? with
        | none => rfl
        | some slot => simpa [hslot] using hi
      · exact hi
  | none =>
      rw [alloc_of_full htop]
      simp only [isMarked, Array.getElem?_push] at hi ⊢
      split
      · rfl
      · exact hi

/-! ### Changing an object -/

/-- Only an occupied slot can be changed. -/
theorem modify?_eq_none_iff {a : Arena α} {i : Nat} {f : α → α} :
    a.modify? i f = none ↔ a.get? i = none := by
  rw [modify?]
  split
  next h => simp [Option.ne_none_iff_isSome.mpr h]
  next h => simpa using h

/-- Changing the object of a slot keeps every other slot. -/
theorem get?_modify? {a b : Arena α} {i : Nat} {f : α → α} (h : a.modify? i f = some b)
    (j : Nat) : b.get? j = if j = i then (a.get? i).map f else a.get? j := by
  rw [modify?] at h
  split at h
  · obtain ⟨slots, free⟩ := a
    cases h
    simp only [get?, Array.getElem?_modify]
    by_cases hij : j = i
    · subst hij
      cases slots[j]? <;> simp
    · simp [Ne.symm hij, hij]
  · cases h

/-- Changing an object frees no slot and adds none. -/
theorem modify?_frame {a b : Arena α} {i : Nat} {f : α → α} (h : a.modify? i f = some b) :
    b.slots.size = a.slots.size ∧ b.free = a.free := by
  rw [modify?] at h
  split at h
  · cases h
    exact ⟨Array.size_modify, rfl⟩
  · cases h

/-- Changing what a slot holds keeps an arena valid. -/
theorem Valid.modify? {a b : Arena α} {i : Nat} {f : α → α} (ha : a.Valid)
    (h : a.modify? i f = some b) : b.Valid := by
  have hget := get?_modify? h
  have hocc : a.get? i ≠ none := fun hnone => by
    rw [modify?_eq_none_iff.mpr hnone] at h
    cases h
  rw [Arena.modify?] at h
  split at h
  · obtain ⟨slots, free⟩ := a
    cases h
    refine ⟨ha.nodup, fun j => (ha.mem_free_iff j).trans ?_⟩
    rw [hget, Array.size_modify]
    by_cases hij : j = i
    · subst hij
      simp [hocc]
    · simp [hij]
  · cases h

/-- Changing what a slot holds marks nothing. -/
theorem Clear.modify? {a b : Arena α} {i : Nat} {f : α → α} (hc : a.Clear)
    (h : a.modify? i f = some b) : b.Clear := by
  intro j
  have hj := hc j
  rw [Arena.modify?] at h
  split at h
  · obtain ⟨slots, free⟩ := a
    cases h
    simp only [isMarked, Array.getElem?_modify] at hj ⊢
    split
    · cases hslot : slots[j]? with
      | none => rfl
      | some slot => simpa [hslot] using hj
    · exact hj
  · cases h

/-! ### Marking -/

/-- Marking changes no object. -/
@[simp] theorem get?_mark (a : Arena α) (i j : Nat) : (a.mark i).get? j = a.get? j := by
  obtain ⟨slots, free⟩ := a
  simp only [mark, get?, Array.getElem?_modify]
  split
  · cases slots[j]? <;> simp
  · rfl

@[simp] theorem size_mark (a : Arena α) (i : Nat) :
    (a.mark i).slots.size = a.slots.size := by
  simp [mark]

@[simp] theorem free_mark (a : Arena α) (i : Nat) : (a.mark i).free = a.free := rfl

/-- Marking marks one slot, if it exists. -/
theorem isMarked_mark (a : Arena α) (i j : Nat) :
    (a.mark i).isMarked j = (a.isMarked j || (decide (j = i) && decide (i < a.slots.size))) := by
  obtain ⟨slots, free⟩ := a
  simp only [mark, isMarked, Array.getElem?_modify]
  by_cases hij : j = i
  · subst hij
    rcases Nat.lt_or_ge j slots.size with hlt | hge
    · simp [hlt]
    · simp [Nat.not_lt.mpr hge]
  · simp [Ne.symm hij, hij]

/-- Marking a slot keeps an arena valid. -/
theorem Valid.mark {a : Arena α} (ha : a.Valid) (i : Nat) : (a.mark i).Valid :=
  ⟨ha.nodup, fun j => by simpa using ha.mem_free_iff j⟩

/-! ### Sweeping -/

/-- A sweep keeps exactly the marked objects. -/
theorem get?_sweep (a : Arena α) (i : Nat) :
    a.sweep.1.get? i = if a.isMarked i then a.get? i else none := by
  obtain ⟨slots, free⟩ := a
  rcases Nat.lt_or_ge i slots.size with hlt | hge
  · simp [sweep, get?, isMarked, hlt]
  · simp [sweep, get?, isMarked, hge]

/-- Sweeping takes all marks away. -/
theorem clear_sweep (a : Arena α) : a.sweep.1.Clear := by
  intro i
  simp only [sweep, isMarked, Array.getElem?_map]
  rcases a.slots[i]? with - | slot <;> rfl

@[simp] theorem size_sweep (a : Arena α) : a.sweep.1.slots.size = a.slots.size := by
  simp [sweep]

/-- The objects that a sweep answers with are those that were not marked. -/
theorem mem_doomed_iff {a : Arena α} {i : Nat} {x : α} :
    (i, x) ∈ a.doomed ↔ a.get? i = some x ∧ a.isMarked i = false := by
  rw [doomed]
  rw [List.mem_filterMap]
  constructor
  · rintro ⟨⟨slot, j⟩, hmem, hsome⟩
    have hslot := List.mem_zipIdx_iff_getElem?.mp hmem
    simp only [Array.getElem?_toList] at hslot
    simp only at hsome
    split at hsome
    · cases hsome
    · next hclear =>
      obtain ⟨y, hy, heq⟩ := Option.map_eq_some_iff.mp hsome
      cases heq
      exact ⟨by simp [get?, hslot, hy], by simpa [isMarked, hslot] using hclear⟩
  · rintro ⟨hget, hclear⟩
    obtain ⟨slot, hslot, hobject⟩ := Option.bind_eq_some_iff.mp hget
    refine ⟨(slot, i), List.mem_zipIdx_iff_getElem?.mpr (by simpa using hslot), ?_⟩
    have : slot.marked = false := by simpa [isMarked, hslot] using hclear
    simp [this, hobject]

/-- No slot is emptied twice. -/
theorem nodup_doomed (a : Arena α) : (a.doomed.map (·.1)).Nodup := by
  -- the slots emptied are some of those that the sweep passes, in their order
  have hsub : (a.doomed.map (·.1)).Sublist (a.slots.toList.zipIdx.map (·.2)) := by
    rw [doomed]
    generalize a.slots.toList.zipIdx = l
    induction l with
    | nil => simp
    | cons p l ih =>
        obtain ⟨slot, i⟩ := p
        rw [List.filterMap_cons]
        by_cases hm : slot.marked
        · simpa [hm] using ih.cons i
        · cases ho : slot.object with
          | none => simpa [hm, ho] using ih.cons i
          | some x => simpa [hm, ho] using ih.cons_cons i
  refine hsub.nodup ?_
  rw [List.zipIdx_map_snd]
  exact List.nodup_range'

/-- A sweep keeps an arena valid: the slots that it empties join the free ones. -/
theorem Valid.sweep {a : Arena α} (ha : a.Valid) : a.sweep.1.Valid := by
  have hfree : a.sweep.1.free.toList = a.free.toList ++ a.doomed.map (·.1) := by
    simp [Arena.sweep]
  constructor
  · rw [hfree, List.nodup_append]
    refine ⟨ha.nodup, nodup_doomed a, fun i hi j hj hij => ?_⟩
    subst hij
    obtain ⟨⟨k, x⟩, hk, rfl⟩ := List.mem_map.mp hj
    have hnone := ((ha.mem_free_iff _).mp hi).2
    rw [(mem_doomed_iff.mp hk).1] at hnone
    cases hnone
  · intro i
    rw [hfree, List.mem_append, ha.mem_free_iff, size_sweep, get?_sweep]
    constructor
    · rintro (⟨hlt, hnone⟩ | hdoomed)
      · exact ⟨hlt, by simp [hnone]⟩
      · obtain ⟨⟨k, x⟩, hk, rfl⟩ := List.mem_map.mp hdoomed
        obtain ⟨hget, hclear⟩ := mem_doomed_iff.mp hk
        exact ⟨lt_size_of_get? hget, by simp [hclear]⟩
    · rintro ⟨hlt, hnone⟩
      cases hget : a.get? i with
      | none => exact Or.inl ⟨hlt, rfl⟩
      | some x =>
          have hclear : a.isMarked i = false := by
            cases hm : a.isMarked i with
            | false => rfl
            | true => simp [hm, hget] at hnone
          exact Or.inr (List.mem_map.mpr ⟨(i, x), mem_doomed_iff.mpr ⟨hget, hclear⟩, rfl⟩)

end Arena

end LoxBytecode
