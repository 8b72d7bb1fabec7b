import LoxBytecode.Heap

/-!
# The Intern Table

What the two changes of an intern table do to the slots under a hash: `InternTable.add` puts
one slot in front (`bucket_add`), and `InternTable.remove` takes it out (`bucket_remove`). A
collection removes the strings that it frees one after the other (`mem_bucket_foldl_remove`).

A table is `Tidy` when every hash that it knows has slots, and none of them twice.
-/

namespace LoxBytecode

namespace InternTable

/-- An empty table has empty buckets. -/
theorem bucket_empty (hash : UInt32) : bucket {} hash = [] := by
  simp [bucket]

/-- A slot that is added comes first in the bucket of its hash. -/
theorem bucket_add (t : InternTable) (hash : UInt32) (slot : Nat) (hash' : UInt32) :
    (t.add hash slot).bucket hash' =
      if hash = hash' then slot :: t.bucket hash' else t.bucket hash' := by
  simp only [bucket, add, Std.TreeMap.getElem?_alter, Std.LawfulEqCmp.compare_eq_iff_eq]
  split
  next heq =>
    subst heq
    rfl
  next => rfl

/-- A slot that is removed is gone from the bucket of its hash. -/
theorem bucket_remove (t : InternTable) (hash : UInt32) (slot : Nat) (hash' : UInt32) :
    (t.remove hash slot).bucket hash' =
      if hash = hash' then (t.bucket hash').filter (· != slot) else t.bucket hash' := by
  simp only [bucket, remove, Std.TreeMap.getElem?_alter, Std.LawfulEqCmp.compare_eq_iff_eq]
  split
  next heq =>
    subst heq
    split
    next hnone => rw [hnone]; rfl
    next => rfl
  next => rfl

/-- After removing some slots, each under the hash of its text, the others are left. -/
theorem mem_bucket_foldl_remove (freed : List (Nat × String)) (t : InternTable) (hash : UInt32)
    (i : Nat) :
    i ∈ (freed.foldl (fun t (slot, text) => t.remove (textHash text) slot) t).bucket hash ↔
      i ∈ t.bucket hash ∧ ∀ text, (i, text) ∈ freed → textHash text ≠ hash := by
  induction freed generalizing t with
  | nil => simp
  | cons p freed ih =>
      obtain ⟨slot, text⟩ := p
      rw [List.foldl_cons, ih, bucket_remove]
      constructor
      · rintro ⟨hmem, hrest⟩
        by_cases hh : textHash text = hash
        · rw [if_pos hh, List.mem_filter] at hmem
          refine ⟨hmem.1, fun text' htext' => ?_⟩
          rcases List.mem_cons.mp htext' with heq | htail
          · cases heq
            simp at hmem
          · exact hrest text' htail
        · rw [if_neg hh] at hmem
          refine ⟨hmem, fun text' htext' => ?_⟩
          rcases List.mem_cons.mp htext' with heq | htail
          · cases heq
            exact hh
          · exact hrest text' htail
      · rintro ⟨hmem, hall⟩
        refine ⟨?_, fun text' htext' => hall text' (List.mem_cons_of_mem _ htext')⟩
        by_cases hh : textHash text = hash
        · rw [if_pos hh, List.mem_filter]
          refine ⟨hmem, ?_⟩
          have hne : i ≠ slot := by
            rintro rfl
            exact hall text List.mem_cons_self hh
          simpa using hne
        · rwa [if_neg hh]

/-! ### Tidy tables -/

/-- Every hash of the table has slots, and no slot is there twice. -/
def Tidy (t : InternTable) : Prop :=
  ∀ (hash : UInt32) (slots : List Nat), t[hash]? = some slots → slots ≠ [] ∧ slots.Nodup

/-- An empty table is tidy. -/
theorem tidy_empty : Tidy {} := by
  intro hash slots hslots
  simp at hslots

/-- No slot is twice in a bucket. -/
theorem Tidy.nodup_bucket {t : InternTable} (ht : t.Tidy) (hash : UInt32) :
    (t.bucket hash).Nodup := by
  rw [bucket]
  cases hslots : t[hash]? with
  | none => exact List.nodup_nil
  | some slots => exact (ht hash slots hslots).2

/-- Recording a slot that is not there yet keeps a table tidy. -/
theorem Tidy.add {t : InternTable} (ht : t.Tidy) {hash : UInt32} {slot : Nat}
    (hnew : slot ∉ t.bucket hash) : (t.add hash slot).Tidy := by
  intro hash' slots hslots
  simp only [InternTable.add, Std.TreeMap.getElem?_alter,
    Std.LawfulEqCmp.compare_eq_iff_eq] at hslots
  split at hslots
  · cases hslots
    exact ⟨List.cons_ne_nil _ _, List.nodup_cons.mpr ⟨hnew, ht.nodup_bucket hash⟩⟩
  · exact ht hash' slots hslots

/-- Forgetting a slot keeps a table tidy, since it forgets a hash with its last slot. -/
theorem Tidy.remove {t : InternTable} (ht : t.Tidy) (hash : UInt32) (slot : Nat) :
    (t.remove hash slot).Tidy := by
  intro hash' slots hslots
  simp only [InternTable.remove, Std.TreeMap.getElem?_alter,
    Std.LawfulEqCmp.compare_eq_iff_eq] at hslots
  split at hslots
  · split at hslots
    next => cases hslots
    next hne =>
      cases hslots
      exact ⟨hne, (ht.nodup_bucket hash).filter _⟩
  · exact ht hash' slots hslots

/-- A table stays tidy when all freed strings are removed from it. -/
theorem Tidy.foldl_remove {t : InternTable} (ht : t.Tidy) (freed : List (Nat × String)) :
    (freed.foldl (fun t (slot, text) => t.remove (textHash text) slot) t).Tidy := by
  induction freed generalizing t with
  | nil => exact ht
  | cons p freed ih => exact ih (ht.remove (textHash p.2) p.1)

end InternTable

end LoxBytecode
