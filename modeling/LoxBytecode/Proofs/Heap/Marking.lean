import LoxBytecode.Heap.Collect
import LoxBytecode.Proofs.Heap.Reachability
import LoxBytecode.Proofs.Heap.Slots

/-!
# Marking

`Heap.markFrom` works off a list of values and sets mark bits. It changes no object
(`markFrom_frame`), it marks nothing but what the list reaches (`reach_of_marked_markFrom`), and
when it began without marks it marks all of that (`covered_of_reach`). The last rests on a
closure property that every step keeps: the children of a marked function are marked themselves
or still on the list.
-/

namespace LoxBytecode

namespace Heap

/-- The value's slot is marked, if it exists. -/
def Covered (strings : Arena String) (functions : Arena FunctionObject) : Value → Prop
  | .string s => s.index < strings.slots.size → strings.isMarked s.index = true
  | .function f => f.index < functions.slots.size → functions.isMarked f.index = true
  | .nil | .bool _ | .number _ => True

/-- The value's slot is marked. -/
def Marked (strings : Arena String) (functions : Arena FunctionObject) : Value → Prop
  | .string s => strings.isMarked s.index = true
  | .function f => functions.isMarked f.index = true
  | .nil | .bool _ | .number _ => False

/-- The children of marked functions are covered, or still to be worked off. -/
def MarkingClosed (strings : Arena String) (functions : Arena FunctionObject)
    (gray : List Value) : Prop :=
  ∀ f o, functions.isMarked f = true → functions.get? f = some o →
    ∀ v ∈ o.children, Covered strings functions v ∨ v ∈ gray

/-! ### What marking leaves alone -/

/-- Marking changes no content of a slot and no number of slots, it only sets marks. -/
theorem markFrom_frame (strings : Arena String) (functions : Arena FunctionObject)
    (gray : List Value) :
    (∀ i, (markFrom strings functions gray).1.get? i = strings.get? i) ∧
    (∀ i, (markFrom strings functions gray).2.get? i = functions.get? i) ∧
    (markFrom strings functions gray).1.slots.size = strings.slots.size ∧
    (markFrom strings functions gray).2.slots.size = functions.slots.size := by
  fun_induction markFrom strings functions gray with
  | case1 => simp
  | case2 strings functions s gray ih => simpa using ih
  | case3 strings functions f gray hclear reached ih => simpa using ih
  | case4 strings functions f gray hmarked ih => exact ih
  | case5 strings functions gray ih => exact ih
  | case6 strings functions gray b ih => exact ih
  | case7 strings functions gray x ih => exact ih

/-- Marking keeps arenas valid. -/
theorem valid_markFrom {strings : Arena String} {functions : Arena FunctionObject}
    (hs : strings.Valid) (hf : functions.Valid) (gray : List Value) :
    (markFrom strings functions gray).1.Valid ∧ (markFrom strings functions gray).2.Valid := by
  fun_induction markFrom strings functions gray with
  | case1 => exact ⟨hs, hf⟩
  | case2 strings functions s gray ih => exact ih (hs.mark _) hf
  | case3 strings functions f gray hclear reached ih => exact ih hs (hf.mark _)
  | case4 strings functions f gray hmarked ih => exact ih hs hf
  | case5 strings functions gray ih => exact ih hs hf
  | case6 strings functions gray b ih => exact ih hs hf
  | case7 strings functions gray x ih => exact ih hs hf

/-! ### Nothing but what is reachable is marked -/

/-- What marking adds to the marks is reachable from the list that it works off. -/
theorem reach_of_marked_markFrom {h : Heap} (strings : Arena String)
    (functions : Arena FunctionObject) (gray : List Value)
    (hfun : ∀ i, functions.get? i = h.functions.get? i) {v : Value}
    (hv : Marked (markFrom strings functions gray).1 (markFrom strings functions gray).2 v) :
    Marked strings functions v ∨ h.Reach gray v := by
  fun_induction markFrom strings functions gray with
  | case1 => exact Or.inl hv
  | case2 strings functions s gray ih =>
      rcases ih hfun hv with hmarked | hreach
      · cases v with
        | string t =>
            simp only [Marked, Arena.isMarked_mark, Bool.or_eq_true, Bool.and_eq_true,
              decide_eq_true_eq] at hmarked
            rcases hmarked with hold | ⟨hsame, -⟩
            · exact Or.inl hold
            · obtain rfl : t = s := congrArg StringHandle.mk hsame
              exact Or.inr (.root List.mem_cons_self)
        | function f => exact Or.inl hmarked
        | nil | bool | number => exact hmarked.elim
      · exact Or.inr (hreach.mono (List.subset_cons_self _ _))
  | case3 strings functions f gray hclear reached ih =>
      have hroot : h.Reach (.function f :: gray) (.function f) := .root List.mem_cons_self
      have hreached : ∀ w ∈ reached, h.Reach (.function f :: gray) w := by
        intro w hw
        cases hget : functions.get? f.index with
        | none => simp [reached, hget] at hw
        | some o =>
            have hw : w ∈ o.children := by simpa [reached, hget] using hw
            exact .child hroot ((hfun _).symm.trans hget) hw
      rcases ih (by simpa using hfun) hv with hmarked | hreach
      · cases v with
        | function g =>
            simp only [Marked, Arena.isMarked_mark, Bool.or_eq_true, Bool.and_eq_true,
              decide_eq_true_eq] at hmarked
            rcases hmarked with hold | ⟨hsame, -⟩
            · exact Or.inl hold
            · obtain rfl : g = f := congrArg FunctionHandle.mk hsame
              exact Or.inr hroot
        | string t => exact Or.inl hmarked
        | nil | bool | number => exact hmarked.elim
      · refine Or.inr (hreach.trans fun w hw => ?_)
        rcases List.mem_append.mp hw with hnew | hold
        · exact hreached w hnew
        · exact .root (List.mem_cons_of_mem _ hold)
  | case4 strings functions f gray hmarked ih =>
      exact (ih hfun hv).imp id (Reach.mono (List.subset_cons_self _ _))
  | case5 strings functions gray ih =>
      exact (ih hfun hv).imp id (Reach.mono (List.subset_cons_self _ _))
  | case6 strings functions gray b ih =>
      exact (ih hfun hv).imp id (Reach.mono (List.subset_cons_self _ _))
  | case7 strings functions gray x ih =>
      exact (ih hfun hv).imp id (Reach.mono (List.subset_cons_self _ _))

/-! ### Everything reachable is marked -/

/-- What is covered stays so when a string is marked. -/
theorem Covered.mark_string {strings : Arena String} {functions : Arena FunctionObject}
    {v : Value} (hv : Covered strings functions v) (i : Nat) :
    Covered (strings.mark i) functions v := by
  cases v with
  | string s =>
      intro hlt
      rw [Arena.isMarked_mark, hv (by simpa using hlt), Bool.true_or]
  | function f => exact hv
  | nil | bool | number => trivial

/-- What is covered stays so when a function is marked. -/
theorem Covered.mark_function {strings : Arena String} {functions : Arena FunctionObject}
    {v : Value} (hv : Covered strings functions v) (i : Nat) :
    Covered strings (functions.mark i) v := by
  cases v with
  | function f =>
      intro hlt
      rw [Arena.isMarked_mark, hv (by simpa using hlt), Bool.true_or]
  | string s => exact hv
  | nil | bool | number => trivial

/-- The steps of a list whose first value is covered already are those of the rest. -/
theorem covered_of_tail {strings : Arena String} {functions : Arena FunctionObject} {w : Value}
    {gray : List Value} {P : Value → Prop} {Q : Prop} (hw : Covered strings functions w)
    (ih : MarkingClosed strings functions gray →
      (∀ v, Covered strings functions v ∨ v ∈ gray → P v) ∧ Q)
    (hclosed : MarkingClosed strings functions (w :: gray)) :
    (∀ v, Covered strings functions v ∨ v ∈ w :: gray → P v) ∧ Q := by
  have hstep : ∀ v, Covered strings functions v ∨ v ∈ w :: gray →
      Covered strings functions v ∨ v ∈ gray := by
    rintro v (hv | hv)
    · exact Or.inl hv
    · rcases List.mem_cons.mp hv with rfl | hrest
      · exact Or.inl hw
      · exact Or.inr hrest
  obtain ⟨hcovered, hrest⟩ := ih fun g o hg hget v hv => hstep v (hclosed g o hg hget v hv)
  exact ⟨fun v hv => hcovered v (hstep v hv), hrest⟩

/-- Marking covers what was covered and what is on the list, and in the end the children of
every marked function. -/
theorem covered_markFrom (strings : Arena String) (functions : Arena FunctionObject)
    (gray : List Value) (hclosed : MarkingClosed strings functions gray) :
    (∀ v, Covered strings functions v ∨ v ∈ gray →
      Covered (markFrom strings functions gray).1 (markFrom strings functions gray).2 v) ∧
    MarkingClosed (markFrom strings functions gray).1 (markFrom strings functions gray).2 [] := by
  fun_induction markFrom strings functions gray with
  | case1 strings functions =>
      exact ⟨fun v hv => hv.resolve_right List.not_mem_nil, hclosed⟩
  | case2 strings functions s gray ih =>
      have hstep : ∀ v, Covered strings functions v ∨ v ∈ Value.string s :: gray →
          Covered (strings.mark s.index) functions v ∨ v ∈ gray := by
        rintro v (hv | hv)
        · exact Or.inl (hv.mark_string _)
        · rcases List.mem_cons.mp hv with rfl | hrest
          · refine Or.inl fun hlt => ?_
            simp only [Arena.size_mark] at hlt
            simp [Arena.isMarked_mark, hlt]
          · exact Or.inr hrest
      obtain ⟨hcovered, hrest⟩ := ih fun g o hg hget v hv => hstep v (hclosed g o hg hget v hv)
      exact ⟨fun v hv => hcovered v (hstep v hv), hrest⟩
  | case3 strings functions f gray hclear reached ih =>
      have hstep : ∀ v, Covered strings functions v ∨ v ∈ Value.function f :: gray →
          Covered strings (functions.mark f.index) v ∨ v ∈ reached ++ gray := by
        rintro v (hv | hv)
        · exact Or.inl (hv.mark_function _)
        · rcases List.mem_cons.mp hv with rfl | hrest
          · refine Or.inl fun hlt => ?_
            simp only [Arena.size_mark] at hlt
            simp [Arena.isMarked_mark, hlt]
          · exact Or.inr (List.mem_append.mpr (Or.inr hrest))
      obtain ⟨hcovered, hrest⟩ := ih fun g o hg hget v hv => by
        rw [Arena.get?_mark] at hget
        simp only [Arena.isMarked_mark, Bool.or_eq_true, Bool.and_eq_true,
          decide_eq_true_eq] at hg
        -- the newly marked function put its children on the list
        rcases hg with hg | ⟨rfl, -⟩
        · exact hstep v (hclosed g o hg hget v hv)
        · exact Or.inr (List.mem_append.mpr (Or.inl (by simpa [reached, hget] using hv)))
      exact ⟨fun v hv => hcovered v (hstep v hv), hrest⟩
  | case4 strings functions f gray hmarked ih =>
      have hf : Covered strings functions (.function f) := by
        intro hlt
        simpa [Arena.isUnmarked_eq, hlt] using hmarked
      exact covered_of_tail hf ih hclosed
  | case5 strings functions gray ih => exact covered_of_tail trivial ih hclosed
  | case6 strings functions gray b ih => exact covered_of_tail trivial ih hclosed
  | case7 strings functions gray x ih => exact covered_of_tail trivial ih hclosed

/-- Marking that begins without marks covers everything reachable from its list. -/
theorem covered_of_reach {h : Heap} (hclear : h.functions.Clear) {held : List Value} {v : Value}
    (hv : h.Reach held v) :
    Covered (markFrom h.strings h.functions held).1 (markFrom h.strings h.functions held).2 v := by
  have hstart : MarkingClosed h.strings h.functions held := by
    intro f o hf
    rw [hclear f] at hf
    cases hf
  obtain ⟨hcovered, hclosed⟩ := covered_markFrom _ _ _ hstart
  obtain ⟨-, hget, -, hsize⟩ := markFrom_frame h.strings h.functions held
  induction hv with
  | root hmem => exact hcovered _ (Or.inr hmem)
  | @child f o w _ hf hchild ih =>
      have hlt : f.index < h.functions.slots.size := Arena.lt_size_of_get? hf
      have hmarked := ih (by rw [hsize]; exact hlt)
      exact (hclosed _ _ hmarked ((hget _).trans hf) _ hchild).resolve_right List.not_mem_nil

end Heap

end LoxBytecode
