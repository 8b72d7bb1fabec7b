import LoxBytecode.Proofs.Heap.Interning
import LoxBytecode.Proofs.Heap.Marking

/-!
# Collection and Allocation

What the operations of a heap do to its objects, when the heap is well-formed (`Heap.Wf`): its
arenas are valid and without marks, and its intern table finds exactly the live strings.

## Main results

* `agree_collect`, `reach_of_live_collect`: a collection keeps every reachable object as it was
  and leaves nothing else.
* `intern_grown`, `allocFunction_grown`: an allocation, whether it collects or not, keeps every
  live object that its caller can reach, and what is in the heap afterwards is an unchanged old
  object or the new one (`Grown`).
* `Reachable.wf`: a heap that comes about by the heap's own operations is well-formed.
-/

namespace LoxBytecode

namespace Heap

/-- The arenas are valid and without marks, and the intern table lists exactly the live strings,
each under the hash of its text. No two live strings have the same text. -/
structure Wf (h : Heap) : Prop where
  strings : h.strings.Valid
  functions : h.functions.Valid
  strings_clear : h.strings.Clear
  functions_clear : h.functions.Clear
  mem_bucket_iff : ∀ hash i, i ∈ h.interned.bucket hash ↔
    ∃ text, h.strings.get? i = some text ∧ textHash text = hash
  unique : ∀ i j text, h.strings.get? i = some text → h.strings.get? j = some text → i = j

/-- A new heap is well-formed. -/
theorem wf_ofConfig (config : HeapConfig) : (ofConfig config).Wf where
  strings := Arena.valid_empty
  functions := Arena.valid_empty
  strings_clear := Arena.clear_empty
  functions_clear := Arena.clear_empty
  mem_bucket_iff hash i := by
    have hnone : (ofConfig config).strings.get? i = none := by
      simp [ofConfig, Arena.get?, Arena.empty]
    rw [hnone]
    simp [ofConfig, InternTable.bucket_empty]
  unique i j text hi := by simp [ofConfig, Arena.get?, Arena.empty] at hi

/-! ### Collecting -/

variable {h : Heap} {held : List Value}

/-- The strings after a collection are those marked, swept. -/
theorem strings_collect (h : Heap) (held : List Value) :
    (h.collect held).2.strings = (markFrom h.strings h.functions held).1.sweep.1 := rfl

/-- The functions after a collection are those marked, swept. -/
theorem functions_collect (h : Heap) (held : List Value) :
    (h.collect held).2.functions = (markFrom h.strings h.functions held).2.sweep.1 := rfl

/-- The interned strings that are swept are taken out of the table. -/
theorem interned_collect (h : Heap) (held : List Value) :
    (h.collect held).2.interned =
      (markFrom h.strings h.functions held).1.doomed.foldl
        (fun t (slot, text) => t.remove (textHash text) slot) h.interned := rfl

/-- A collection keeps every reachable object as it was. -/
theorem agree_collect (hw : h.Wf) {v : Value} (hv : h.Reach held v) :
    h.Agree (h.collect held).2 v := by
  have hcovered := covered_of_reach hw.functions_clear hv
  obtain ⟨hstrings, hfunctions, hsizeS, hsizeF⟩ := markFrom_frame h.strings h.functions held
  cases v with
  | string s =>
      rw [Agree, strings_collect, Arena.get?_sweep, hstrings]
      cases hget : h.strings.get? s.index with
      | none => simp
      | some text =>
          rw [hcovered (by rw [hsizeS]; exact Arena.lt_size_of_get? hget), if_pos rfl]
  | function f =>
      rw [Agree, functions_collect, Arena.get?_sweep, hfunctions]
      cases hget : h.functions.get? f.index with
      | none => simp
      | some o =>
          rw [hcovered (by rw [hsizeF]; exact Arena.lt_size_of_get? hget), if_pos rfl]
  | nil | bool | number => trivial

/-- What survives a collection was reachable. -/
theorem reach_of_live_collect (hw : h.Wf) {v : Value} (hobject : v.isObject = true)
    (hlive : (h.collect held).2.Live v) : h.Reach held v := by
  have hmarked : Marked (markFrom h.strings h.functions held).1
      (markFrom h.strings h.functions held).2 v := by
    cases v with
    | string s =>
        obtain ⟨text, htext⟩ := live_string_iff.mp hlive
        rw [strings_collect, Arena.get?_sweep] at htext
        split at htext
        · assumption
        · cases htext
    | function f =>
        obtain ⟨o, ho⟩ := live_function_iff.mp hlive
        rw [functions_collect, Arena.get?_sweep] at ho
        split at ho
        · assumption
        · cases ho
    | nil | bool | number => cases hobject
  refine (reach_of_marked_markFrom _ _ _ (fun _ => rfl) hmarked).resolve_left ?_
  cases v with
  | string s => simp [Marked, hw.strings_clear s.index]
  | function f => simp [Marked, hw.functions_clear f.index]
  | nil | bool | number => exact id

/-- A collection changes no text. -/
theorem get?_strings_of_collect {i : Nat} {text : String}
    (htext : (h.collect held).2.strings.get? i = some text) : h.strings.get? i = some text := by
  rw [strings_collect, Arena.get?_sweep] at htext
  split at htext
  · rwa [(markFrom_frame h.strings h.functions held).1] at htext
  · cases htext

/-- A collection keeps a heap well-formed. -/
theorem Wf.collect (hw : h.Wf) (held : List Value) : (h.collect held).2.Wf := by
  obtain ⟨hstrings, hfunctions, hsizeS, hsizeF⟩ := markFrom_frame h.strings h.functions held
  refine ⟨?_, ?_, Arena.clear_sweep _, Arena.clear_sweep _, fun hash i => ?_, ?_⟩
  · exact Arena.Valid.sweep (valid_markFrom hw.strings hw.functions held).1
  · exact Arena.Valid.sweep (valid_markFrom hw.strings hw.functions held).2
  · rw [interned_collect, InternTable.mem_bucket_foldl_remove, hw.mem_bucket_iff,
      strings_collect, Arena.get?_sweep, hstrings]
    constructor
    · rintro ⟨⟨text, htext, hhash⟩, hkept⟩
      refine ⟨text, ?_, hhash⟩
      cases hm : (markFrom h.strings h.functions held).1.isMarked i with
      | true => simpa using htext
      | false =>
          have hdoomed := Arena.mem_doomed_iff.mpr ⟨(hstrings i).trans htext, hm⟩
          exact absurd hhash (hkept text hdoomed)
    · rintro ⟨text, htext, hhash⟩
      split at htext
      next hm =>
        refine ⟨⟨text, htext, hhash⟩, fun text' hdoomed => ?_⟩
        rw [(Arena.mem_doomed_iff.mp hdoomed).2] at hm
        cases hm
      next => cases htext
  · intro i j text hi hj
    exact hw.unique i j text (get?_strings_of_collect hi)
      (get?_strings_of_collect hj)

/-- A collection leaves no dead handle where there was none. -/
theorem HasNoDeadHandles.collect (hw : h.Wf) (hh : h.HasNoDeadHandles) (held : List Value) :
    (h.collect held).2.HasNoDeadHandles := by
  intro f o ho v hv
  have hf : h.Reach held (.function ⟨f⟩) :=
    reach_of_live_collect hw rfl (live_function_iff.mpr ⟨o, ho⟩)
  have hold : h.functions.get? f = some o := Eq.trans (agree_collect hw hf).symm ho
  have hreach : h.Reach held v := .child hf hold hv
  exact (agree_collect hw hreach).live_iff.mpr (hh f o hold v hv)

/-- What survives a collection is unchanged. -/
theorem agree_of_live_collect (hw : h.Wf) {v : Value} (hlive : (h.collect held).2.Live v) :
    h.Agree (h.collect held).2 v := by
  cases hobject : v.isObject with
  | true => exact agree_collect hw (reach_of_live_collect hw hobject hlive)
  | false => cases v <;> trivial

/-! ### Collecting before an allocation

Whether the collection runs makes no difference to what a caller may rely on. -/

section

variable {ρ : Type} [HasRoots ρ] {holder : ρ}

/-- A heap stays well-formed whether or not a collection is due. -/
theorem Wf.collectIfDue (hw : h.Wf) (holder : ρ) : (h.collectIfDue holder).Wf := by
  rw [Heap.collectIfDue]
  split
  · exact hw.collect _
  · exact hw

/-- What the holder reaches is the same after it. -/
theorem agree_collectIfDue (hw : h.Wf) {v : Value} (hv : h.Reach (roots holder) v) :
    h.Agree (h.collectIfDue holder) v := by
  rw [collectIfDue]
  split
  · exact agree_collect hw hv
  · exact .refl h v

/-- What is live after it is the same as before. -/
theorem agree_of_live_collectIfDue (hw : h.Wf) {v : Value}
    (hlive : (h.collectIfDue holder).Live v) : h.Agree (h.collectIfDue holder) v := by
  rw [collectIfDue] at hlive ⊢
  split at hlive
  next hdue =>
    rw [if_pos hdue]
    exact agree_of_live_collect hw hlive
  next hdue =>
    rw [if_neg hdue]
    exact .refl h v

/-- No handle in the heap is left without its object. -/
theorem HasNoDeadHandles.collectIfDue (hw : h.Wf) (hh : h.HasNoDeadHandles) (holder : ρ) :
    (h.collectIfDue holder).HasNoDeadHandles := by
  rw [Heap.collectIfDue]
  split
  · exact hh.collect hw _
  · exact hh

end

/-! ### Interning -/

/-- A text that is found belongs to the string found. -/
theorem get?_of_lookup {text : String} {s : StringHandle} (hs : h.lookup text = some s) :
    h.strings.get? s.index = some text := by
  obtain ⟨i, hfind, rfl⟩ := Option.map_eq_some_iff.mp hs
  simpa using List.find?_some hfind

/-- A text is found exactly when a live string has it. -/
theorem lookup_eq_none_iff (hw : h.Wf) {text : String} :
    h.lookup text = none ↔ ∀ i, h.strings.get? i ≠ some text := by
  rw [lookup, Option.map_eq_none_iff, List.find?_eq_none]
  constructor
  · intro hall i hi
    exact hall i ((hw.mem_bucket_iff _ i).mpr ⟨text, hi, rfl⟩) (by simpa using hi)
  · intro hnone i _
    simpa using hnone i

/-- What an allocation with some values held does to a heap: every live object that the holder
reaches stays as it was, and what is live afterwards is an old object, unchanged, or the new
one. -/
structure Grown (h : Heap) (held : List Value) (new : Value) (h' : Heap) : Prop where
  wf : h'.Wf
  agree : ∀ v, h.Reach held v → h.Live v → h.Agree h' v
  old : ∀ v, h'.Live v → v ≠ new → h.Agree h' v
  live : h'.Live new

/-- Adding a string changes nothing but the arena of strings and their table. -/
theorem addString_eq (h : Heap) (text : String) :
    h.addString text =
      (⟨(h.strings.alloc text).1⟩,
        { h with
          strings := (h.strings.alloc text).2
          interned := h.interned.add (textHash text) (h.strings.alloc text).1 }) := rfl

/-- Adding a string that is not there yet keeps a heap well-formed. -/
theorem Wf.addString (hw : h.Wf) {text : String} (hnew : ∀ i, h.strings.get? i ≠ some text) :
    (h.addString text).2.Wf := by
  have hget := Arena.get?_alloc hw.strings text
  have hempty := Arena.get?_alloc_fst hw.strings text
  rw [addString_eq]
  refine ⟨hw.strings.alloc text, hw.functions, hw.strings_clear.alloc text,
    hw.functions_clear, fun hash i => ?_, fun i j text' hi hj => ?_⟩
  · simp only [InternTable.bucket_add, hget]
    by_cases hi : i = (h.strings.alloc text).1
    · subst hi
      have hnot : ¬ ∃ text', h.strings.get? (h.strings.alloc text).1 = some text' ∧
          textHash text' = hash := by
        rintro ⟨text', htext', -⟩
        rw [hempty] at htext'
        cases htext'
      have hold := mt (hw.mem_bucket_iff hash _).mp hnot
      by_cases hh : textHash text = hash
      · simp [hh]
      · simpa [hh] using hold
    · have hold := hw.mem_bucket_iff hash i
      by_cases hh : textHash text = hash
      · simpa [hh, hi] using hold
      · simpa [hh, hi] using hold
  · simp only [hget] at hi hj
    -- the new text differs from every old one
    split at hi <;> split at hj
    · next hi' hj' => rw [hi', hj']
    · cases hi
      exact absurd hj (hnew j)
    · cases hj
      exact absurd hi (hnew i)
    · exact hw.unique i j text' hi hj

section

variable {ρ : Type} [HasRoots ρ] {holder : ρ}

/-- Interning answers with a live string of the text. -/
theorem get?_intern (hw : h.Wf) (text : String) (holder : ρ) :
    (h.intern text holder).2.strings.get? (h.intern text holder).1.index = some text := by
  rw [intern]
  split
  next s hs => exact get?_of_lookup hs
  next =>
    rw [addString_eq]
    simp [Arena.get?_alloc (hw.collectIfDue holder).strings]

/-- Interning is an allocation of at most one string. -/
theorem intern_grown (hw : h.Wf) (text : String) (holder : ρ) :
    h.Grown (roots holder) (.string (h.intern text holder).1) (h.intern text holder).2 := by
  have hlive : (h.intern text holder).2.Live (.string (h.intern text holder).1) :=
    live_string_iff.mpr ⟨text, get?_intern hw text holder⟩
  rw [intern] at hlive ⊢
  split at hlive
  next s hs =>
    exact ⟨hw, fun v _ _ => .refl h v, fun v _ _ => .refl h v, hlive⟩
  next hnone =>
    have hc := hw.collectIfDue holder
    have hget := Arena.get?_alloc hc.strings text
    have hempty := Arena.get?_alloc_fst hc.strings text
    have hnew : ∀ i, (h.collectIfDue holder).strings.get? i ≠ some text := by
      intro i hi
      have hlive : (h.collectIfDue holder).Live (.string ⟨i⟩) := live_string_iff.mpr ⟨text, hi⟩
      exact (lookup_eq_none_iff hw).mp hnone i
        (Eq.trans (agree_of_live_collectIfDue hw hlive).symm hi)
    refine ⟨hc.addString hnew, fun v hv hvlive => ?_, fun v hvlive hne => ?_, hlive⟩
    · have hagree := agree_collectIfDue hw hv
      refine hagree.trans ?_
      cases v with
      | string s =>
          -- the slot filled was empty, so it is not that of a live string
          have hs : s.index ≠ ((h.collectIfDue holder).strings.alloc text).1 := by
            intro heq
            obtain ⟨t, ht⟩ := live_string_iff.mp (hagree.live_iff.mpr hvlive)
            rw [heq, hempty] at ht
            cases ht
          simp [Agree, addString_eq, hget, hs]
      | function f => exact Eq.refl _
      | nil | bool | number => trivial
    · cases v with
      | string s =>
          have hs : s.index ≠ ((h.collectIfDue holder).strings.alloc text).1 := fun heq =>
            hne (congrArg Value.string (congrArg StringHandle.mk heq))
          have hsame : (h.collectIfDue holder).Agree
              ((h.collectIfDue holder).addString text).2 (.string s) := by
            simp [Agree, addString_eq, hget, hs]
          exact (agree_of_live_collectIfDue hw (hsame.live_iff.mp hvlive)).trans hsame
      | function f => exact agree_of_live_collectIfDue (v := .function f) hw hvlive
      | nil | bool | number => trivial

/-- Interning leaves no dead handle where there was none. -/
theorem HasNoDeadHandles.intern (hw : h.Wf) (hh : h.HasNoDeadHandles) (text : String)
    (holder : ρ) : (h.intern text holder).2.HasNoDeadHandles := by
  have hgrown := intern_grown hw text holder
  rw [Heap.intern] at hgrown ⊢
  split at hgrown
  next s hs => exact hh
  next hnone =>
    have hc := hw.collectIfDue holder
    intro f o ho v hv
    have hlive := hh.collectIfDue hw holder f o ho v hv
    cases v with
    | string s =>
        obtain ⟨t, ht⟩ := live_string_iff.mp hlive
        refine live_string_iff.mpr ?_
        rw [addString_eq]
        simp only [Arena.get?_alloc hc.strings]
        split
        · exact ⟨text, rfl⟩
        · exact ⟨t, ht⟩
    | function g => exact hlive
    | nil | bool | number => trivial

/-! ### Allocating functions -/

/-- A function is allocated behind the collection that may be due. -/
theorem allocFunction_eq (h : Heap) (holder : ρ) :
    h.allocFunction holder =
      (⟨((h.collectIfDue holder).functions.alloc .empty).1⟩,
        { h.collectIfDue holder with
          functions := ((h.collectIfDue holder).functions.alloc .empty).2 }) := rfl

/-- A new function is empty. -/
theorem get?_allocFunction (hw : h.Wf) (holder : ρ) :
    (h.allocFunction holder).2.functions.get? (h.allocFunction holder).1.index =
      some .empty := by
  rw [allocFunction_eq]
  simp [Arena.get?_alloc (hw.collectIfDue holder).functions]

/-- The handle of a new function is not that of a live function which the holder reaches. -/
theorem allocFunction_fresh (hw : h.Wf) (holder : ρ) {f : FunctionHandle}
    (hf : h.Reach (roots holder) (.function f)) (hlive : h.Live (.function f)) :
    f ≠ (h.allocFunction holder).1 := by
  rintro rfl
  have hempty := Arena.get?_alloc_fst (hw.collectIfDue holder).functions FunctionObject.empty
  obtain ⟨o, ho⟩ := live_function_iff.mp ((agree_collectIfDue hw hf).live_iff.mpr hlive)
  rw [allocFunction_eq] at ho
  rw [hempty] at ho
  cases ho

/-- Allocating adds the new function and loses nothing that is held. -/
theorem allocFunction_grown (hw : h.Wf) (holder : ρ) :
    h.Grown (roots holder) (.function (h.allocFunction holder).1)
      (h.allocFunction holder).2 := by
  have hc := hw.collectIfDue holder
  have hget := Arena.get?_alloc hc.functions FunctionObject.empty
  have hsame : ∀ v, v ≠ .function (h.allocFunction holder).1 →
      (h.collectIfDue holder).Agree (h.allocFunction holder).2 v := by
    intro v hne
    rw [allocFunction_eq] at hne ⊢
    cases v with
    | function f =>
        have hf : f.index ≠ ((h.collectIfDue holder).functions.alloc .empty).1 := fun heq =>
          hne (congrArg Value.function (congrArg FunctionHandle.mk heq))
        simp [Agree, hget, hf]
    | string s => exact Eq.refl _
    | nil | bool | number => trivial
  refine ⟨?_, fun v hv hlive => ?_, fun v hlive hne => ?_, ?_⟩
  · rw [allocFunction_eq]
    exact ⟨hc.strings, hc.functions.alloc _, hc.strings_clear, hc.functions_clear.alloc _,
      hc.mem_bucket_iff, hc.unique⟩
  · refine (agree_collectIfDue hw hv).trans (hsame v ?_)
    rintro rfl
    exact allocFunction_fresh hw holder hv hlive rfl
  · exact (agree_of_live_collectIfDue hw ((hsame v hne).live_iff.mp hlive)).trans (hsame v hne)
  · exact live_function_iff.mpr ⟨_, get?_allocFunction hw holder⟩

/-- Whoever holds a new function in addition reaches it and what was reached before. -/
theorem reach_allocFunction (hw : h.Wf) (holder : ρ) {held held' : List Value}
    (hclosed : h.Closed held) (hheld : ∀ v, h.Reach held v → h.Reach (roots holder) v)
    (hsub : ∀ v ∈ held', v ∈ held ∨ v = .function (h.allocFunction holder).1) {v : Value}
    (hv : (h.allocFunction holder).2.Reach held' v) :
    h.Reach held v ∨ v = .function (h.allocFunction holder).1 := by
  have hgrown := allocFunction_grown hw holder
  have hempty := get?_allocFunction hw holder
  induction hv with
  | root hmem => exact (hsub _ hmem).imp_left .root
  | child _ hget hchild ih =>
      rcases ih with hold | heq
      · have hagree := hgrown.agree _ (hheld _ hold) (hclosed _ hold)
        exact Or.inl (.child hold (Eq.trans hagree.symm hget) hchild)
      · cases heq
        rw [hempty] at hget
        cases hget
        cases hchild

/-- A new function stores no handles, so it stores no dead ones. -/
theorem HasNoDeadHandles.allocFunction (hw : h.Wf) (hh : h.HasNoDeadHandles) (holder : ρ) :
    (h.allocFunction holder).2.HasNoDeadHandles := by
  have hc := hw.collectIfDue holder
  intro f o ho v hv
  rw [allocFunction_eq] at ho ⊢
  simp only [Arena.get?_alloc hc.functions] at ho
  split at ho
  · cases ho
    simp [FunctionObject.children, FunctionObject.empty, Chunk.empty] at hv
  · have hlive := hh.collectIfDue hw holder f o ho v hv
    cases v with
    | function g =>
        obtain ⟨o', ho'⟩ := live_function_iff.mp hlive
        refine live_function_iff.mpr ?_
        simp only [Arena.get?_alloc hc.functions]
        split
        · exact ⟨_, rfl⟩
        · exact ⟨o', ho'⟩
    | string s => exact hlive
    | nil | bool | number => trivial

end

/-! ### Changing functions -/

/-- The parts of a heap in which a function was changed. -/
theorem modifyFunction_eq_ok {h' : Heap} {f : FunctionHandle}
    {change : FunctionObject → FunctionObject} (hf : h.modifyFunction f change = .ok h') :
    ∃ functions, h.functions.modify? f.index change = some functions ∧
      h' = { h with functions := functions } := by
  obtain ⟨strings, functions, interned, config, threshold, collections⟩ := h
  rw [modifyFunction] at hf
  split at hf
  next functions hmodify =>
    cases hf
    exact ⟨functions, hmodify, rfl⟩
  next => cases hf

/-- A live function can be changed. -/
theorem exists_modifyFunction {f : FunctionHandle} (hlive : h.Live (.function f))
    (change : FunctionObject → FunctionObject) : ∃ h', h.modifyFunction f change = .ok h' := by
  obtain ⟨o, ho⟩ := live_function_iff.mp hlive
  obtain ⟨strings, functions, interned, config, threshold, collections⟩ := h
  rw [modifyFunction]
  cases hmodify : functions.modify? f.index change with
  | some functions => exact ⟨_, rfl⟩
  | none =>
      rw [Arena.modify?_eq_none_iff.mp hmodify] at ho
      cases ho

/-- Only the function that is modified changes. -/
theorem get?_modifyFunction {h' : Heap} {f : FunctionHandle}
    {change : FunctionObject → FunctionObject} (hf : h.modifyFunction f change = .ok h')
    (i : Nat) : h'.functions.get? i =
      if i = f.index then (h.functions.get? f.index).map change else h.functions.get? i := by
  obtain ⟨functions, hmodify, rfl⟩ := modifyFunction_eq_ok hf
  exact Arena.get?_modify? hmodify i

/-- A change of one function leaves all other objects alone. -/
theorem agree_modifyFunction {h' : Heap} {f : FunctionHandle}
    {change : FunctionObject → FunctionObject} (hf : h.modifyFunction f change = .ok h')
    {v : Value} (hne : v ≠ .function f) : h.Agree h' v := by
  cases v with
  | string s =>
      obtain ⟨functions, -, rfl⟩ := modifyFunction_eq_ok hf
      exact Eq.refl _
  | function g =>
      have hindex : g.index ≠ f.index := fun heq =>
        hne (congrArg Value.function (congrArg FunctionHandle.mk heq))
      simp [Agree, get?_modifyFunction hf, hindex]
  | nil | bool | number => trivial

/-- A change of a function frees nothing and makes nothing. -/
theorem live_modifyFunction {h' : Heap} {f : FunctionHandle}
    {change : FunctionObject → FunctionObject} (hf : h.modifyFunction f change = .ok h')
    (v : Value) : h'.Live v ↔ h.Live v := by
  by_cases hv : v = .function f
  · subst hv
    rw [live_function_iff, live_function_iff, get?_modifyFunction hf, if_pos rfl]
    cases h.functions.get? f.index <;> simp
  · exact (agree_modifyFunction hf hv).live_iff

/-- A heap stays well-formed when a function changes. -/
theorem Wf.modifyFunction {h' : Heap} {f : FunctionHandle}
    {change : FunctionObject → FunctionObject} (hw : h.Wf)
    (hf : h.modifyFunction f change = .ok h') : h'.Wf := by
  obtain ⟨functions, hmodify, rfl⟩ := modifyFunction_eq_ok hf
  exact ⟨hw.strings, hw.functions.modify? hmodify, hw.strings_clear,
    hw.functions_clear.modify? hmodify, hw.mem_bucket_iff, hw.unique⟩

/-! ### Heaps that come about -/

/-- The heaps that the operations of a heap lead to, whatever their callers hold and however
they change functions. -/
inductive Reachable : Heap → Prop
  | ofConfig (config : HeapConfig) : Reachable (ofConfig config)
  | intern {h : Heap} (text : String) (held : List Value) :
      Reachable h → Reachable (h.intern text held).2
  | allocFunction {h : Heap} (held : List Value) : Reachable h → Reachable (h.allocFunction held).2
  | modifyFunction {h h' : Heap} {f : FunctionHandle} (change : FunctionObject → FunctionObject) :
      Reachable h → h.modifyFunction f change = .ok h' → Reachable h'
  | collect {h : Heap} (held : List Value) : Reachable h → Reachable (h.collect held).2

/-- Every heap that can be reached is well-formed. -/
theorem Reachable.wf (hr : h.Reachable) : h.Wf := by
  induction hr with
  | ofConfig config => exact wf_ofConfig config
  | intern text held _ ih => exact (intern_grown ih text held).wf
  | allocFunction held _ ih => exact (allocFunction_grown ih held).wf
  | modifyFunction change _ hf ih => exact ih.modifyFunction hf
  | collect held _ ih => exact ih.collect held

end Heap

end LoxBytecode
