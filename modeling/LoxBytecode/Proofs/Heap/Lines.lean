import LoxBytecode.Heap.Collect

/-!
# Heaps Without Lines

The lines of a source get into a heap by the line tables of its functions and by nothing else.
`Heap.oneLine` is the heap as it would be if all code in it came from one line. Every operation
on a heap commutes with that, whatever it reads, frees and allocates: so nothing that a heap does
depends on lines, down to when it collects and which slot an object gets.
-/

namespace LoxBytecode

/-! ### Code from one line -/

/-- The chunk as if all its code came from line 1. -/
def Chunk.oneLine (c : Chunk) : Chunk :=
  { c with lines := if c.code.size = 0 then #[] else #[⟨0, 1⟩] }

namespace Chunk

variable (c : Chunk)

@[simp] theorem code_oneLine : c.oneLine.code = c.code := rfl

@[simp] theorem constants_oneLine : c.oneLine.constants = c.constants := rfl

@[simp] theorem oneLine_empty : empty.oneLine = empty := rfl

/-- Writing a byte is the same on one line. -/
theorem write_oneLine (byte : UInt8) (line : Nat) :
    c.oneLine.write byte 1 = (c.write byte line).oneLine := by
  obtain ⟨code, constants, lines⟩ := c
  have hright : (Chunk.write ⟨code, constants, lines⟩ byte line).oneLine =
      ⟨code.push byte, constants, #[⟨0, 1⟩]⟩ := by
    rw [write]
    split <;> simp [oneLine]
  rw [hright, oneLine, write]
  by_cases hempty : code.size = 0 <;> simp [hempty]

/-- Writing an instruction is the same on one line. -/
theorem writeInstruction_oneLine (op : Opcode) (operands : List UInt8) (line : Nat) :
    c.oneLine.writeInstruction op operands 1 = (c.writeInstruction op operands line).oneLine := by
  rw [writeInstruction, writeInstruction, c.write_oneLine op.toByte line]
  generalize c.write op.toByte line = c'
  rw [writeBytes, writeBytes]
  induction operands generalizing c' with
  | nil => rfl
  | cons byte bytes ih => rw [List.foldl_cons, List.foldl_cons, c'.write_oneLine byte line, ih]

/-- Writing a load is the same on one line. -/
theorem writeLoad_oneLine (value : Value) (line : Nat) :
    c.oneLine.writeLoad value 1 = (c.writeLoad value line).oneLine :=
  (c.addConstant value).2.writeInstruction_oneLine ..

/-- Filling in a distance is the same on one line. -/
theorem patch16_oneLine (offset value : Nat) :
    c.oneLine.patch16 offset value = (c.patch16 offset value).map oneLine := by
  obtain ⟨code, constants, lines⟩ := c
  rw [patch16, patch16, code_oneLine]
  split
  · simp [oneLine, Except.map]
  · rfl

end Chunk

/-- The function as if all its code came from one line. -/
def FunctionObject.oneLine (o : FunctionObject) : FunctionObject :=
  { o with chunk := o.chunk.oneLine }

@[simp] theorem FunctionObject.children_oneLine (o : FunctionObject) :
    o.oneLine.children = o.children := rfl

/-! ### Arenas with other objects -/

/-- The slot with its object changed. -/
def Slot.map {α β : Type} (f : α → β) (slot : Slot α) : Slot β :=
  ⟨slot.object.map f, slot.marked⟩

namespace Arena

variable {α β : Type} (f : α → β) (a : Arena α)

/-- The arena with every object changed. -/
def map : Arena β :=
  ⟨a.slots.map (Slot.map f), a.free⟩

/-- Changing a slot commutes with changing what all slots hold. -/
theorem modify_map_slots {g : Slot α → Slot α} {k : Slot β → Slot β}
    (h : ∀ slot, k (slot.map f) = (g slot).map f) (slots : Array (Slot α)) (i : Nat) :
    (slots.map (Slot.map f)).modify i k = (slots.modify i g).map (Slot.map f) := by
  refine Array.ext_getElem? fun j => ?_
  simp only [Array.getElem?_modify, Array.getElem?_map]
  split
  · cases slots[j]? <;> simp [h]
  · rfl

@[simp] theorem get?_map (i : Nat) : (a.map f).get? i = (a.get? i).map f := by
  simp only [get?, map, Array.getElem?_map]
  cases a.slots[i]? <;> rfl

@[simp] theorem live_map : (a.map f).live = a.live := by
  simp [live, map]

@[simp] theorem isUnmarked_map (i : Nat) : (a.map f).isUnmarked i = a.isUnmarked i := by
  simp only [isUnmarked, map, Array.getElem?_map]
  cases a.slots[i]? <;> rfl

/-- Marking a slot commutes with changing what all slots hold. -/
theorem mark_map (i : Nat) : (a.map f).mark i = (a.mark i).map f := by
  obtain ⟨slots, free⟩ := a
  exact congrArg (Arena.mk · free) <| modify_map_slots f
    (g := fun slot => { slot with marked := true }) (fun _ => rfl) slots i

/-- Filling a slot commutes with changing what all slots hold. -/
theorem alloc_map (x : α) : (a.map f).alloc (f x) = ((a.alloc x).1, (a.alloc x).2.map f) := by
  obtain ⟨slots, free⟩ := a
  simp only [map, alloc]
  cases free.back? with
  | none => simp [Slot.map]
  | some i =>
      exact congrArg (fun slots => (i, Arena.mk slots free.pop)) <| modify_map_slots f
        (g := fun slot => { slot with object := some x }) (fun _ => rfl) slots i

/-- A change that reads nothing of what differs. -/
theorem modify?_map {change : α → α} {change' : β → β} (h : ∀ x, change' (f x) = f (change x))
    (i : Nat) : (a.map f).modify? i change' = (a.modify? i change).map (map f) := by
  rw [modify?, modify?, get?_map, Option.isSome_map]
  split
  · obtain ⟨slots, free⟩ := a
    refine congrArg (fun slots => some (Arena.mk slots free)) <| modify_map_slots f
      (g := fun slot => { slot with object := slot.object.map change }) ?_ slots i
    rintro ⟨- | object, marked⟩ <;> simp [Slot.map, h]
  · rfl

/-- Which slots are to be swept does not depend on what they hold. -/
theorem doomed_map : (a.map f).doomed = a.doomed.map fun x => (x.1, f x.2) := by
  simp only [doomed, map, Array.toList_map, List.zipIdx_map, List.filterMap_map, List.map_filterMap]
  congr 1
  funext ⟨⟨object, marked⟩, i⟩
  cases marked <;> cases object <;> rfl

/-- Sweeping commutes with changing what all slots hold. -/
theorem sweep_map :
    (a.map f).sweep = (a.sweep.1.map f, a.sweep.2.map fun x => (x.1, f x.2)) := by
  rw [sweep, sweep, doomed_map]
  obtain ⟨slots, free⟩ := a
  simp only [map, Prod.mk.injEq, Arena.mk.injEq, Array.map_map, List.map_map, and_true]
  refine ⟨congrArg (Array.map · slots) (funext ?_), rfl⟩
  rintro ⟨object, marked⟩
  cases marked <;> rfl

end Arena

/-! ### Heaps -/

namespace Heap

/-- The heap as if all code in it came from one line. -/
def oneLine (h : Heap) : Heap :=
  { h with functions := h.functions.map FunctionObject.oneLine }

variable (h : Heap)

@[simp] theorem strings_oneLine : h.oneLine.strings = h.strings := rfl

@[simp] theorem lookup_oneLine (text : String) : h.oneLine.lookup text = h.lookup text := rfl

/-- Marking only depends on what functions refer to. -/
theorem markFrom_map {f : FunctionObject → FunctionObject}
    (hf : ∀ o, (f o).children = o.children) (strings : Arena String)
    (functions : Arena FunctionObject) (gray : List Value) :
    markFrom strings (functions.map f) gray =
      ((markFrom strings functions gray).1, (markFrom strings functions gray).2.map f) := by
  fun_induction markFrom strings functions gray with
  | case1 => rw [markFrom]
  | case2 strings functions s gray ih => rw [markFrom, ih]
  | case3 strings functions g gray hunmarked reached ih =>
      have hreached : (((functions.map f).get? g.index).map FunctionObject.children).getD [] =
          reached := by
        rw [Arena.get?_map, Option.map_map]
        exact congrArg (fun o => (Option.map o _).getD []) (funext hf)
      rw [markFrom, Arena.isUnmarked_map, if_pos hunmarked, hreached, Arena.mark_map, ih]
  | case4 strings functions g gray hmarked ih =>
      rw [markFrom, Arena.isUnmarked_map, if_neg hmarked, ih]
  | case5 | case6 | case7 => rw [markFrom]; assumption

/-- A collection is the same on one line. -/
theorem collect_oneLine (held : List Value) :
    h.oneLine.collect held = ((h.collect held).1, (h.collect held).2.oneLine) := by
  obtain ⟨strings, functions, interned, config, threshold, collections⟩ := h
  simp only [collect, oneLine, markFrom_map FunctionObject.children_oneLine, Arena.sweep_map,
    Arena.live_map, List.length_map]

/-- A collection that may be due is the same on one line. -/
theorem collectIfDue_oneLine {ρ : Type} [HasRoots ρ] (holder : ρ) :
    h.oneLine.collectIfDue holder = (h.collectIfDue holder).oneLine := by
  have hdue : h.oneLine.isDue = h.isDue := by
    rw [isDue, isDue, live, live, oneLine, Arena.live_map]
  rw [collectIfDue, collectIfDue, hdue]
  split
  · rw [collect_oneLine]
  · rfl

/-- Interning a text is the same on one line. -/
theorem intern_oneLine {ρ : Type} [HasRoots ρ] (text : String) (holder : ρ) :
    h.oneLine.intern text holder = ((h.intern text holder).1, (h.intern text holder).2.oneLine) := by
  rw [intern, intern, lookup_oneLine]
  cases h.lookup text with
  | some s => rfl
  | none =>
      dsimp only
      rw [collectIfDue_oneLine]
      rfl

/-- Allocating a function is the same on one line. -/
theorem allocFunction_oneLine {ρ : Type} [HasRoots ρ] (holder : ρ) :
    h.oneLine.allocFunction holder =
      ((h.allocFunction holder).1, (h.allocFunction holder).2.oneLine) := by
  rw [allocFunction, allocFunction, collectIfDue_oneLine]
  have hempty : FunctionObject.empty = FunctionObject.empty.oneLine := rfl
  obtain ⟨strings, functions, interned, config, threshold, collections⟩ := h.collectIfDue holder
  simp only [oneLine]
  rw [hempty, Arena.alloc_map, ← hempty]

/-- A change that reads nothing of the lines. -/
theorem modifyFunction_oneLine (f : FunctionHandle) {change change' : FunctionObject → FunctionObject}
    (hchange : ∀ o, change' o.oneLine = (change o).oneLine) :
    h.oneLine.modifyFunction f change' = (h.modifyFunction f change).map oneLine := by
  obtain ⟨strings, functions, interned, config, threshold, collections⟩ := h
  rw [modifyFunction, modifyFunction, oneLine]
  simp only [Arena.modify?_map _ _ hchange]
  cases functions.modify? f.index change <;> rfl

/-- Naming a function is the same on one line. -/
theorem setName_oneLine (f : FunctionHandle) (name : Option StringHandle) :
    h.oneLine.setName f name = (h.setName f name).map oneLine :=
  h.modifyFunction_oneLine f fun _ => rfl

/-- Values are displayed without lines. -/
theorem display_oneLine (v : Value) : h.oneLine.display v = h.display v := by
  cases v with
  | bool b => cases b <;> rfl
  | nil | number | string => rfl
  | function f =>
      simp only [display, function, oneLine, Arena.get?_map]
      cases h.functions.get? f.index <;> rfl

end Heap

/-! ### Heaps that differ in lines only -/

/-- Two functions differ in nothing but their line tables. -/
structure FunctionObject.SameButLines (o o' : FunctionObject) : Prop where
  name : o'.name = o.name
  arity : o'.arity = o.arity
  upvalueCount : o'.upvalueCount = o.upvalueCount
  code : o'.chunk.code = o.chunk.code
  constants : o'.chunk.constants = o.chunk.constants

/-- Two heaps have the same strings and functions in the same slots, but for line tables, and
the same slots to fill next, and have collected equally often. -/
structure Heap.SameButLines (h h' : Heap) : Prop where
  strings : h'.strings = h.strings
  functions : ∀ f : FunctionHandle, Option.Rel FunctionObject.SameButLines
    (h.functions.get? f.index) (h'.functions.get? f.index)
  free : h'.functions.free = h.functions.free
  collections : h'.collections = h.collections

/-- Functions that are equal on one line differ in lines at most. -/
theorem FunctionObject.SameButLines.of_oneLine {o o' : FunctionObject}
    (h : o'.oneLine = o.oneLine) : o.SameButLines o' := by
  obtain ⟨hname, harity, hcount, hchunk⟩ := FunctionObject.mk.inj h
  obtain ⟨hcode, hconstants, -⟩ := Chunk.mk.inj hchunk
  exact ⟨hname, harity, hcount, hcode, hconstants⟩

/-- Heaps that are equal on one line differ in lines at most. -/
theorem Heap.SameButLines.of_oneLine {h h' : Heap} (heq : h'.oneLine = h.oneLine) :
    h.SameButLines h' := by
  obtain ⟨hstrings, hfunctions, -, -, -, hcollections⟩ := Heap.mk.inj heq
  refine ⟨hstrings, fun f => ?_, congrArg (·.free) hfunctions, hcollections⟩
  have hget : (h'.functions.get? f.index).map FunctionObject.oneLine =
      (h.functions.get? f.index).map FunctionObject.oneLine := by
    rw [← Arena.get?_map, ← Arena.get?_map, hfunctions]
  cases hf : h.functions.get? f.index with
  | none =>
      rw [hf, Option.map_none, Option.map_eq_none_iff] at hget
      rw [hget]
      exact .none
  | some o =>
      rw [hf, Option.map_some, Option.map_eq_some_iff] at hget
      obtain ⟨o', ho', hsame⟩ := hget
      rw [ho']
      exact .some (.of_oneLine hsame)

end LoxBytecode
