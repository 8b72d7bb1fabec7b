/-!
# Arenas

An arena holds objects of one type in numbered slots. Objects never move; an emptied slot is
pushed on a stack of free slots, and an allocation reuses the top of that stack before it adds
a slot. Every slot carries the mark bit that a collection uses and that is clear at all other
times.

## Operations

* `get?` reads the object of a slot;
* `alloc` fills a free slot or a new one;
* `modify?` changes the object of an occupied slot;
* `mark` sets a mark bit, and `sweep` empties the unmarked slots and clears all marks.
-/

namespace LoxBytecode

/-- A place for an object. -/
structure Slot (α : Type) where
  object : Option α
  marked : Bool
deriving DecidableEq, Repr

/-- Numbered slots and the stack of those that are free, its top last. -/
structure Arena (α : Type) where
  slots : Array (Slot α)
  free : Array Nat
deriving DecidableEq, Repr

namespace Arena

variable {α : Type}

/-- The arena without slots. -/
def empty : Arena α := ⟨#[], #[]⟩

/-- The object in a slot, if the slot exists and is occupied. -/
def get? (a : Arena α) (index : Nat) : Option α :=
  a.slots[index]?.bind (·.object)

/-- The number of occupied slots. -/
def live (a : Arena α) : Nat :=
  a.slots.size - a.free.size

/-- Put an object into the last freed slot, or into a new one: its index and the arena. -/
def alloc (a : Arena α) (object : α) : Nat × Arena α :=
  match a with
  | ⟨slots, free⟩ =>
    match free.back? with
    | some index =>
      (index, ⟨slots.modify index fun slot => { slot with object := some object }, free.pop⟩)
    | none => (slots.size, ⟨slots.push ⟨some object, false⟩, free⟩)

/-- Change the object in an occupied slot. -/
def modify? (a : Arena α) (index : Nat) (f : α → α) : Option (Arena α) :=
  if (a.get? index).isSome then
    match a with
    | ⟨slots, free⟩ =>
      some ⟨slots.modify index fun slot => { slot with object := slot.object.map f }, free⟩
  else none

/-! ### Marking and sweeping -/

/-- Whether a slot exists and its mark is clear. An empty slot can be marked too. -/
def isUnmarked (a : Arena α) (index : Nat) : Bool :=
  a.slots[index]?.any (!·.marked)

/-- Set the mark of a slot, if it exists. -/
def mark (a : Arena α) (index : Nat) : Arena α :=
  match a with
  | ⟨slots, free⟩ => ⟨slots.modify index fun slot => { slot with marked := true }, free⟩

/-- The number of slots whose mark is clear. -/
def unmarked (a : Arena α) : Nat :=
  a.slots.countP (!·.marked)

/-- Marking an unmarked slot leaves fewer of them, which bounds every marking. -/
theorem unmarked_mark_lt {a : Arena α} {index : Nat} (h : a.isUnmarked index = true) :
    (a.mark index).unmarked < a.unmarked := by
  obtain ⟨slots, free⟩ := a
  obtain ⟨slot, found, clear⟩ := (Option.any_eq_true ..).mp h
  obtain ⟨bound, rfl⟩ := Array.getElem?_eq_some_iff.mp found
  have marked : slots.modify index (fun slot => { slot with marked := true })
      = slots.set index { slots[index] with marked := true } bound := by
    apply Array.ext_getElem?
    intro j
    rw [Array.getElem?_modify, Array.getElem?_set]
    split
    · next same => subst same; simp [bound]
    · rfl
  have counted : 0 < slots.countP (!·.marked) :=
    Array.countP_pos_iff.mpr ⟨_, Array.getElem_mem bound, clear⟩
  simp only [mark, unmarked, marked, Array.countP_set, clear, if_true, Bool.not_true,
    Bool.false_eq_true, if_false, Nat.add_zero]
  omega

/-- The slots that a sweep empties, in ascending order, with their objects. -/
def doomed (a : Arena α) : List (Nat × α) :=
  a.slots.toList.zipIdx.filterMap fun (slot, index) =>
    if slot.marked then none else slot.object.map (index, ·)

/-- Empty every unmarked slot and clear all marks. The slots emptied go on the stack of free
slots in ascending order, and are answered with the objects they held. -/
def sweep (a : Arena α) : Arena α × List (Nat × α) :=
  let doomed := a.doomed
  match a with
  | ⟨slots, free⟩ =>
    (⟨slots.map fun slot => ⟨if slot.marked then slot.object else none, false⟩,
      free ++ doomed.map (·.1)⟩, doomed)

end Arena

end LoxBytecode
