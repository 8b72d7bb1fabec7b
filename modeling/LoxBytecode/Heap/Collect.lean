import LoxBytecode.Heap

/-!
# Collection and Allocation

A collection marks everything reachable from the roots, following the names and constants of
live functions, and then sweeps both arenas; a swept string leaves the intern table. Only the
two allocating operations, `Heap.intern` and `Heap.allocFunction`, start a collection, and each
receives what its caller still holds.
-/

namespace LoxBytecode

namespace Heap

/-! ### Marking -/

/-- Mark the objects of a worklist and everything reachable from them. A function is followed
once, when its mark goes from clear to set; marking an empty slot leads nowhere. -/
def markFrom (strings : Arena String) (functions : Arena FunctionObject) (gray : List Value) :
    Arena String × Arena FunctionObject :=
  match gray with
  | [] => (strings, functions)
  | .string s :: gray => markFrom (strings.mark s.index) functions gray
  | .function f :: gray =>
    if functions.isUnmarked f.index then
      let reached := ((functions.get? f.index).map FunctionObject.children).getD []
      markFrom strings (functions.mark f.index) (reached ++ gray)
    else markFrom strings functions gray
  | .nil :: gray | .bool _ :: gray | .number _ :: gray => markFrom strings functions gray
termination_by (functions.unmarked, gray.length)
decreasing_by
  · exact Prod.Lex.right _ (Nat.lt_succ_self _)
  · exact Prod.Lex.left _ _ (Arena.unmarked_mark_lt ‹_›)
  all_goals exact Prod.Lex.right _ (Nat.lt_succ_self _)

/-! ### Collecting -/

/-- The product of two machine words of 64 bits. What does not fit into one is lost. -/
def mulWord (m n : Nat) : Nat :=
  m * n % UInt64.size

/-- Free everything that is not reachable from the roots: the number of objects freed, and the
heap. -/
def collect (h : Heap) (roots : List Value) : Nat × Heap :=
  match h with
  | ⟨strings, functions, interned, config, _, collections⟩ =>
    let (strings, functions) := markFrom strings functions roots
    let (strings, freedStrings) := strings.sweep
    let (functions, freedFunctions) := functions.sweep
    let interned := freedStrings.foldl (fun t (slot, text) => t.remove (textHash text) slot) interned
    let threshold := max (mulWord (strings.live + functions.live) config.growthFactor)
      config.initialThreshold
    (freedStrings.length + freedFunctions.length,
      ⟨strings, functions, interned, config, threshold, collections + 1⟩)

/-- Whether the next allocation collects first. -/
def isDue (h : Heap) : Bool :=
  h.config.stress || h.threshold ≤ h.live

/-- Collect if the next allocation has to. -/
def collectIfDue {ρ : Type} [HasRoots ρ] (h : Heap) (holder : ρ) : Heap :=
  if h.isDue then (h.collect (roots holder)).2 else h

/-! ### Allocating -/

/-- Add a string whose text is not interned yet. -/
def addString (h : Heap) (text : String) : StringHandle × Heap :=
  match h with
  | ⟨strings, functions, interned, config, threshold, collections⟩ =>
    let (slot, strings) := strings.alloc text
    (⟨slot⟩,
      ⟨strings, functions, interned.add (textHash text) slot, config, threshold, collections⟩)

/-- The string with a text. A text that is interned already is found and allocates nothing. -/
def intern {ρ : Type} [HasRoots ρ] (h : Heap) (text : String) (holder : ρ) :
    StringHandle × Heap :=
  match h.lookup text with
  | some s => (s, h)
  | none => (h.collectIfDue holder).addString text

/-- A new function object without name or code. -/
def allocFunction {ρ : Type} [HasRoots ρ] (h : Heap) (holder : ρ) : FunctionHandle × Heap :=
  match h.collectIfDue holder with
  | ⟨strings, functions, interned, config, threshold, collections⟩ =>
    let (slot, functions) := functions.alloc FunctionObject.empty
    (⟨slot⟩, ⟨strings, functions, interned, config, threshold, collections⟩)

end Heap

end LoxBytecode
