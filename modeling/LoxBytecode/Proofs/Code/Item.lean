import LoxBytecode.Proofs.Session.Trace

/-!
# Items

The code of a phrase as a list of items: instructions with their operand bytes, and marks that
take no space and say where phrases begin and end. Every item carries the number of locals in
scope where it was written. From the items of a function's code follow its bytes and the events
of writing it.
-/

namespace LoxBytecode

/-- A piece of code. -/
inductive Item where
  | instr (op : Opcode) (operands : List UInt8) (locals : Nat)
  | mark (happening : Happening) (locals : Nat)
deriving DecidableEq, Repr

namespace Item

/-- The bytes of an item. -/
def bytes : Item → List UInt8
  | .instr op operands _ => op.toByte :: operands
  | .mark .. => []

/-- The bytes of some items. -/
def code (is : List Item) : List UInt8 :=
  is.flatMap bytes

/-- The number of their bytes. -/
def size (is : List Item) : Nat :=
  (code is).length

/-- What happens while some items are written to the code of a function from an offset on. -/
def events (f : FunctionHandle) : Nat → List Item → List Event
  | _, [] => []
  | pc, .instr _ operands n :: is =>
    ⟨f, .writes, pc, n⟩ :: events f (pc + 1 + operands.length) is
  | pc, .mark happening n :: is => ⟨f, happening, pc, n⟩ :: events f pc is

/-- The operands of an item that makes a closure. -/
def closure? : Item → Option (UInt8 × List UInt8)
  | .instr .closure (k :: pairs) _ => some (k, pairs)
  | .instr .. | .mark .. => none

/-- The items that make closures. -/
def closures (is : List Item) : List (UInt8 × List UInt8) :=
  is.filterMap closure?

/-- The constants that some items make closures of. -/
def made (is : List Item) : List Nat :=
  (closures is).map fun closure => closure.1.toNat

/-! ### Lists of items -/

variable {is js : List Item}

@[simp] theorem code_nil : code [] = [] := rfl

@[simp] theorem code_instr (op : Opcode) (operands : List UInt8) (n : Nat) :
    code (.instr op operands n :: is) = op.toByte :: (operands ++ code is) := rfl

@[simp] theorem code_mark (happening : Happening) (n : Nat) :
    code (.mark happening n :: is) = code is := rfl

@[simp] theorem code_append : code (is ++ js) = code is ++ code js :=
  List.flatMap_append

@[simp] theorem size_nil : size [] = 0 := rfl

@[simp] theorem size_instr (op : Opcode) (operands : List UInt8) (n : Nat) :
    size (.instr op operands n :: is) = 1 + operands.length + size is := by
  simp [size]
  omega

@[simp] theorem size_mark (happening : Happening) (n : Nat) :
    size (.mark happening n :: is) = size is := rfl

@[simp] theorem size_append : size (is ++ js) = size is + size js := by
  simp [size]

@[simp] theorem closures_nil : closures [] = [] := rfl

@[simp] theorem closures_append (is js : List Item) :
    closures (is ++ js) = closures is ++ closures js :=
  List.filterMap_append

@[simp] theorem made_append (is js : List Item) : made (is ++ js) = made is ++ made js := by
  simp [made]

@[simp] theorem events_nil (f : FunctionHandle) (pc : Nat) : events f pc [] = [] := rfl

/-- The events of items in a row are those of the first and those of the others. -/
theorem events_append (f : FunctionHandle) (pc : Nat) (is js : List Item) :
    events f pc (is ++ js) = events f pc is ++ events f (pc + size is) js := by
  induction is generalizing pc with
  | nil => simp
  | cons i is ih =>
      cases i with
      | instr op operands n =>
          simp only [List.cons_append, events, ih, size_instr]
          congr 3
          omega
      | mark happening n => simp only [List.cons_append, events, ih, size_mark]

/-- All events of some items belong to the function. -/
theorem function_of_mem_events {f : FunctionHandle} {pc : Nat} {e : Event}
    (he : e ∈ events f pc is) : e.function = f := by
  induction is generalizing pc with
  | nil => cases he
  | cons i is ih =>
      cases i with
      | instr op operands n | mark happening n =>
          rcases List.mem_cons.mp he with rfl | he
          · rfl
          · exact ih he

/-- An event is that of an item, and tells how many bytes there are before it. -/
theorem exists_of_mem_events {f : FunctionHandle} {pc : Nat} {e : Event}
    (he : e ∈ events f pc is) : ∃ before after, e.offset = pc + size before ∧
      ((∃ op operands, e.happening = .writes ∧ is = before ++ .instr op operands e.locals :: after) ∨
        is = before ++ .mark e.happening e.locals :: after) := by
  induction is generalizing pc with
  | nil => cases he
  | cons i is ih =>
      cases i with
      | instr op operands n =>
          rcases List.mem_cons.mp he with rfl | he
          · exact ⟨[], is, rfl, Or.inl ⟨op, operands, rfl, rfl⟩⟩
          · obtain ⟨before, after, hoffset, hitem⟩ := ih he
            refine ⟨.instr op operands n :: before, after, ?_, ?_⟩
            · rw [hoffset, size_instr]
              omega
            · rcases hitem with ⟨op', operands', hwrites, rfl⟩ | hmark
              · exact Or.inl ⟨op', operands', hwrites, rfl⟩
              · exact Or.inr (congrArg (_ :: ·) hmark)
      | mark happening n =>
          rcases List.mem_cons.mp he with rfl | he
          · exact ⟨[], is, rfl, Or.inr rfl⟩
          · obtain ⟨before, after, hoffset, hitem⟩ := ih he
            refine ⟨.mark happening n :: before, after, hoffset, ?_⟩
            rcases hitem with ⟨op', operands', hwrites, rfl⟩ | hmark
            · exact Or.inl ⟨op', operands', hwrites, rfl⟩
            · exact Or.inr (congrArg (_ :: ·) hmark)

/-- Exchanging the operands of an instruction for others of that length leaves events alone. -/
theorem events_replace {f : FunctionHandle} {pc : Nat} {op : Opcode}
    {operands operands' : List UInt8} {n : Nat} (h : operands.length = operands'.length) :
    events f pc (is ++ .instr op operands n :: js) =
      events f pc (is ++ .instr op operands' n :: js) := by
  simp only [events_append, events, h]

end Item

/-- The events of one function. -/
def Event.ofFunction (f : FunctionHandle) (τ : List Event) : List Event :=
  τ.filter fun e => e.function = f

@[simp] theorem Event.ofFunction_nil (f : FunctionHandle) : ofFunction f [] = [] := rfl

@[simp] theorem Event.ofFunction_append (f : FunctionHandle) (τ τ' : List Event) :
    ofFunction f (τ ++ τ') = ofFunction f τ ++ ofFunction f τ' :=
  List.filter_append ..

/-- Events of other functions are none of this one. -/
theorem Event.ofFunction_eq_nil {f : FunctionHandle} {τ : List Event}
    (h : ∀ e ∈ τ, e.function ≠ f) : ofFunction f τ = [] := by
  rw [ofFunction, List.filter_eq_nil_iff]
  simpa using h

/-- Events of this function alone are all. -/
theorem Event.ofFunction_eq_self {f : FunctionHandle} {τ : List Event}
    (h : ∀ e ∈ τ, e.function = f) : ofFunction f τ = τ := by
  rw [ofFunction, List.filter_eq_self]
  simpa using h

end LoxBytecode
