import LoxBytecode.Compile

/-!
# The Fields of a Session

What each operation on a chunk, a function state or a session leaves alone. An operation writes
to few of the fields, and everything proved about the others goes through these equations.
-/

namespace LoxBytecode

/-- A chain of partial operations succeeds when each of them does. -/
theorem bind_eq_ok {α β : Type} {x : Checked α} {next : α → Checked β} {b : β} :
    x >>= next = .ok b ↔ ∃ a, x = .ok a ∧ next a = .ok b := by
  cases x <;> simp

/-- A chain of partial operations fails with the first of them that does. -/
theorem bind_eq_error {α β : Type} {x : Checked α} {next : α → Checked β} {fault : Fault} :
    x >>= next = .error fault ↔ x = .error fault ∨ ∃ a, x = .ok a ∧ next a = .error fault := by
  cases x <;> simp

/-! ### Chunks -/

namespace Chunk

@[simp] theorem constants_write (c : Chunk) (byte : UInt8) (line : Nat) :
    (c.write byte line).constants = c.constants := by
  simp only [write]
  split <;> rfl

@[simp] theorem code_write (c : Chunk) (byte : UInt8) (line : Nat) :
    (c.write byte line).code = c.code.push byte := by
  simp only [write]
  split <;> rfl

@[simp] theorem constants_writeBytes (c : Chunk) (bytes : List UInt8) (line : Nat) :
    (c.writeBytes bytes line).constants = c.constants := by
  induction bytes generalizing c with
  | nil => rfl
  | cons byte bytes ih => exact (ih (c.write byte line)).trans (constants_write c byte line)

@[simp] theorem code_writeBytes (c : Chunk) (bytes : List UInt8) (line : Nat) :
    (c.writeBytes bytes line).code = c.code ++ bytes.toArray := by
  induction bytes generalizing c with
  | nil => simp [writeBytes]
  | cons byte bytes ih =>
      have hrest := ih (c.write byte line)
      rw [code_write] at hrest
      exact hrest.trans (by simp)

@[simp] theorem constants_writeInstruction (c : Chunk) (op : Opcode) (operands : List UInt8)
    (line : Nat) : (c.writeInstruction op operands line).constants = c.constants := by
  simp [writeInstruction]

@[simp] theorem code_writeInstruction (c : Chunk) (op : Opcode) (operands : List UInt8)
    (line : Nat) :
    (c.writeInstruction op operands line).code = c.code ++ (op.toByte :: operands).toArray := by
  simp [writeInstruction]

@[simp] theorem constants_addConstant (c : Chunk) (v : Value) :
    (c.addConstant v).2.constants = c.constants.push v := rfl

@[simp] theorem code_addConstant (c : Chunk) (v : Value) :
    (c.addConstant v).2.code = c.code := rfl

@[simp] theorem constants_writeLoad (c : Chunk) (v : Value) (line : Nat) :
    (c.writeLoad v line).constants = c.constants.push v :=
  constants_writeInstruction (c.addConstant v).2 _ _ line

/-- A load is the opcode and the operand that the next index needs. -/
theorem code_writeLoad (c : Chunk) (v : Value) (line : Nat) :
    (c.writeLoad v line).code =
      c.code ++ ((loadOf c.constants.size).1.toByte :: (loadOf c.constants.size).2).toArray :=
  code_writeInstruction (c.addConstant v).2 _ _ line

/-- Filling in a distance leaves the constants alone. -/
theorem constants_patch16 {c c' : Chunk} {offset value : Nat}
    (h : c.patch16 offset value = .ok c') : c'.constants = c.constants := by
  rw [patch16] at h
  split at h
  · cases h
    rfl
  · cases h

/-- Filling in a distance replaces two bytes of the code. -/
theorem code_patch16 {c c' : Chunk} {offset value : Nat} (h : c.patch16 offset value = .ok c') :
    c'.code.toList =
      (c.code.toList.set offset (value >>> 8).toUInt8).set (offset + 1) value.toUInt8 := by
  rw [patch16] at h
  split at h <;> cases h
  simp

end Chunk

/-! ### Function states -/

namespace FunctionState

/-- What of a function state keeps objects alive: its handle and its constants. -/
def core (st : FunctionState) : FunctionHandle × Array Value :=
  (st.function, st.chunk.constants)

@[simp] theorem core_beginScope (st : FunctionState) : st.beginScope.core = st.core := rfl

/-- Leaving a scope changes neither the handle nor the constants of a function. -/
theorem core_endScope {st st' : FunctionState} {flags : List Bool}
    (h : st.endScope = .ok (flags, st')) : st'.core = st.core := by
  rw [endScope] at h
  split at h <;> cases h
  rfl

/-- Declaring a local changes neither the handle nor the constants of a function. -/
theorem core_declareLocal {st st' : FunctionState} {name : String}
    (h : st.declareLocal name = .ok st') : st'.core = st.core := by
  simp only [declareLocal, addLocal] at h
  split at h
  · cases h
  · split at h <;> cases h
    rfl

@[simp] theorem core_markInitialized (st : FunctionState) :
    st.markInitialized.core = st.core := by
  rw [markInitialized]
  split <;> rfl

@[simp] theorem core_capture (st : FunctionState) (slot : Nat) :
    (st.capture slot).core = st.core := by
  rw [capture]
  split <;> rfl

@[simp] theorem core_addUpvalue (st : FunctionState) (c : Capture) :
    (st.addUpvalue c).2.core = st.core := by
  rw [addUpvalue]
  split
  · rfl
  · split <;> rfl

end FunctionState

/-! ### Stacks of functions -/

/-- Resolving a capture writes to no code. -/
theorem core_resolveCapture (name : String) (inner : FunctionState)
    (outers : List FunctionState) :
    (resolveCapture name inner outers).2.1.core = inner.core ∧
      (resolveCapture name inner outers).2.2.map FunctionState.core =
        outers.map FunctionState.core := by
  induction outers generalizing inner with
  | nil => exact ⟨rfl, rfl⟩
  | cons outer rest ih =>
      have hih := ih outer
      rw [resolveCapture]
      cases outer.resolveLocal name with
      | error e => exact ⟨rfl, rfl⟩
      | ok found =>
          cases found with
          | some slot => simp
          | none =>
              rcases hres : resolveCapture name outer rest with ⟨found, outer', rest'⟩
              rw [hres] at hih
              rcases found with e | (- | index) <;> simpa using hih

namespace FunctionStack

/-- The functions being compiled, innermost first. -/
def states (s : FunctionStack) : List FunctionState :=
  s.current :: s.enclosing

/-- What each of them keeps alive. -/
def cores (s : FunctionStack) : List (FunctionHandle × Array Value) :=
  s.states.map FunctionState.core

/-- The handles of the functions being compiled. -/
def handles (s : FunctionStack) : List FunctionHandle :=
  s.cores.map (·.1)

/-- The constants of the functions being compiled. -/
def pool (s : FunctionStack) : List Value :=
  s.cores.flatMap (·.2.toList)

/-- A stack holds the handles and the constants of its functions. -/
theorem roots_eq (s : FunctionStack) :
    roots s = s.cores.reverse.flatMap fun c => .function c.1 :: c.2.toList := by
  show (s.enclosing.reverse ++ [s.current]).flatMap roots = _
  rw [cores, states, ← List.map_reverse, List.reverse_cons, List.flatMap_map]
  rfl

/-- The roots of a stack are its functions and their constants. -/
theorem mem_roots_iff {s : FunctionStack} {v : Value} :
    v ∈ roots s ↔ (∃ f ∈ s.handles, v = .function f) ∨ v ∈ s.pool := by
  rw [roots_eq, pool, handles]
  simp only [List.mem_flatMap, List.mem_reverse, List.mem_cons, List.mem_map]
  constructor
  · rintro ⟨c, hc, rfl | hv⟩
    · exact Or.inl ⟨c.1, ⟨c, hc, rfl⟩, rfl⟩
    · exact Or.inr ⟨c, hc, hv⟩
  · rintro (⟨f, ⟨c, hc, rfl⟩, rfl⟩ | ⟨c, hc, hv⟩)
    · exact ⟨c, hc, Or.inl rfl⟩
    · exact ⟨c, hc, Or.inr hv⟩

/-- Resolving a name changes neither. -/
theorem cores_resolveUpvalue (s : FunctionStack) (name : String) :
    (s.resolveUpvalue name).2.cores = s.cores := by
  obtain ⟨hcurrent, henclosing⟩ := core_resolveCapture name s.current s.enclosing
  exact List.cons_eq_cons.mpr ⟨hcurrent, henclosing⟩

end FunctionStack

/-! ### Sessions -/

namespace Session

@[simp] theorem host_report (s : Session) (t : Token) (message : String) :
    (s.report t message).host = s.host := by
  simp only [report]
  split <;> rfl

@[simp] theorem functions_report (s : Session) (t : Token) (message : String) :
    (s.report t message).functions = s.functions := by
  simp only [report]
  split <;> rfl

@[simp] theorem heap_report (s : Session) (t : Token) (message : String) :
    (s.report t message).heap = s.heap := by
  simp only [report]
  split <;> rfl

@[simp] theorem host_readFrom (s : Session) (ts : List Token) :
    (s.readFrom ts).host = s.host := by
  induction ts generalizing s with
  | nil => rfl
  | cons t ts ih =>
      rw [readFrom]
      split
      · rw [ih, host_report]
      · rfl

@[simp] theorem functions_readFrom (s : Session) (ts : List Token) :
    (s.readFrom ts).functions = s.functions := by
  induction ts generalizing s with
  | nil => rfl
  | cons t ts ih =>
      rw [readFrom]
      split
      · rw [ih, functions_report]
      · rfl

@[simp] theorem heap_readFrom (s : Session) (ts : List Token) :
    (s.readFrom ts).heap = s.heap := by
  induction ts generalizing s with
  | nil => rfl
  | cons t ts ih =>
      rw [readFrom]
      split
      · rw [ih, heap_report]
      · rfl

/-- A change of the heap that succeeds replaces the heap and nothing else. -/
theorem changeHeap_eq_ok {s t : Session} {change : Heap → Checked Heap}
    (h : s.changeHeap change = .ok t) :
    ∃ heap, change s.heap = .ok heap ∧ t = { s with heap := heap } := by
  rw [changeHeap] at h
  split at h
  next heap hchange =>
    cases h
    exact ⟨heap, hchange, rfl⟩
  next => cases h

/-- The pool keeps a constant whether or not its index fits an operand byte. -/
theorem addConstant_eq_ok {s t : Session} {v : Value} {index : UInt8}
    (h : s.addConstant v = .ok (index, t)) :
    (s.chunk.constants.size ≤ Chunk.maxShortConstant ∧ index = s.chunk.constants.size.toUInt8 ∧
        t = s.modifyChunk fun c => (c.addConstant v).2) ∨
      (Chunk.maxShortConstant < s.chunk.constants.size ∧
        t = (s.modifyChunk fun c => (c.addConstant v).2).fail (.chunk .tooManyConstants)) := by
  simp only [addConstant, narrow] at h
  split at h
  next hfits =>
    split at h <;> cases h
    exact Or.inl ⟨hfits, rfl, rfl⟩
  next hfull =>
    cases h
    exact Or.inr ⟨Nat.not_le.mp hfull, rfl⟩

/-- Ending a function moves what was compiled into its object, and makes the object a constant
of the function around it. -/
theorem endFunction_eq_ok {s t : Session} {constant : UInt8} {captures : List Capture}
    (h : s.endFunction = .ok ((constant, captures), t)) :
    ∃ st parent rest heap u, s.functions = ⟨st, parent :: rest⟩ ∧ captures = st.upvalues ∧
      s.heap.modifyFunction st.function (fun o =>
        { o with arity := st.arity, upvalueCount := st.upvalues.length, chunk := st.chunk }) =
          .ok heap ∧
      u = { s with functions := ⟨parent, rest⟩, heap := heap } ∧
      u.addConstant (.function st.function) = .ok (constant, t) := by
  rw [endFunction] at h
  rcases hfunctions : s.functions with ⟨st, - | ⟨parent, rest⟩⟩
  · rw [hfunctions] at h
    cases h
  · rw [hfunctions] at h
    simp only [FunctionStack.pop?] at h
    obtain ⟨u, hstore, h⟩ := bind_eq_ok.mp h
    obtain ⟨-, -, h⟩ := bind_eq_ok.mp h
    obtain ⟨⟨index, v⟩, hadd, h⟩ := bind_eq_ok.mp h
    cases h
    obtain ⟨heap, hmodify, rfl⟩ := changeHeap_eq_ok hstore
    exact ⟨st, parent, rest, heap, _, rfl, rfl, hmodify, rfl, hadd⟩

/-- A jump that is patched changes bytes of the current chunk, or is reported. -/
theorem patchJump_eq_ok {s t : Session} {offset : Nat} (h : s.patchJump offset = .ok t) :
    (∃ c, s.chunk.patch16 offset (s.chunk.size - (offset + 2)) = .ok c ∧
        offset + 2 ≤ s.chunk.size ∧ s.chunk.size - (offset + 2) ≤ maxJump ∧
        t = s.modifyChunk fun _ => c) ∨
      (maxJump < s.chunk.size - (offset + 2) ∧ t = s.fail .jumpTooLong) := by
  simp only [patchJump] at h
  split at h
  next => cases h
  next hsize =>
    split at h
    next hdistance =>
      split at h
      next c hc =>
        cases h
        exact Or.inl ⟨c, hc, Nat.not_lt.mp hsize, hdistance, rfl⟩
      next => cases h
    next hdistance =>
      cases h
      exact Or.inr ⟨Nat.not_le.mp hdistance, rfl⟩

end Session

end LoxBytecode
