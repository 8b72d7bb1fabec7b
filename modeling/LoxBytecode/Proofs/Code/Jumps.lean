import LoxBytecode.Proofs.Code.Steps

/-!
# The Operands of Jumps

A compilation deals with jumps by three calls: `patchJump` fills in the distance of a jump ahead,
`codeSize` tells where a loop starts, and `emitLoop` writes a jump back there. `CompileM.Calls`
lists these calls for any run, whether it leads to diagnostics or not.

`Layout` says of the code of a function that all its jumps are placed: the distance of each is
what one of the calls counted, or it is the largest one, which stands there as long as the jump
is open, and for ever in a compilation that fails.
-/

namespace LoxBytecode

/-! ### Calls -/

/-- What is done about a jump. -/
inductive JumpCall where
  /-- The distance that belongs at an offset is to lead to the end of the code, which has a
  size. -/
  | patch (function : FunctionHandle) (operand size : Nat)
  /-- The code has a size, which is where a loop can start. -/
  | start (function : FunctionHandle) (size : Nat)
  /-- A jump back to a target is written at an offset. -/
  | loop (function : FunctionHandle) (offset target : Nat)
deriving DecidableEq, Repr

/-- The calls in a run. -/
inductive CompileM.Calls : {α : Type} → CompileM α → Session → JumpCall → Prop
  | patch (s : Session) (offset : Nat) : Calls (patchJump offset) s
      (.patch s.functions.current.function offset s.chunk.size)
  | start (s : Session) : Calls codeSize s
      (.start s.functions.current.function s.chunk.size)
  | loop (s : Session) (target : Nat) : Calls (emitLoop target) s
      (.loop s.functions.current.function s.chunk.size target)
  | first {α β : Type} {first : CompileM β} {next : β → CompileM α} {s : Session}
      {k : JumpCall} : Calls first s k → Calls (first >>= next) s k
  | next {α β : Type} {first : CompileM β} {next : β → CompileM α} {s t : Session} {b : β}
      {k : JumpCall} : first.run s = .ok (b, t) → Calls (next b) t k → Calls (first >>= next) s k
  | part {α : Type} {phrase : Phrase} {body : CompileM α} {s : Session} {k : JumpCall} :
      Calls body s k → Calls (.part phrase body) s k

/-! ### Items -/

/-- The instructions that jump. -/
def Opcode.isJump : Opcode → Bool
  | .jump | .jumpIfFalse | .loop => Bool.true
  | _ => Bool.false

/-- An offset that is needed for a jump later. -/
inductive JumpEnd where
  /-- Where the distance of a jump ahead belongs. -/
  | operand (offset : Nat)
  /-- Where a jump back leads. -/
  | target (offset : Nat)
deriving DecidableEq, Repr

/-- Some items that begin at an offset have a jump ahead whose distance belongs at another. -/
def Item.HasRoom (j : Nat) : Nat → List Item → Prop
  | _, [] => False
  | pc, .instr op operands _ :: is =>
    (op.format = .jumpForward ∧ operands.length = 2 ∧ j = pc + 1) ∨
      HasRoom j (pc + 1 + operands.length) is
  | pc, .mark .. :: is => HasRoom j pc is

/-- The offset is one of the code of some items, and a jump back leads to where a loop can
start. -/
def JumpEnd.IsIn (C : JumpCall → Prop) (f : FunctionHandle) (is : List Item) : JumpEnd → Prop
  | .operand j => Item.HasRoom j 0 is
  | .target offset => offset ≤ Item.size is ∧ C (.start f offset)

section

variable (C : JumpCall → Prop) (failed : Prop) (f : FunctionHandle) (J : List JumpEnd)

/-- What stands at an offset of a function is no jump, or a jump that is placed. Some jumps
ahead may still be open. -/
inductive Item.Placed (pc : Nat) : Item → Prop
  | mark {happening : Happening} (n : Nat) : happening ≠ .writes → Placed pc (.mark happening n)
  | plain {op : Opcode} (operands : List UInt8) (n : Nat) : op.isJump = false →
      Placed pc (.instr op operands n)
  | ahead {op : Opcode} {distance : Nat} (n : Nat) : op.format = .jumpForward →
      distance ≤ Session.maxJump → C (.patch f (pc + 1) (pc + 3 + distance)) →
        Placed pc (.instr op (Chunk.bytesOf16 distance) n)
  | back {target distance : Nat} (n : Nat) : target ≤ pc → target + distance = pc + 3 →
      distance ≤ Session.maxJump → C (.start f target) → C (.loop f pc target) →
        Placed pc (.instr .loop (Chunk.bytesOf16 distance) n)
  | «open» {op : Opcode} (n : Nat) : op.format = .jumpForward → .operand (pc + 1) ∈ J →
      Placed pc (.instr op (Chunk.bytesOf16 Session.maxJump) n)
  | lost {op : Opcode} (n : Nat) : op.isJump = true → failed →
      Placed pc (.instr op (Chunk.bytesOf16 Session.maxJump) n)

/-- All items are placed, if they begin at an offset. -/
def Item.AllPlaced : Nat → List Item → Prop
  | _, [] => True
  | pc, i :: is => i.Placed C failed f J pc ∧ AllPlaced (pc + Item.size [i]) is

/-- The code of a function, with what has happened to it, consists of items that are placed. -/
structure Layout (σ : List Event) (code : List UInt8) (is : List Item) : Prop where
  code : code = Item.code is
  events : Event.ofFunction f σ = Item.events f 0 is
  placed : Item.AllPlaced C failed f J 0 is
  ends : ∀ x ∈ J, x.IsIn C f is

end

section

variable {C : JumpCall → Prop} {failed failed' : Prop} {f : FunctionHandle} {J J' : List JumpEnd}
  {pc : Nat} {is js : List Item} {i : Item} {σ τ : List Event} {code : List UInt8}

/-- An instruction with a distance ahead is a jump. -/
theorem Opcode.isJump_of_format {op : Opcode} (h : op.format = .jumpForward) :
    op.isJump = Bool.true := by
  cases op <;> first | rfl | cases h

/-- A jump has a distance ahead or back. -/
theorem Opcode.format_of_isJump {op : Opcode} (h : op.isJump = Bool.true) :
    op.format = .jumpForward ∨ op.format = .jumpBackward := by
  cases op <;> first | exact Or.inl rfl | exact Or.inr rfl | cases h

/-- The room for a distance is in the first items or in those behind them. -/
theorem Item.hasRoom_append {j : Nat} : Item.HasRoom j pc (is ++ js) ↔
    Item.HasRoom j pc is ∨ Item.HasRoom j (pc + Item.size is) js := by
  induction is generalizing pc with
  | nil => exact (or_iff_right id).symm
  | cons i is ih =>
      cases i with
      | instr op operands n =>
          rw [Item.size_instr, ← Nat.add_assoc, ← Nat.add_assoc]
          simp only [List.cons_append, Item.HasRoom, ih, or_assoc]
      | mark happening n => exact ih

/-- Where there is room for a distance there is the jump. -/
theorem Item.HasRoom.exists {j : Nat} (h : Item.HasRoom j pc is) :
    ∃ before op operands n after, is = before ++ .instr op operands n :: after ∧
      op.format = .jumpForward ∧ operands.length = 2 ∧ j = pc + Item.size before + 1 := by
  induction is generalizing pc with
  | nil => exact h.elim
  | cons i is ih =>
      cases i with
      | instr op operands n =>
          rcases h with ⟨hop, hlength, rfl⟩ | h
          · exact ⟨[], op, operands, n, is, rfl, hop, hlength, rfl⟩
          · obtain ⟨before, op', operands', n', after, rfl, hop, hlength, rfl⟩ := ih h
            refine ⟨.instr op operands n :: before, op', operands', n', after, rfl, hop, hlength, ?_⟩
            rw [Item.size_instr]
            omega
      | mark happening n =>
          obtain ⟨before, op', operands', n', after, rfl, hop, hlength, rfl⟩ := ih h
          exact ⟨.mark happening n :: before, op', operands', n', after, rfl, hop, hlength, rfl⟩

/-- All jumps are placed if those in the first items and those behind them are. -/
theorem Item.allPlaced_append : Item.AllPlaced C failed f J pc (is ++ js) ↔
    Item.AllPlaced C failed f J pc is ∧ Item.AllPlaced C failed f J (pc + Item.size is) js := by
  induction is generalizing pc with
  | nil => exact (and_iff_right trivial).symm
  | cons i is ih =>
      have hsize : Item.size (i :: is) = Item.size [i] + Item.size is :=
        @Item.size_append [i] is
      simp only [List.cons_append, Item.AllPlaced, ih, and_assoc, hsize, Nat.add_assoc]

/-- What is placed stays so where the jumps stay open that were open, or the compilation fails. -/
theorem Item.AllPlaced.mono (h : Item.AllPlaced C failed f J pc is) (hfailed : failed → failed')
    (hopen : ∀ x, pc < x → x ≤ pc + Item.size is → .operand x ∈ J → .operand x ∈ J' ∨ failed') :
    Item.AllPlaced C failed' f J' pc is := by
  induction is generalizing pc with
  | nil => trivial
  | cons i is ih =>
      have hsize : Item.size (i :: is) = Item.size [i] + Item.size is :=
        @Item.size_append [i] is
      refine ⟨?_, ih h.2 fun x hlt hle => hopen x (by omega) (by omega)⟩
      cases h.1 with
      | mark n hne => exact .mark n hne
      | plain operands n hop => exact .plain operands n hop
      | ahead n hop hfits hcall => exact .ahead n hop hfits hcall
      | back n hle hdistance hfits hstart hcall => exact .back n hle hdistance hfits hstart hcall
      | lost n hop hlost => exact .lost n hop (hfailed hlost)
      | @«open» op n hop hmem =>
          have hle : pc + 1 ≤ pc + Item.size (.instr op (Chunk.bytesOf16 Session.maxJump) n :: is) := by
            rw [Item.size_instr]
            omega
          rcases hopen (pc + 1) (Nat.lt_succ_self pc) hle hmem with hmem | hlost
          · exact .open n hop hmem
          · exact .lost n (Opcode.isJump_of_format hop) hlost

/-- An end that is in some items is in more of them. -/
theorem JumpEnd.IsIn.append {x : JumpEnd} (h : x.IsIn C f is) (js : List Item) :
    x.IsIn C f (is ++ js) := by
  cases x with
  | operand j => exact Item.hasRoom_append.mpr (Or.inl h)
  | target offset =>
      rw [IsIn, Item.size_append]
      exact h.imp_left Nat.le_add_right_of_le

/-- The operand of a jump ahead does not matter for where there is one. -/
theorem JumpEnd.IsIn.replace {x : JumpEnd} {op : Opcode} {operands operands' : List UInt8} {n : Nat}
    (h : x.IsIn C f (is ++ .instr op operands n :: js))
    (hlength : operands'.length = operands.length) :
    x.IsIn C f (is ++ .instr op operands' n :: js) := by
  cases x with
  | operand j =>
      rw [IsIn, Item.hasRoom_append, Item.HasRoom] at h ⊢
      rwa [hlength]
  | target offset =>
      rw [IsIn, Item.size_append, Item.size_instr] at h ⊢
      rwa [hlength]

/-! ### Changing a layout -/

/-- Fewer ends may be counted as open, but no operand less unless the compilation failed. -/
theorem Layout.mono (h : Layout C failed f J σ code is) (hfailed : failed → failed')
    (hsub : ∀ x ∈ J', x ∈ J) (hopen : ∀ x, .operand x ∈ J → .operand x ∈ J' ∨ failed') :
    Layout C failed' f J' σ code is where
  code := h.code
  events := h.events
  placed := h.placed.mono hfailed fun x _ _ => hopen x
  ends x hx := h.ends x (hsub x hx)

/-- What happens to other functions does not matter. -/
theorem Layout.events_append (h : Layout C failed f J σ code is)
    (hτ : ∀ e ∈ τ, e.function ≠ f) : Layout C failed f J (σ ++ τ) code is where
  code := h.code
  events := by rw [Event.ofFunction_append, Event.ofFunction_eq_nil hτ, List.append_nil, h.events]
  placed := h.placed
  ends := h.ends

/-- The items of a layout take all of the code. -/
theorem Layout.length (h : Layout C failed f J σ code is) : code.length = Item.size is := by
  rw [h.code]
  rfl

/-- What was written stands at its offset, and is placed if it is a jump. -/
theorem Layout.exists_of_written (h : Layout C failed f J σ code is) {e : Event}
    (he : e ∈ Event.ofFunction f σ) (hwrites : e.happening = .writes) :
    ∃ before op operands after, is = before ++ .instr op operands e.locals :: after ∧
      e.offset = Item.size before ∧
      Item.Placed C failed f J e.offset (.instr op operands e.locals) := by
  rw [h.events] at he
  obtain ⟨before, after, hoffset, hitem⟩ := Item.exists_of_mem_events he
  rw [Nat.zero_add] at hoffset
  have hplaced := h.placed
  rcases hitem with ⟨op, operands, -, rfl⟩ | rfl
  · have hat := (Item.allPlaced_append.mp hplaced).2.1
    rw [Nat.zero_add, ← hoffset] at hat
    exact ⟨before, op, operands, after, rfl, hoffset, hat⟩
  · cases (Item.allPlaced_append.mp hplaced).2.1 with
    | mark _ hne => exact absurd hwrites hne

/-- An item is added. A jump ahead among these may be left open. -/
theorem Layout.add (h : Layout C failed f J σ code is)
    (hi : i.Placed C failed f J' code.length) (hsub : ∀ x ∈ J, x ∈ J')
    (hnew : ∀ x ∈ J', x ∈ J ∨ x.IsIn C f (is ++ [i]))
    (hτ : τ = Item.events f code.length [i]) :
    Layout C failed f J' (σ ++ τ) (code ++ i.bytes) (is ++ [i]) where
  code := by
    rw [h.code, Item.code_append]
    congr 1
    cases i <;> simp [Item.bytes]
  events := by
    have hown : Event.ofFunction f τ = τ :=
      Event.ofFunction_eq_self fun e he => Item.function_of_mem_events (hτ ▸ he)
    rw [Event.ofFunction_append, h.events, hown, hτ, Item.events_append, h.length, Nat.zero_add]
  placed := by
    refine Item.allPlaced_append.mpr ⟨h.placed.mono id fun x _ _ hx => Or.inl (hsub _ hx), ?_, trivial⟩
    rwa [Nat.zero_add, ← h.length]
  ends x hx := (hnew x hx).elim (fun hold => (h.ends x hold).append _) id

/-- The distance of a jump ahead is filled in. -/
theorem Layout.patch (h : Layout C failed f J σ code is) {j distance : Nat}
    (hj : .operand j ∈ J) (hfits : distance ≤ Session.maxJump) (hsize : j + 2 + distance = code.length)
    (hcall : C (.patch f j code.length)) (hsub : ∀ x ∈ J', x ∈ J)
    (hopen : ∀ x, .operand x ∈ J → x = j ∨ .operand x ∈ J') :
    ∃ is', Layout C failed f J' σ
      ((code.set j (distance >>> 8).toUInt8).set (j + 1) distance.toUInt8) is' := by
  obtain ⟨before, op, operands, n, after, rfl, hop, hlength, rfl⟩ := (h.ends _ hj).exists
  rw [Nat.zero_add] at *
  obtain ⟨hbefore, -, hafter⟩ := Item.allPlaced_append.mp h.placed
  rw [Nat.zero_add] at hafter
  have hoperands : (Chunk.bytesOf16 distance).length = operands.length := hlength.symm
  refine ⟨before ++ .instr op (Chunk.bytesOf16 distance) n :: after, ?_, ?_, ?_, ?_⟩
  · have hpatch := @Item.code_patch [] before after op n operands (distance >>> 8).toUInt8
      distance.toUInt8 hlength
    rw [h.code]
    simpa [Chunk.bytesOf16] using hpatch
  · exact h.events.trans (Item.events_replace hoperands.symm)
  · rw [Item.size_instr, hlength] at hafter
    refine Item.allPlaced_append.mpr ⟨hbefore.mono id fun x _ hle hx => ?_, ?_, ?_⟩
    · exact Or.inl ((hopen x hx).resolve_left (by omega))
    · rw [Nat.zero_add]
      refine .ahead n hop hfits ?_
      rwa [show Item.size before + 3 + distance = code.length by omega]
    · rw [Nat.zero_add, Item.size_instr]
      refine hafter.mono id fun x hlt _ hx => Or.inl ((hopen x hx).resolve_left ?_)
      rw [Item.size_nil] at hlt
      omega
  · exact fun x hx => (h.ends x (hsub x hx)).replace hoperands

end

end LoxBytecode
