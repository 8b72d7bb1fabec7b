import LoxBytecode.Chunk.Decode
import LoxBytecode.Proofs.Code.Shape

/-!
# Decoding Items

Where the code of some items lies in a chunk (`Chunk.Holds`), each of their instructions is
decoded again: the decoder finds the opcode, and the operand that the bytes behind it encode
(`Holds.decode`). All items of a program's code are `Valid`, which says that their operand bytes
are those that the opcode asks for and name what they should (`StmtCode.valid`).
-/

namespace LoxBytecode

/-! ### Items in a chunk -/

/-- The code of some items lies in a chunk from an offset on. -/
def Chunk.Holds (c : Chunk) (pc : Nat) (is : List Item) : Prop :=
  ∃ before after, c.code.toList = before ++ Item.code is ++ after ∧ before.length = pc

namespace Chunk.Holds

variable {c : Chunk} {pc : Nat} {is js : List Item} {op : Opcode} {operands : List UInt8}
  {n : Nat}

/-- A chunk that holds items holds the first of them. -/
theorem left (h : c.Holds pc (is ++ js)) : c.Holds pc is := by
  obtain ⟨before, after, hcode, hpc⟩ := h
  exact ⟨before, Item.code js ++ after, by simp [hcode], hpc⟩

/-- A chunk that holds items holds those behind the first. -/
theorem right (h : c.Holds pc (is ++ js)) : c.Holds (pc + Item.size is) js := by
  obtain ⟨before, after, hcode, hpc⟩ := h
  refine ⟨before ++ Item.code is, after, by simp [hcode], ?_⟩
  rw [List.length_append, hpc]
  rfl

/-- Behind an instruction it holds what follows. -/
theorem of_instr (h : c.Holds pc (.instr op operands n :: is)) :
    c.Holds (pc + 1 + operands.length) is := by
  have hcons : c.Holds pc ([.instr op operands n] ++ is) := h
  have hright := hcons.right
  rw [Item.size_instr, Item.size_nil] at hright
  rwa [show pc + 1 + operands.length = pc + (1 + operands.length + 0) by omega]

/-- A mark takes no room, so what follows is at the same place. -/
theorem of_mark {happening : Happening} (h : c.Holds pc (.mark happening n :: is)) :
    c.Holds pc is := h

/-- The items lie within the code. -/
theorem le_size (h : c.Holds pc is) : pc + Item.size is ≤ c.size := by
  obtain ⟨before, after, hcode, hpc⟩ := h
  have hlength := congrArg List.length hcode
  simp only [Array.length_toList, List.length_append] at hlength
  rw [Chunk.size, Item.size]
  omega

/-- A chunk holds all of its own code. -/
theorem of_eq (h : c.code.toList = Item.code is) : c.Holds 0 is :=
  ⟨[], [], by simp [h], rfl⟩

/-! ### Decoding -/

/-- Where an instruction is, its opcode is read. -/
theorem byteAt_op (h : c.Holds pc (.instr op operands n :: is)) : c.byteAt pc = .ok op.toByte := by
  obtain ⟨before, after, hcode, hpc⟩ := h
  have hget : c.code.toList[pc]? = some op.toByte := by
    simp [hcode, ← hpc]
  rw [Array.getElem?_toList] at hget
  rw [byteAt, hget]

/-- Behind it each of its operand bytes is read. -/
theorem byteAt_operand (h : c.Holds pc (.instr op operands n :: is)) {i : Nat} {b : UInt8}
    (hb : operands[i]? = some b) : c.byteAt (pc + 1 + i) = .ok b := by
  obtain ⟨before, after, hcode, hpc⟩ := h
  have hlt : i < operands.length := (List.getElem?_eq_some_iff.mp hb).1
  have hget : c.code.toList[pc + 1 + i]? = some b := by
    rw [hcode, Item.code_instr, List.append_assoc, List.getElem?_append_right (by omega),
      show pc + 1 + i - before.length = i + 1 by omega, List.cons_append,
      List.getElem?_cons_succ, List.append_assoc, List.getElem?_append_left hlt, hb]
  rw [Array.getElem?_toList] at hget
  rw [byteAt, hget]

end Chunk.Holds

/-- The bytes at the front of a list encode an operand in a format. -/
inductive Operand.Encoded : OperandFormat → List UInt8 → Operand → Prop
  | none (bs : List UInt8) : Encoded .none bs .none
  | byte (a : UInt8) (bs : List UInt8) : Encoded .byte (a :: bs) (.byte a)
  | constant (a : UInt8) (bs : List UInt8) : Encoded .constantIndex (a :: bs) (.constant a.toNat)
  | constantLong (a b d : UInt8) (bs : List UInt8) :
      Encoded .constantIndexLong (a :: b :: d :: bs)
        (.constant (a.toNat + b.toNat <<< 8 + d.toNat <<< 16))
  | ahead (a b : UInt8) (bs : List UInt8) :
      Encoded .jumpForward (a :: b :: bs) (.ahead (a.toNat <<< 8 + b.toNat))
  | back (a b : UInt8) (bs : List UInt8) :
      Encoded .jumpBackward (a :: b :: bs) (.back (a.toNat <<< 8 + b.toNat))
  | captures (a : UInt8) (bs : List UInt8) : Encoded .captures (a :: bs) (.captures a.toNat)

/-- An operand has the bytes that its format takes. -/
theorem Operand.Encoded.size_le {format : OperandFormat} {operands : List UInt8}
    {operand : Operand} (h : Operand.Encoded format operands operand) :
    format.size ≤ operands.length := by
  cases h <;> simp [OperandFormat.size]

/-- A distance that fits is encoded in two bytes. -/
theorem encoded_bytesOf16 {d : Nat} (hd : d ≤ Session.maxJump) :
    Operand.Encoded .jumpForward (Chunk.bytesOf16 d) (.ahead d) ∧
      Operand.Encoded .jumpBackward (Chunk.bytesOf16 d) (.back d) := by
  have hsum : (d >>> 8).toUInt8.toNat <<< 8 + d.toUInt8.toNat = d := by
    simp only [Nat.toUInt8_eq, UInt8.toNat_ofNat', Nat.shiftRight_eq_div_pow,
      Nat.shiftLeft_eq]
    rw [Session.maxJump] at hd
    omega
  have hahead := Operand.Encoded.ahead (d >>> 8).toUInt8 d.toUInt8 []
  have hback := Operand.Encoded.back (d >>> 8).toUInt8 d.toUInt8 []
  rw [hsum] at hahead hback
  exact ⟨hahead, hback⟩

/-- The instruction that loads a constant encodes its index. -/
theorem encoded_loadOf {op : Opcode} {operands : List UInt8} {i : Nat}
    (h : (op, operands) = Chunk.loadOf i) (hi : i < Chunk.maxConstants) :
    (op = .constant ∨ op = .constantLong) ∧ operands.length = op.operandSize ∧
      Operand.Encoded op.format operands (.constant i) := by
  rw [Chunk.loadOf] at h
  split at h
  next hshort =>
    cases h
    have hbyte := Operand.Encoded.constant i.toUInt8 []
    rw [show i.toUInt8.toNat = i from Nat.mod_eq_of_lt (Nat.lt_succ_of_le hshort)] at hbyte
    exact ⟨Or.inl rfl, rfl, hbyte⟩
  next hlong =>
    cases h
    have hsum : i.toUInt8.toNat + (i >>> 8).toUInt8.toNat <<< 8 +
        (i >>> 16).toUInt8.toNat <<< 16 = i := by
      simp only [Nat.toUInt8_eq, UInt8.toNat_ofNat', Nat.shiftRight_eq_div_pow,
        Nat.shiftLeft_eq]
      rw [Chunk.maxConstants] at hi
      omega
    have hbytes := Operand.Encoded.constantLong i.toUInt8 (i >>> 8).toUInt8 (i >>> 16).toUInt8 []
    rw [hsum] at hbytes
    exact ⟨Or.inr rfl, rfl, hbytes⟩

namespace Chunk.Holds

variable {c : Chunk} {pc : Nat} {is : List Item} {op : Opcode} {operands : List UInt8}
  {n : Nat} {operand : Operand}

/-- An operand is read back from the bytes that it was written as. -/
theorem readOperand {format : OperandFormat} (h : c.Holds pc (.instr op operands n :: is))
    (hoperand : Operand.Encoded format operands operand) :
    c.readOperand (pc + 1) format = .ok operand := by
  cases hoperand with
  | none => rfl
  | byte a | constant a | captures a =>
      rw [Chunk.readOperand, h.byteAt_operand (i := 0) rfl]
      rfl
  | ahead a b | back a b =>
      rw [Chunk.readOperand, read16, h.byteAt_operand (i := 0) rfl, h.byteAt_operand (i := 1) rfl]
      rfl
  | constantLong a b d =>
      rw [Chunk.readOperand, read24, h.byteAt_operand (i := 0) rfl,
        h.byteAt_operand (i := 1) rfl, h.byteAt_operand (i := 2) rfl]
      rfl

/-- An instruction whose operand bytes encode an operand is decoded as that. -/
theorem decode (h : c.Holds pc (.instr op operands n :: is))
    (hoperand : Operand.Encoded op.format operands operand) :
    c.decode pc = .ok (.instruction op operand (pc + 1 + op.operandSize)) := by
  have hsize : op.operandSize ≤ operands.length := hoperand.size_le
  have hle := h.le_size
  rw [Item.size_instr] at hle
  have hinside : ¬ c.size < pc + 1 + op.operandSize := by omega
  simp only [Chunk.decode, h.byteAt_op, bind, Except.bind, Opcode.ofByte?_toByte, hinside,
    if_false, h.readOperand hoperand]
  rfl

end Chunk.Holds

/-! ### Valid items -/

/-- An instruction has the operand bytes that its opcode asks for, and these name what they
should. -/
inductive Item.Valid (w : World) : Item → Prop
  | mark {happening : Happening} (n : Nat) : happening ≠ .writes → Valid w (.mark happening n)
  | plain {op : Opcode} (n : Nat) : op.format = .none → Valid w (.instr op [] n)
  | byte {op : Opcode} {b : UInt8} (n : Nat) : op.format = .byte →
      (op = .getUpvalue ∨ op = .setUpvalue → b.toNat < w.upvalues) → Valid w (.instr op [b] n)
  | load {op : Opcode} {operands : List UInt8} {i : Nat} (n : Nat) :
      (op, operands) = Chunk.loadOf i → i < Chunk.maxConstants → i < w.constants.length →
        Valid w (.instr op operands n)
  | named {op : Opcode} {b : UInt8} {name : String} (n : Nat) : op.format = .constantIndex →
      w.HasText b.toNat name → Valid w (.instr op [b] n)
  | ahead {op : Opcode} {d : Nat} (n : Nat) : op.format = .jumpForward →
      d ≤ Session.maxJump → Valid w (.instr op (Chunk.bytesOf16 d) n)
  | back {d : Nat} (n : Nat) : d ≤ Session.maxJump → Valid w (.instr .loop (Chunk.bytesOf16 d) n)
  | closure {Γ : Scope} {o : FunctionObject} {k : UInt8} {captures : List Capture}
      {pairs : List UInt8} : w.MakesClosure Γ o k captures pairs →
      Valid w (Γ.op .closure (k :: pairs))

section

variable {w : World} {Γ Γ' : Scope}

/-- A constant with a text is one of the constants. -/
theorem World.HasText.lt {i : Nat} {text : String} (h : w.HasText i text) :
    i < w.constants.length := by
  obtain ⟨s, hs, -⟩ := h
  exact (List.getElem?_eq_some_iff.mp hs).1

/-- The instructions that read and write a variable are valid. -/
theorem World.Resolves.valid {name : String} {access : Access} (h : w.Resolves Γ name access)
    (n : Nat) : Item.Valid w (.instr access.read [access.operand] n) ∧
      Item.Valid w (.instr access.write [access.operand] n) := by
  cases h with
  | «local» => exact ⟨.byte n rfl (by rintro (h | h) <;> cases h),
      .byte n rfl (by rintro (h | h) <;> cases h)⟩
  | upvalue _ _ horigin =>
      exact ⟨.byte n rfl fun _ => lt_upvalues horigin, .byte n rfl fun _ => lt_upvalues horigin⟩
  | global _ _ htext => exact ⟨.named n rfl htext, .named n rfl htext⟩

/-- Every item of an expression is one that can be read back. -/
theorem ExprCode.valid {es : List Expr} {is : List Item} (h : ExprCode w Γ es is) :
    ∀ i ∈ is, i.Valid w := by
  induction h with
  | nil => simp
  | cons _ _ ihHead ihTail => exact List.forall_mem_append.mpr ⟨ihHead, ihTail⟩
  | literal l =>
      refine List.forall_mem_singleton.mpr (.plain _ ?_)
      cases l <;> rfl
  | number hload hlt hv =>
      exact List.forall_mem_singleton.mpr
        (.load _ hload hlt (List.getElem?_eq_some_iff.mp hv).1)
  | string hload hlt htext => exact List.forall_mem_singleton.mpr (.load _ hload hlt htext.lt)
  | «variable» hr => exact List.forall_mem_singleton.mpr (hr.valid _).1
  | assign hr _ ih =>
      exact List.forall_mem_append.mpr ⟨ih, List.forall_mem_singleton.mpr (hr.valid _).2⟩
  | @unary o _ _ _ ih =>
      refine List.forall_mem_append.mpr ⟨ih, List.forall_mem_singleton.mpr (.plain _ ?_)⟩
      cases o <;> rfl
  | @binary o _ _ _ _ _ _ ihLeft ihRight =>
      refine List.forall_mem_append.mpr ⟨List.forall_mem_append.mpr ⟨ihLeft, ihRight⟩, ?_⟩
      have hplain : ∀ op ∈ o.code, op.format = .none := by cases o <;> decide
      intro i hi
      obtain ⟨op, hop, rfl⟩ := List.mem_map.mp hi
      exact .plain _ (hplain op hop)
  | and _ _ hfits ihLeft ihRight =>
      exact List.forall_mem_append.mpr ⟨ihLeft, List.forall_mem_cons.mpr ⟨.ahead _ rfl hfits,
        List.forall_mem_cons.mpr ⟨.plain _ rfl, ihRight⟩⟩⟩
  | or _ _ hfits ihLeft ihRight =>
      exact List.forall_mem_append.mpr ⟨ihLeft, List.forall_mem_cons.mpr
        ⟨.ahead _ rfl (by simp [Session.maxJump]), List.forall_mem_cons.mpr
          ⟨.ahead _ rfl hfits, List.forall_mem_cons.mpr ⟨.plain _ rfl, ihRight⟩⟩⟩⟩
  | call _ _ _ ihCallee ihArguments =>
      exact List.forall_mem_append.mpr ⟨List.forall_mem_append.mpr ⟨ihCallee, ihArguments⟩,
        List.forall_mem_singleton.mpr (.byte _ rfl (by rintro (h | h) <;> cases h))⟩
  | get _ htext ih =>
      exact List.forall_mem_append.mpr ⟨ih, List.forall_mem_singleton.mpr (.named _ rfl htext)⟩
  | set _ _ htext ihObject ihValue =>
      exact List.forall_mem_append.mpr ⟨List.forall_mem_append.mpr ⟨ihObject, ihValue⟩,
        List.forall_mem_singleton.mpr (.named _ rfl htext)⟩

/-- Every item of a value can be read back. -/
theorem ValueCode.valid {value : Option Expr} {is : List Item} (h : ValueCode w Γ value is) :
    ∀ i ∈ is, i.Valid w := by
  cases h with
  | none => exact List.forall_mem_singleton.mpr (.plain _ rfl)
  | some h => exact h.valid

/-- The pops at the end of a scope can be read back. -/
theorem Scope.valid_pops (Γ : Scope) : ∀ i ∈ Γ.pops, i.Valid w := by
  intro i hi
  obtain ⟨l, -, rfl⟩ := List.mem_map.mp hi
  cases l.captured <;> exact .plain _ rfl

/-- The items of a loop can be read back if those of its parts can. -/
theorem LoopParts.Fits.valid {p : LoopParts} (h : p.Fits)
    (hcondition : ∀ a, p.condition = some a → ∀ i ∈ a, i.Valid w)
    (hstep : ∀ a, p.step = some a → ∀ i ∈ a, i.Valid w) (hbody : ∀ i ∈ p.body, i.Valid w) :
    ∀ i ∈ p.items, i.Valid w := by
  obtain ⟨before, after, condition, step, body⟩ := p
  have hpart : ∀ i ∈ (LoopParts.mk before after condition step body).stepPart, i.Valid w := by
    cases step with
    | none => simp [LoopParts.stepPart]
    | some a =>
        refine List.forall_mem_cons.mpr ⟨.ahead _ rfl (h.skip a rfl), ?_⟩
        exact List.forall_mem_append.mpr ⟨hstep a rfl, List.forall_mem_cons.mpr
          ⟨.plain _ rfl, List.forall_mem_singleton.mpr (.back _ (h.head a rfl))⟩⟩
  have hinner : ∀ i ∈ (LoopParts.mk before after condition step body).inner, i.Valid w :=
    List.forall_mem_append.mpr ⟨List.forall_mem_append.mpr ⟨hpart, hbody⟩,
      List.forall_mem_singleton.mpr (.back _ h.back)⟩
  cases condition with
  | none => exact hinner
  | some a =>
      refine List.forall_mem_append.mpr ⟨List.forall_mem_append.mpr ⟨hcondition a rfl, ?_⟩,
        List.forall_mem_singleton.mpr (.plain _ rfl)⟩
      exact List.forall_mem_cons.mpr ⟨.ahead _ rfl (h.exit a rfl),
        List.forall_mem_cons.mpr ⟨.plain _ rfl, hinner⟩⟩

/-- Every item of a clause can be read back. -/
theorem OptionCode.valid {e : Option Expr} {is : Option (List Item)} (h : OptionCode w Γ e is) :
    ∀ a, is = some a → ∀ i ∈ a, i.Valid w := by
  cases h with
  | none => rintro a ⟨⟩
  | some h =>
      rintro a ⟨⟩
      exact h.valid

/-- All items of a statement's code are valid. -/
theorem StmtCode.valid {st : Stmt} {is : List Item} (h : StmtCode w Γ st is Γ') :
    ∀ i ∈ is, i.Valid w := by
  induction h with
  | skip => simp
  | seq _ _ ihFirst ihSecond => exact List.forall_mem_append.mpr ⟨ihFirst, ihSecond⟩
  | marked phrase _ ih =>
      exact List.forall_mem_append.mpr
        ⟨List.forall_mem_cons.mpr ⟨.mark _ (by rintro ⟨⟩), ih⟩,
          List.forall_mem_singleton.mpr (.mark _ (by rintro ⟨⟩))⟩
  | expression he | print he =>
      exact List.forall_mem_append.mpr ⟨he.valid, List.forall_mem_singleton.mpr (.plain _ rfl)⟩
  | ret hv =>
      exact List.forall_mem_append.mpr ⟨hv.valid, List.forall_mem_singleton.mpr (.plain _ rfl)⟩
  | del hr htext =>
      exact List.forall_mem_cons.mpr
        ⟨(hr.valid _).1, List.forall_mem_singleton.mpr (.named _ rfl htext)⟩
  | branch hc _ _ _ _ hfitsYes hfitsNo ihYes ihNo =>
      refine List.forall_mem_append.mpr ⟨List.forall_mem_append.mpr ⟨hc.valid, ?_⟩, ?_⟩
      · exact List.forall_mem_cons.mpr
          ⟨.ahead _ rfl hfitsYes, List.forall_mem_cons.mpr ⟨.plain _ rfl, ihYes⟩⟩
      · exact List.forall_mem_cons.mpr
          ⟨.ahead _ rfl hfitsNo, List.forall_mem_cons.mpr ⟨.plain _ rfl, ihNo⟩⟩
  | whileLoop hc _ _ hfits ih =>
      refine hfits.valid ?_ (by simp) ih
      rintro a ⟨⟩
      exact hc.valid
  | forLoop _ hc hstep _ _ hfits ihFirst ihBody =>
      exact List.forall_mem_append.mpr ⟨List.forall_mem_append.mpr
        ⟨ihFirst, hfits.valid hc.valid hstep.valid ihBody⟩, Scope.valid_pops _⟩
  | block _ ih => exact List.forall_mem_append.mpr ⟨ih, Scope.valid_pops _⟩
  | varGlobal _ htext hv =>
      exact List.forall_mem_append.mpr
        ⟨hv.valid, List.forall_mem_singleton.mpr (.named _ rfl htext)⟩
  | varLocal _ _ hv => exact hv.valid
  | classGlobal _ htext =>
      exact List.forall_mem_cons.mpr
        ⟨.named _ rfl htext, List.forall_mem_singleton.mpr (.named _ rfl htext)⟩
  | classLocal _ _ htext => exact List.forall_mem_singleton.mpr (.named _ rfl htext)
  | funGlobal _ htext _ hm =>
      exact List.forall_mem_cons.mpr
        ⟨.closure hm, List.forall_mem_singleton.mpr (.named _ rfl htext)⟩
  | funLocal _ _ _ hm => exact List.forall_mem_singleton.mpr (.closure hm)

end

end LoxBytecode
