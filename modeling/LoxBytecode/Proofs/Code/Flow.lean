import LoxBytecode.Proofs.Code.Decoding

/-!
# The Flow of Control and the Stack

Which heights the stack can have while the code of a program runs. `Flows` says what a height
for every offset owes to one instruction: enough values below it, and the right height wherever
control goes on. Some items are `Balanced` between two heights when such an assignment exists
for them, wherever they lie. Pieces of code that are balanced are put together, along with the
jumps between them, to larger pieces, up to the loops.

The heights of two pieces are glued together at an offset (`joint`). A jump needs nothing but
the heights at the ends of pieces, which is all that `Fills` keeps of them.
-/

namespace LoxBytecode

/-! ### Instructions -/

/-- The number of values that an instruction takes from the stack or looks at. -/
def Opcode.takes (op : Opcode) (operand : Operand) : Nat :=
  match op with
  | .pop | .closeUpvalue | .print | .defineGlobal | .ret | .delProperty | .not | .negate
  | .setLocal | .setGlobal | .setUpvalue | .getProperty | .jumpIfFalse => 1
  | .setProperty | .equal | .greater | .less | .add | .subtract | .multiply | .divide => 2
  | .call =>
    match operand with
    | .byte count => count.toNat + 1
    | _ => 1
  | .constant | .constantLong | .nil | .true | .false | .getLocal | .getGlobal | .getUpvalue
  | .closure | .newClass | .jump | .loop => 0

/-- The number of values that an instruction leaves in their place. -/
def Opcode.gives : Opcode → Nat
  | .pop | .closeUpvalue | .print | .defineGlobal | .ret | .delProperty | .jump | .loop => 0
  | _ => 1

/-- Where control can go on after an instruction behind which the next one is at `next`. -/
def Opcode.successors (op : Opcode) (next : Nat) : Operand → List Nat
  | .ahead d => if op = .jump then [next + d] else [next, next + d]
  | .back d => [next - d]
  | _ => [next]

/-- What heights of the stack owe to an instruction: there is a value in slot 0 that it does not
take, the slots that it names are there, and where control goes on, which are the offsets `T`,
the height has changed by what the instruction does. -/
structure Flows (T : Nat → Prop) (H : Nat → Nat) (pc next : Nat) (op : Opcode)
    (operand : Operand) : Prop where
  takes : op.takes operand < H pc
  slot : ∀ slot, op = .getLocal ∨ op = .setLocal → operand = .byte slot → slot.toNat < H pc
  inside : ∀ d, operand = .back d → d ≤ next
  edges : ∀ t ∈ op.successors next operand,
    T t ∧ H t + op.takes operand = H pc + op.gives

/-! ### Items -/

/-- The offsets of the instructions among some items that begin at an offset, and the offset
behind them. -/
def Bound : Nat → List Item → Nat → Prop
  | pc, [], t => t = pc
  | pc, .instr _ operands _ :: is, t => t = pc ∨ Bound (pc + 1 + operands.length) is t
  | pc, .mark .. :: is, t => Bound pc is t

/-- Heights suit some items that begin at an offset. At a mark the height is the number of
locals in scope. -/
def Stacked (T : Nat → Prop) (H : Nat → Nat) : Nat → List Item → Prop
  | _, [] => True
  | pc, .instr op operands _ :: is =>
    (∃ operand, Operand.Encoded op.format operands operand ∧
      Flows T H pc (pc + 1 + operands.length) op operand) ∧
    Stacked T H (pc + 1 + operands.length) is
  | pc, .mark happening n :: is => (happening ≠ .writes ∧ H pc = n) ∧ Stacked T H pc is

section

variable {T T' : Nat → Prop} {H H' : Nat → Nat} {pc t : Nat} {is js : List Item}

/-- The first offset is one of some items. -/
theorem bound_start (pc : Nat) (is : List Item) : Bound pc is pc := by
  induction is generalizing pc with
  | nil => rfl
  | cons i is ih =>
      cases i with
      | instr op operands n => exact Or.inl rfl
      | mark happening n => exact ih pc

/-- The offsets of items in a row are those of the first and those of the others. -/
theorem bound_append : Bound pc (is ++ js) t ↔ Bound pc is t ∨ Bound (pc + Item.size is) js t := by
  induction is generalizing pc with
  | nil =>
      refine ⟨Or.inr, ?_⟩
      rintro (rfl | h)
      · exact bound_start ..
      · exact h
  | cons i is ih =>
      cases i with
      | instr op operands n =>
          rw [Item.size_instr, ← Nat.add_assoc, ← Nat.add_assoc]
          simp only [List.cons_append, Bound, ih, or_assoc]
      | mark happening n => exact ih

/-- The offset behind some items is one of theirs. -/
theorem bound_end (pc : Nat) (is : List Item) : Bound pc is (pc + Item.size is) := by
  have hend : Bound pc (is ++ []) (pc + Item.size is) := bound_append.mpr (Or.inr rfl)
  rwa [List.append_nil] at hend

/-- All offsets lie between the first and the one behind. -/
theorem Bound.le (h : Bound pc is t) : pc ≤ t ∧ t ≤ pc + Item.size is := by
  induction is generalizing pc with
  | nil =>
      obtain rfl : t = pc := h
      exact ⟨Nat.le_refl _, Nat.le_refl _⟩
  | cons i is ih =>
      cases i with
      | instr op operands n =>
          rw [Item.size_instr]
          rcases h with rfl | h
          · omega
          · have hle := ih h
            omega
      | mark happening n => exact ih h

/-- Heights suit items in a row if they suit the first and the others. -/
theorem stacked_append :
    Stacked T H pc (is ++ js) ↔ Stacked T H pc is ∧ Stacked T H (pc + Item.size is) js := by
  induction is generalizing pc with
  | nil => exact (and_iff_right trivial).symm
  | cons i is ih =>
      cases i with
      | instr op operands n =>
          rw [Item.size_instr, ← Nat.add_assoc, ← Nat.add_assoc]
          simp only [List.cons_append, Stacked, ih, and_assoc]
      | mark happening n => simp only [List.cons_append, Stacked, ih, Item.size_mark, and_assoc]

/-- Only the heights where control goes on matter, and those may be more offsets. -/
theorem Stacked.congr (h : Stacked T H pc is) (hT : ∀ x, T x → T' x)
    (heq : ∀ x, T x → H' x = H x) (hbound : ∀ x, Bound pc is x → T x) :
    Stacked T' H' pc is := by
  induction is generalizing pc with
  | nil => trivial
  | cons i is ih =>
      have hpc := heq pc (hbound pc (bound_start ..))
      cases i with
      | instr op operands n =>
          obtain ⟨⟨operand, hencoded, hflows⟩, hrest⟩ := h
          refine ⟨⟨operand, hencoded, ?_⟩, ih hrest fun x hx => hbound x (Or.inr hx)⟩
          refine ⟨hpc ▸ hflows.takes, hpc ▸ hflows.slot, hflows.inside, fun t ht => ?_⟩
          obtain ⟨htarget, hheight⟩ := hflows.edges t ht
          rw [heq t htarget, hpc]
          exact ⟨hT t htarget, hheight⟩
      | mark happening n => exact ⟨hpc ▸ h.1, ih h.2 hbound⟩

end

/-! ### Balanced pieces -/

/-- Heights suit some items at an offset, from one height to another. -/
structure Fills (H : Nat → Nat) (pc : Nat) (is : List Item) (i j : Nat) : Prop where
  start : H pc = i
  stop : H (pc + Item.size is) = j
  stacked : Stacked (Bound pc is) H pc is

/-- Wherever some items lie, there are heights that suit them. -/
def Balanced (is : List Item) (i j : Nat) : Prop :=
  ∀ pc, ∃ H, Fills H pc is i j

/-- One assignment of heights before an offset and another one from there on. -/
def joint (m : Nat) (H H' : Nat → Nat) (x : Nat) : Nat :=
  if x < m then H x else H' x

section

variable {T : Nat → Prop} {H H' : Nat → Nat} {pc m i j k : Nat} {is js a x y : List Item}

/-- In front of the seam the first heights are meant. -/
theorem joint_of_lt {x : Nat} (h : x < m) : joint m H H' x = H x :=
  if_pos h

/-- From the seam on the second ones are. -/
theorem joint_of_le {x : Nat} (h : m ≤ x) : joint m H H' x = H' x :=
  if_neg (Nat.not_lt_of_le h)

/-- Code that fills a piece on its own is stacked inside a larger one. -/
theorem Fills.within (h : Fills H pc is i j) (hT : ∀ x, Bound pc is x → T x) :
    Stacked T H pc is :=
  h.stacked.congr hT (fun _ _ => rfl) fun _ => id

/-- Only the heights at the offsets of some items matter to them. -/
theorem Fills.congr (h : Fills H pc is i j)
    (heq : ∀ x, pc ≤ x → x ≤ pc + Item.size is → H' x = H x) : Fills H' pc is i j where
  start := (heq pc (Nat.le_refl _) (Nat.le_add_right ..)).trans h.start
  stop := (heq _ (Nat.le_add_right ..) (Nat.le_refl _)).trans h.stop
  stacked := h.stacked.congr (fun _ => id) (fun x hx => heq x hx.le.1 hx.le.2) fun _ => id

/-- Items behind a seam keep the second heights. -/
theorem Fills.joint_right (h : Fills H' pc is i j) (hm : m ≤ pc) : Fills (joint m H H') pc is i j :=
  h.congr fun _ hle _ => joint_of_le (Nat.le_trans hm hle)

/-- Items in front of it keep the first, if both agree at the end. -/
theorem Fills.joint_left (h : Fills H pc is i j) (hm : pc + Item.size is ≤ m)
    (hstop : pc + Item.size is = m → H' m = j) : Fills (joint m H H') pc is i j := by
  refine h.congr fun x _ hx => ?_
  rcases Nat.lt_or_ge x m with hlt | hge
  · exact joint_of_lt hlt
  · obtain rfl : x = m := by omega
    have hend : pc + Item.size is = x := by omega
    rw [joint_of_le hge, hstop hend, ← h.stop, hend]

/-- Without items the height stays. -/
theorem Balanced.nil : Balanced [] i i :=
  fun _ => ⟨fun _ => i, rfl, rfl, trivial⟩

/-- Items in a row lead from the first height to the last. -/
theorem Balanced.append (h : Balanced is i j) (h' : Balanced js j k) :
    Balanced (is ++ js) i k := by
  intro pc
  obtain ⟨H, hH⟩ := h pc
  obtain ⟨H', hH'⟩ := h' (pc + Item.size is)
  have hleft : Fills (joint (pc + Item.size is) H H') pc is i j :=
    hH.joint_left (Nat.le_refl _) fun _ => hH'.start
  have hright : Fills (joint (pc + Item.size is) H H') (pc + Item.size is) js j k :=
    hH'.joint_right (Nat.le_refl _)
  refine ⟨_, hleft.start, ?_, stacked_append.mpr
    ⟨hleft.within fun x hx => bound_append.mpr (Or.inl hx),
      hright.within fun x hx => bound_append.mpr (Or.inr hx)⟩⟩
  rw [Item.size_append, ← Nat.add_assoc]
  exact hright.stop

/-- One item and others behind it lead from the first height to the last. -/
theorem Balanced.cons {x : Item} (h : Balanced [x] i j) (h' : Balanced js j k) :
    Balanced (x :: js) i k :=
  h.append h'

/-- At a mark the height is the number of locals. -/
theorem Balanced.mark {happening : Happening} (n : Nat) (h : happening ≠ .writes) :
    Balanced [.mark happening n] n n :=
  fun _ => ⟨fun _ => n, rfl, rfl, ⟨h, rfl⟩, trivial⟩

/-- An instruction behind which control goes on. -/
theorem Balanced.instr {op : Opcode} {operands : List UInt8} {operand : Operand} {n : Nat}
    (hencoded : Operand.Encoded op.format operands operand)
    (hnext : ∀ next, op.successors next operand = [next]) (hback : ∀ d, operand ≠ .back d)
    (htakes : op.takes operand < i)
    (hslot : ∀ slot, op = .getLocal ∨ op = .setLocal → operand = .byte slot → slot.toNat < i)
    (hheight : j + op.takes operand = i + op.gives) : Balanced [.instr op operands n] i j := by
  intro pc
  have hpc : joint (pc + 1) (fun _ => i) (fun _ => j) pc = i := joint_of_lt (Nat.lt_succ_self _)
  have hend : joint (pc + 1) (fun _ => i) (fun _ => j) (pc + 1 + operands.length) = j :=
    joint_of_le (Nat.le_add_right ..)
  refine ⟨joint (pc + 1) (fun _ => i) (fun _ => j), hpc, ?_, ⟨operand, hencoded, ?_⟩, trivial⟩
  · rw [show pc + Item.size [Item.instr op operands n] = pc + 1 + operands.length by simp; omega]
    exact hend
  · refine ⟨hpc.symm ▸ htakes, hpc.symm ▸ hslot, fun d hd => absurd hd (hback d), fun t ht => ?_⟩
    rw [hnext] at ht
    obtain rfl := List.mem_singleton.mp ht
    rw [hpc, hend]
    exact ⟨Or.inr rfl, hheight⟩

/-! ### Jumps -/

/-- A conditional jump leaves the height as it is on both ways. -/
theorem flows_jumpIfFalse {next d : Nat} (hj : 1 < j) (hpc : H pc = j) (hnext : H next = j)
    (htarget : H (next + d) = j) (hT : T next) (hT' : T (next + d)) :
    Flows T H pc next .jumpIfFalse (.ahead d) where
  takes := hpc.symm ▸ hj
  slot := by simp
  inside := by simp
  edges t ht := by
    rcases List.mem_cons.mp ht with rfl | ht
    · exact ⟨hT, congrArg (· + 1) (hnext.trans hpc.symm)⟩
    · obtain rfl := List.mem_singleton.mp ht
      exact ⟨hT', congrArg (· + 1) (htarget.trans hpc.symm)⟩

/-- A jump ahead leaves the height as it is. -/
theorem flows_jump {next d : Nat} (hj : 0 < j) (hpc : H pc = j) (htarget : H (next + d) = j)
    (hT : T (next + d)) : Flows T H pc next .jump (.ahead d) where
  takes := hpc.symm ▸ hj
  slot := by simp
  inside := by simp
  edges t ht := by
    obtain rfl := List.mem_singleton.mp ht
    exact ⟨hT, htarget.trans hpc.symm⟩

/-- A jump back leaves the height as it is. -/
theorem flows_loop {next d target : Nat} (hj : 0 < j) (hpc : H pc = j) (hd : target + d = next)
    (htarget : H target = j) (hT : T target) : Flows T H pc next .loop (.back d) where
  takes := hpc.symm ▸ hj
  slot := by simp
  inside d' hd' := by
    cases hd'
    omega
  edges t ht := by
    obtain rfl := List.mem_singleton.mp ht
    rw [show next - d = target by omega]
    exact ⟨hT, htarget.trans hpc.symm⟩

/-- Heights suit a jump ahead if they agree at its target. -/
theorem stacked_jump {Γ : Scope} {op : Opcode} {body : List Item}
    (hformat : op.format = .jumpForward) (hfits : Item.Fits body)
    (hflows : Flows T H pc (pc + 3) op (.ahead (Item.size body)))
    (hrest : Stacked T H (pc + 3) is) : Stacked T H pc (Γ.jump op body :: is) :=
  ⟨⟨_, hformat ▸ (encoded_bytesOf16 hfits).1, hflows⟩, hrest⟩

/-- Heights suit a jump back if they agree at its target. -/
theorem stacked_back {Γ : Scope} {d : Nat} (hd : d ≤ Session.maxJump)
    (hflows : Flows T H pc (pc + 3) .loop (.back d)) (hrest : Stacked T H (pc + 3) is) :
    Stacked T H pc (Γ.back d :: is) :=
  ⟨⟨_, (encoded_bytesOf16 hd).2, hflows⟩, hrest⟩

/-- Code that is skipped when the value on top is false; the value stays. -/
theorem Balanced.skip {Γ : Scope} (ha : Balanced a i j) (hx : Balanced x j j) (hj : 1 < j)
    (hfits : Item.Fits x) : Balanced (a ++ Γ.jump .jumpIfFalse x :: x) i j := by
  intro pc
  obtain ⟨Ha, hHa⟩ := ha pc
  obtain ⟨Hx, hHx⟩ := hx (pc + Item.size a + 3)
  have hleft : Fills (joint (pc + Item.size a + 1) Ha Hx) pc a i j :=
    hHa.joint_left (Nat.le_succ _) fun h => by omega
  have hright : Fills (joint (pc + Item.size a + 1) Ha Hx) (pc + Item.size a + 3) x j j :=
    hHx.joint_right (by omega)
  have hbound : ∀ t, Bound (pc + Item.size a + 3) x t →
      Bound pc (a ++ Γ.jump .jumpIfFalse x :: x) t :=
    fun t ht => bound_append.mpr (Or.inr (Or.inr ht))
  refine ⟨_, hleft.start, ?_, stacked_append.mpr ⟨?_, stacked_jump rfl hfits ?_ ?_⟩⟩
  · rw [Item.size_append, Scope.size_jump_cons, ← Nat.add_assoc, ← Nat.add_assoc]
    exact hright.stop
  · exact hleft.within fun t ht => bound_append.mpr (Or.inl ht)
  · exact flows_jumpIfFalse hj hleft.stop hright.start hright.stop
      (hbound _ (bound_start ..)) (hbound _ (bound_end ..))
  · exact hright.within hbound

/-- Two pieces of code are balanced when the value on top selects one of them and both lead to the
same height. -/
theorem Balanced.select {Γ Δ : Scope} (ha : Balanced a i j) (hx : Balanced x j k)
    (hy : Balanced y j k) (hj : 1 < j) (hk : 0 < k)
    (hfitsX : Item.Fits (x ++ [Δ.jump .jump y])) (hfitsY : Item.Fits y) :
    Balanced (a ++ Γ.jump .jumpIfFalse (x ++ [Δ.jump .jump y]) :: x ++ Δ.jump .jump y :: y)
      i k := by
  intro pc
  obtain ⟨Ha, hHa⟩ := ha pc
  obtain ⟨Hx, hHx⟩ := hx (pc + Item.size a + 3)
  obtain ⟨Hy, hHy⟩ := hy (pc + Item.size a + 3 + Item.size x + 3)
  have hend : Fills (joint (pc + Item.size a + 3 + Item.size x + 1) Hx Hy)
      (pc + Item.size a + 3 + Item.size x + 3) y j k := hHy.joint_right (by omega)
  have hmid : Fills (joint (pc + Item.size a + 3 + Item.size x + 1) Hx Hy)
      (pc + Item.size a + 3) x j k := hHx.joint_left (by omega) fun h => by omega
  generalize joint (pc + Item.size a + 3 + Item.size x + 1) Hx Hy = Hxy at hmid hend
  have hleft : Fills (joint (pc + Item.size a + 1) Ha Hxy) pc a i j :=
    hHa.joint_left (Nat.le_succ _) fun h => by omega
  replace hmid := hmid.joint_right (m := pc + Item.size a + 1) (H := Ha) (by omega)
  replace hend := hend.joint_right (m := pc + Item.size a + 1) (H := Ha) (by omega)
  generalize joint (pc + Item.size a + 1) Ha Hxy = H at hleft hmid hend
  have hjump : pc + Item.size (a ++ Γ.jump .jumpIfFalse (x ++ [Δ.jump .jump y]) :: x) =
      pc + Item.size a + 3 + Item.size x := by
    rw [Item.size_append, Scope.size_jump_cons]
    omega
  have hskip : pc + Item.size a + 3 + Item.size (x ++ [Δ.jump .jump y]) =
      pc + Item.size a + 3 + Item.size x + 3 := by
    rw [Item.size_append, Scope.size_jump_cons, Item.size_nil]
    omega
  have hboundX : ∀ t, Bound (pc + Item.size a + 3) x t → Bound pc (a ++
      Γ.jump .jumpIfFalse (x ++ [Δ.jump .jump y]) :: x ++ Δ.jump .jump y :: y) t :=
    fun t ht => bound_append.mpr (Or.inl (bound_append.mpr (Or.inr (Or.inr ht))))
  have hboundY : ∀ t, Bound (pc + Item.size a + 3 + Item.size x + 3) y t → Bound pc (a ++
      Γ.jump .jumpIfFalse (x ++ [Δ.jump .jump y]) :: x ++ Δ.jump .jump y :: y) t :=
    fun t ht => bound_append.mpr (Or.inr (hjump ▸ Or.inr ht))
  refine ⟨H, hleft.start, ?_, stacked_append.mpr ⟨stacked_append.mpr ⟨?_, ?_⟩, hjump ▸ ?_⟩⟩
  · rw [Item.size_append, ← Nat.add_assoc, hjump, Scope.size_jump_cons, ← Nat.add_assoc]
    exact hend.stop
  · exact hleft.within fun t ht =>
      bound_append.mpr (Or.inl (bound_append.mpr (Or.inl ht)))
  · refine stacked_jump rfl hfitsX (flows_jumpIfFalse hj hleft.stop hmid.start ?_
      (hboundX _ (bound_start ..)) ?_) (hmid.within hboundX)
    · rw [hskip]
      exact hend.start
    · rw [hskip]
      exact hboundY _ (bound_start ..)
  · exact stacked_jump rfl hfitsY (flows_jump hk hmid.stop hend.stop
      (hboundY _ (bound_end ..))) (hend.within hboundY)

/-- A pop takes one value. -/
theorem Balanced.pop {Γ : Scope} (hi : 0 < i) : Balanced [Γ.op .pop []] (i + 1) i :=
  .instr (.none []) (fun _ => rfl) (by rintro d ⟨⟩) (Nat.succ_lt_succ hi) (by simp) rfl

/-! ### Loops -/

/-- A piece from `q` on and the jump behind it, back to an offset `again` at or before `q`. The
heights before `q` are given, and control never reaches what is behind the jump. -/
theorem Balanced.exists_back {Γ : Scope} {H₀ : Nat → Nat} {q again d : Nat}
    (h : Balanced is i i) (e : Nat) (hi : 0 < i) (hagain : again ≤ q) (hheight : H₀ again = i)
    (hd : again + d = q + Item.size is + 3) (hfits : d ≤ Session.maxJump) :
    ∃ H, (∀ x, x < q → H x = H₀ x) ∧ H q = i ∧ H (q + Item.size is + 3) = e ∧
      Stacked (fun x => x = again ∨ Bound q (is ++ [Γ.back d]) x) H q (is ++ [Γ.back d]) := by
  obtain ⟨Hi, hHi⟩ := h q
  have hfills : Fills (joint q H₀ (joint (q + Item.size is + 1) Hi fun _ => e)) q is i i :=
    (hHi.joint_left (Nat.le_succ _) fun h => by omega).joint_right (Nat.le_refl q)
  have hend : joint q H₀ (joint (q + Item.size is + 1) Hi fun _ => e)
      (q + Item.size is + 3) = e := by
    rw [joint_of_le (by omega), joint_of_le (by omega)]
  have hbefore : ∀ x, x < q →
      joint q H₀ (joint (q + Item.size is + 1) Hi fun _ => e) x = H₀ x := fun x => joint_of_lt
  generalize joint q H₀ (joint (q + Item.size is + 1) Hi fun _ => e) = H at hfills hend hbefore
  have htarget : H again = i := by
    rcases Nat.lt_or_eq_of_le hagain with hlt | rfl
    · rw [hbefore again hlt, hheight]
    · exact hfills.start
  refine ⟨H, hbefore, hfills.start, hend, stacked_append.mpr ⟨?_, ?_⟩⟩
  · exact hfills.within fun x hx => Or.inr (bound_append.mpr (Or.inl hx))
  · exact stacked_back hfits (flows_loop hi hfills.stop hd htarget (Or.inl rfl)) trivial

/-- Two such pieces, of which the first goes back to an offset before them and the second to the
first, and a jump to the second. -/
theorem Balanced.exists_back_twice {Γ Δ : Scope} {H₀ : Nat → Nat} {q start d r : Nat}
    (ha : Balanced a i i) (hx : Balanced x i i) (e : Nat) (hi : 0 < i) (hstart : start ≤ q)
    (hheight : H₀ start = i) (hd : start + d = q + 3 + Item.size a + 3)
    (hd' : r = Item.size a + 3 + Item.size x + 3) (hfits : Item.Fits (a ++ [Γ.back d]))
    (hback : d ≤ Session.maxJump) (hback' : r ≤ Session.maxJump) :
    ∃ H, (∀ t, t < q → H t = H₀ t) ∧ H q = i ∧
      H (q + 3 + Item.size a + 3 + Item.size x + 3) = e ∧
      Stacked (fun t => t = start ∨
          Bound q (Γ.jump .jump (a ++ [Γ.back d]) :: (a ++ [Γ.back d]) ++ (x ++ [Δ.back r])) t) H q
        (Γ.jump .jump (a ++ [Γ.back d]) :: (a ++ [Γ.back d]) ++ (x ++ [Δ.back r])) := by
  have hfirst : joint q H₀ (fun _ => i) start = i := by
    rcases Nat.lt_or_ge start q with hlt | hge
    · rw [joint_of_lt hlt, hheight]
    · exact joint_of_le hge
  obtain ⟨H₁, hbefore₁, hheight₁, hend₁, hstacked₁⟩ :=
    ha.exists_back (Γ := Γ) (q := q + 3) i hi (by omega) hfirst hd hback
  obtain ⟨H, hbefore, hheight₂, hend, hstacked⟩ :=
    hx.exists_back (Γ := Δ) (q := q + 3 + Item.size a + 3) e hi (by omega) hheight₁
      (by omega) hback'
  have hq : H q = i := by
    rw [hbefore q (by omega), hbefore₁ q (by omega), joint_of_le (Nat.le_refl q)]
  have hsize : Item.size (a ++ [Γ.back d]) = Item.size a + 3 := by simp
  have hagree : ∀ t, t = start ∨ Bound (q + 3) (a ++ [Γ.back d]) t → H t = H₁ t := by
    rintro t (rfl | ht)
    · exact hbefore t (by omega)
    · have hle := ht.le.2
      rcases Nat.lt_or_eq_of_le hle with hlt | rfl
      · exact hbefore t (by omega)
      · rw [hsize, ← Nat.add_assoc, hheight₂, hend₁]
  refine ⟨H, fun t ht => ?_, hq, hend, stacked_append.mpr
    ⟨stacked_jump rfl hfits (flows_jump hi hq ?_ (Or.inr ?_)) ?_, ?_⟩⟩
  · rw [hbefore t (by omega), hbefore₁ t (by omega), joint_of_lt ht]
  · rw [hsize, ← Nat.add_assoc]
    exact hheight₂
  · exact bound_append.mpr (Or.inl (Or.inr (bound_end ..)))
  · refine hstacked₁.congr (fun t ht => ht.imp_right fun h => ?_) hagree fun t ht => Or.inr ht
    exact bound_append.mpr (Or.inl (Or.inr h))
  · have hposition : q + Item.size (Γ.jump .jump (a ++ [Γ.back d]) :: (a ++ [Γ.back d])) =
        q + 3 + Item.size a + 3 := by
      rw [Scope.size_jump_cons, hsize]
      omega
    rw [hposition]
    refine hstacked.congr ?_ (fun _ _ => rfl) fun t ht => Or.inr ht
    rintro t (rfl | ht)
    · exact Or.inr (bound_append.mpr (Or.inl (Or.inr (bound_start ..))))
    · exact Or.inr (bound_append.mpr (Or.inr (hposition ▸ ht)))

/-- What stands between the head of a loop that begins at `start` and its exit. -/
theorem LoopParts.exists_stacked {p : LoopParts} {K : Nat → Nat} {start q : Nat} (e : Nat)
    (hstep : ∀ a, p.step = some a → Balanced a i (i + 1)) (hbody : Balanced p.body i i)
    (hi : 0 < i) (hfits : p.Fits) (hq : q = start + p.headSize) (hstart : K start = i) :
    ∃ H, (∀ x, x < q → H x = K x) ∧ H q = i ∧ H (q + Item.size p.inner) = e ∧
      Stacked (fun x => x = start ∨ Bound q p.inner x) H q p.inner := by
  obtain ⟨before, after, condition, step, body⟩ := p
  cases step with
  | none =>
      have hdistance : start + (LoopParts.mk before after condition none body).backDistance =
          q + Item.size body + 3 := by
        show start + (LoopParts.headSize _ + Item.size body + 3) = _
        omega
      obtain ⟨H, hbefore, hheight, hend, hstacked⟩ :=
        hbody.exists_back (Γ := after) e hi (by omega) hstart hdistance hfits.back
      refine ⟨H, hbefore, hheight, ?_, hstacked⟩
      rw [← hend]
      exact congrArg H (congrArg (q + ·) Item.size_append)
  | some a =>
      have hpopped := (hstep a rfl).append (Balanced.pop (Γ := before) hi)
      have hsize : Item.size (a ++ [before.op .pop []]) = Item.size a + 1 := by simp
      have hcode : (LoopParts.mk before after condition (some a) body).stepCode a =
          a ++ [before.op .pop []] ++ [before.back
            ((LoopParts.mk before after condition (some a) body).headSize + 3 + Item.size a + 4)] :=
        (List.append_assoc a [before.op .pop []] [_]).symm
      have hinner : (LoopParts.mk before after condition (some a) body).inner =
          before.jump .jump ((LoopParts.mk before after condition (some a) body).stepCode a) ::
            (LoopParts.mk before after condition (some a) body).stepCode a ++ (body ++
              [after.back (Item.size a + 4 + Item.size body + 3)]) := List.append_assoc ..
      have hskip := hfits.skip a rfl
      rw [hcode] at hinner hskip
      obtain ⟨H, hbefore, hheight, hend, hstacked⟩ :=
        hpopped.exists_back_twice (Γ := before) (Δ := after) (x := body)
          (r := Item.size a + 4 + Item.size body + 3) hbody e hi (by omega : start ≤ q) hstart
          (by omega) (by omega) hskip (hfits.head a rfl) hfits.back
      rw [← hinner] at hstacked
      refine ⟨H, hbefore, hheight, ?_, hstacked⟩
      rw [← hend, hinner]
      congr 1
      simp
      omega

/-- The height behind it is lower by one. -/
theorem flows_pop (hi : 0 < i) (hpc : H pc = i + 1) (hnext : H (pc + 1) = i) (hT : T (pc + 1)) :
    Flows T H pc (pc + 1) .pop .none where
  takes := hpc.symm ▸ Nat.succ_lt_succ hi
  slot := by simp
  inside := by simp
  edges t ht := by
    obtain rfl := List.mem_singleton.mp ht
    rw [hpc, hnext]
    exact ⟨hT, rfl⟩

/-- A loop leaves the stack as it was, and its exit removes the value of the condition. -/
theorem LoopParts.balanced {p : LoopParts}
    (hcondition : ∀ a, p.condition = some a → Balanced a i (i + 1))
    (hstep : ∀ a, p.step = some a → Balanced a i (i + 1)) (hbody : Balanced p.body i i)
    (hi : 0 < i) (hfits : p.Fits) : Balanced p.items i i := by
  intro pc
  cases hsome : p.condition with
  | none =>
      have hitems : p.items = p.inner := by rw [LoopParts.items, hsome]
      have hhead : pc = pc + p.headSize := by rw [LoopParts.headSize, hsome]; rfl
      obtain ⟨H, -, hstart, hend, hstacked⟩ :=
        exists_stacked (K := fun _ => i) i hstep hbody hi hfits hhead rfl
      rw [hitems]
      refine ⟨H, hstart, hend, hstacked.congr ?_ (fun _ _ => rfl) fun _ => Or.inr⟩
      rintro t (rfl | ht)
      · exact bound_start ..
      · exact ht
  | some a =>
      have hitems : p.items = a ++ p.before.jump .jumpIfFalse (p.before.op .pop [] :: p.inner) ::
          p.before.op .pop [] :: p.inner ++ [p.after.op .pop []] := by
        rw [LoopParts.items, hsome]
      obtain ⟨Ha, hHa⟩ := hcondition a hsome pc
      have hfills : Fills (joint (pc + Item.size a + 1) Ha fun _ => i + 1) pc a i (i + 1) :=
        hHa.joint_left (Nat.le_succ _) fun h => by omega
      obtain ⟨H₁, hbefore, hheight, hend, hstacked⟩ :=
        exists_stacked (q := pc + Item.size a + 4) (i + 1) hstep hbody hi hfits
          (by rw [LoopParts.headSize, hsome]; exact Nat.add_assoc ..) hfills.start
      generalize hE : pc + Item.size a + 4 + Item.size p.inner = E at hend
      have hjoint : ∀ x, x ≤ E → joint (E + 1) H₁ (fun _ => i) x = H₁ x :=
        fun x hx => joint_of_lt (Nat.lt_succ_of_le hx)
      have hafter : joint (E + 1) H₁ (fun _ => i) (E + 1) = i := joint_of_le (Nat.le_refl _)
      generalize joint (E + 1) H₁ (fun _ => i) = H at hjoint hafter
      have hhead : ∀ x, x ≤ pc + Item.size a + 3 →
          H x = joint (pc + Item.size a + 1) Ha (fun _ => i + 1) x :=
        fun x hx => (hjoint x (by omega)).trans (hbefore x (by omega))
      have hfills' : Fills H pc a i (i + 1) := hfills.congr fun x _ hx => hhead x (by omega)
      have hpop : H (pc + Item.size a + 3) = i + 1 :=
        (hhead _ (Nat.le_refl _)).trans (joint_of_le (by omega))
      have hinner : H (pc + Item.size a + 3 + 1) = i := (hjoint _ (by omega)).trans hheight
      have hexit : H E = i + 1 := (hjoint _ (Nat.le_refl _)).trans hend
      have hskip : pc + Item.size a + 3 + Item.size (p.before.op .pop [] :: p.inner) = E := by
        rw [Scope.size_op_cons, List.length_nil]
        omega
      have hlast : pc + Item.size (a ++ p.before.jump .jumpIfFalse (p.before.op .pop [] ::
          p.inner) :: p.before.op .pop [] :: p.inner) = E := by
        rw [Item.size_append, Scope.size_jump_cons]
        omega
      have hbound : ∀ t, Bound (pc + Item.size a + 3) (p.before.op .pop [] :: p.inner) t →
          Bound pc p.items t := fun t ht => hitems ▸ bound_append.mpr
        (Or.inl (bound_append.mpr (Or.inr (Or.inr ht))))
      have hboundE : Bound pc p.items E :=
        hskip ▸ hbound _ (bound_end ..)
      have hboundEnd : Bound pc p.items (E + 1) := by
        rw [hitems]
        exact bound_append.mpr (Or.inr (hlast ▸ bound_end ..))
      refine ⟨H, hfills'.start, ?_, ?_⟩
      · rw [hitems, Item.size_append, ← Nat.add_assoc, hlast]
        exact hafter
      · rw [hitems] at hbound hboundE hboundEnd ⊢
        refine stacked_append.mpr ⟨stacked_append.mpr ⟨?_, stacked_jump rfl (hfits.exit a hsome)
          ?_ ⟨⟨.none, .none [], ?_⟩, ?_⟩⟩, ⟨.none, .none [], ?_⟩, trivial⟩
        · exact hfills'.within fun t ht =>
            bound_append.mpr (Or.inl (bound_append.mpr (Or.inl ht)))
        · exact flows_jumpIfFalse (Nat.succ_lt_succ hi) hfills'.stop hpop (hskip ▸ hexit)
            (hbound _ (bound_start ..)) (hskip ▸ hboundE)
        · exact flows_pop hi hpop hinner (hbound _ (Or.inr (bound_start ..)))
        · refine hstacked.congr ?_ ?_ fun t => Or.inr
          · rintro t (rfl | ht)
            · exact bound_start ..
            · exact hbound t (Or.inr ht)
          · rintro t (rfl | ht)
            · exact hjoint t (by omega)
            · exact hjoint t (hE ▸ ht.le.2)
        · rw [hlast]
          exact flows_pop hi hexit hafter hboundEnd

end

/-! ### Expressions -/

/-- The locals that can be used in a scope are slots below a height. -/
def Scope.Below (Γ : Scope) (i : Nat) : Prop :=
  ∀ name slot l, FunctionState.findLocal? name Γ.locals = some (slot, l) → l.depth ≠ none →
    slot < i

section

variable {w : World} {Γ Γ' : Scope} {i j : Nat}

/-- Slots that are below a height are below a greater one. -/
theorem Scope.Below.mono (h : Γ.Below i) (hij : i ≤ j) : Γ.Below j :=
  fun name slot l hfind hdepth => Nat.lt_of_lt_of_le (h name slot l hfind hdepth) hij

/-- All slots are below the number of locals. -/
theorem Scope.below_length (Γ : Scope) : Γ.Below Γ.locals.length :=
  fun _ _ _ hfind _ => FunctionState.lt_of_findLocal? hfind

/-- A local that is not initialized yet cannot be used. -/
theorem Scope.below_declare (Γ : Scope) (name : String) :
    (Γ.declare name).Below Γ.locals.length := by
  intro name' slot l hfind hdepth
  rw [Scope.declare, FunctionState.findLocal?] at hfind
  split at hfind
  · cases hfind
    exact absurd rfl hdepth
  · exact FunctionState.lt_of_findLocal? hfind

/-- An instruction without an operand is balanced by what it takes and gives. -/
theorem Balanced.plain {op : Opcode} (hformat : op.format = .none)
    (htakes : op.takes .none < i) (hheight : j + op.takes .none = i + op.gives) :
    Balanced [Γ.op op []] i j :=
  .instr (hformat ▸ .none []) (fun _ => rfl) (by rintro d ⟨⟩) htakes (by rintro slot - ⟨⟩) hheight

/-- An instruction with a constant is balanced by what it takes and gives. -/
theorem Balanced.constant {op : Opcode} {operands : List UInt8} {index : Nat}
    (hencoded : Operand.Encoded op.format operands (.constant index))
    (htakes : op.takes (.constant index) < i)
    (hheight : j + op.takes (.constant index) = i + op.gives) : Balanced [Γ.op op operands] i j :=
  .instr hencoded (fun _ => rfl) (by rintro d ⟨⟩) htakes (by rintro slot - ⟨⟩) hheight

/-- A read adds one value, and a write leaves the height as it is. -/
theorem World.Resolves.balanced {name : String} {access : Access} (h : w.Resolves Γ name access)
    (hi : 0 < i) (hbelow : Γ.Below i) :
    Balanced [Γ'.op access.read [access.operand]] i (i + 1) ∧
      Balanced [Γ'.op access.write [access.operand]] (i + 1) (i + 1) := by
  cases h with
  | @«local» slot l hfind hdepth =>
      have hslot := hbelow _ _ _ hfind hdepth
      constructor
      · refine .instr (.byte slot []) (fun _ => rfl) (by rintro d ⟨⟩) hi ?_ rfl
        rintro slot' - ⟨⟩
        exact hslot
      · refine .instr (.byte slot []) (fun _ => rfl) (by rintro d ⟨⟩) (Nat.succ_lt_succ hi) ?_ rfl
        rintro slot' - ⟨⟩
        exact Nat.lt_succ_of_lt hslot
  | @upvalue index =>
      exact ⟨.instr (.byte index []) (fun _ => rfl) (by rintro d ⟨⟩) hi
          (by rintro slot (h | h) <;> cases h) rfl,
        .instr (.byte index []) (fun _ => rfl) (by rintro d ⟨⟩) (Nat.succ_lt_succ hi)
          (by rintro slot (h | h) <;> cases h) rfl⟩
  | global =>
      exact ⟨.constant (.constant _ []) hi rfl, .constant (.constant _ []) (Nat.succ_lt_succ hi) rfl⟩

/-- The instructions of a binary operator replace two values by one. -/
theorem BinaryOp.balanced (o : BinaryOp) (hi : 0 < i) :
    Balanced (o.code.map (Γ.op · [])) (i + 1 + 1) (i + 1) := by
  have htwo : 2 < i + 1 + 1 := Nat.succ_lt_succ (Nat.succ_lt_succ hi)
  have hnot : Balanced [Γ.op .not []] (i + 1) (i + 1) := .plain rfl (Nat.succ_lt_succ hi) rfl
  cases o with
  | notEqual => exact Balanced.cons (.plain rfl htwo rfl) hnot
  | greaterEqual => exact Balanced.cons (.plain rfl htwo rfl) hnot
  | lessEqual => exact Balanced.cons (.plain rfl htwo rfl) hnot
  | equal | greater | less | add | subtract | multiply | divide => exact .plain rfl htwo rfl

/-- The code of some expressions pushes their values. -/
theorem ExprCode.balanced {es : List Expr} {is : List Item} (h : ExprCode w Γ es is)
    (hi : 0 < i) (hbelow : Γ.Below i) : Balanced is i (i + es.length) := by
  induction h generalizing i with
  | nil => exact .nil
  | cons _ _ ihHead ihTail =>
      have htail := ihTail (Nat.succ_pos i) (hbelow.mono (Nat.le_succ i))
      rw [List.length_cons, Nat.add_comm _ 1, ← Nat.add_assoc]
      exact (ihHead hi hbelow).append htail
  | literal l => cases l <;> exact .plain rfl hi rfl
  | number hload hlt _ | string hload hlt _ =>
      obtain ⟨hop, -, hencoded⟩ := encoded_loadOf hload hlt
      rcases hop with rfl | rfl <;> exact .constant hencoded hi rfl
  | «variable» hr => exact (hr.balanced hi hbelow).1
  | assign hr _ ih => exact (ih hi hbelow).append (hr.balanced hi hbelow).2
  | @unary o _ _ _ ih =>
      refine (ih hi hbelow).append ?_
      cases o <;> exact .plain rfl (Nat.succ_lt_succ hi) rfl
  | @binary o _ _ _ _ _ _ ihLeft ihRight =>
      have hright := ihRight (Nat.succ_pos i) (hbelow.mono (Nat.le_succ i))
      exact ((ihLeft hi hbelow).append hright).append (o.balanced hi)
  | and _ _ hfits ihLeft ihRight =>
      exact (ihLeft hi hbelow).skip ((Balanced.pop hi).append (ihRight hi hbelow))
        (Nat.succ_lt_succ hi) hfits
  | or _ _ hfits ihLeft ihRight =>
      have hselect := (ihLeft hi hbelow).select (Γ := Γ) (Δ := Γ) .nil
        ((Balanced.pop (Γ := Γ) hi).append (ihRight hi hbelow)) (Nat.succ_lt_succ hi)
        (Nat.succ_pos i) (by simp [Item.Fits, Session.maxJump]) hfits
      rw [List.append_assoc] at hselect
      exact hselect
  | @call _ _ _ _ count _ _ hcount ihCallee ihArguments =>
      have harguments := ihArguments (Nat.succ_pos i) (hbelow.mono (Nat.le_succ i))
      refine ((ihCallee hi hbelow).append harguments).append ?_
      refine .instr (.byte count []) (fun _ => rfl) (by rintro d ⟨⟩) ?_
        (by rintro slot (h | h) <;> cases h) ?_
      · simp only [Opcode.takes]
        omega
      · simp only [Opcode.takes, Opcode.gives, List.length_singleton]
        omega
  | get _ htext ih =>
      exact (ih hi hbelow).append (.constant (.constant _ []) (Nat.succ_lt_succ hi) rfl)
  | set _ _ htext ihObject ihValue =>
      have hvalue := ihValue (Nat.succ_pos i) (hbelow.mono (Nat.le_succ i))
      exact ((ihObject hi hbelow).append hvalue).append
        (.constant (.constant _ []) (Nat.succ_lt_succ (Nat.succ_lt_succ hi)) rfl)

/-- A value adds one, whether it is there or not. -/
theorem ValueCode.balanced {value : Option Expr} {is : List Item} (h : ValueCode w Γ value is)
    (hi : 0 < i) (hbelow : Γ.Below i) : Balanced is i (i + 1) := by
  cases h with
  | none => exact .plain rfl hi rfl
  | some h => exact h.balanced hi hbelow

/-- A clause that is there adds one. -/
theorem OptionCode.balanced {e : Option Expr} {is : Option (List Item)}
    (h : OptionCode w Γ e is) (hi : 0 < i) (hbelow : Γ.Below i) :
    ∀ a, is = some a → Balanced a i (i + 1) := by
  cases h with
  | none => rintro a ⟨⟩
  | some h =>
      rintro a ⟨⟩
      exact h.balanced hi hbelow

/-! ### Statements -/

/-- The pops at the end of a scope take its locals. -/
theorem Scope.balanced_pops (Γ : Scope) (hi : 0 < i) :
    Balanced Γ.pops (Γ.owned.length + i) i := by
  rw [pops]
  induction Γ.owned with
  | nil => exact (Nat.zero_add i).symm ▸ .nil
  | cons l ls ih =>
      rw [List.length_cons, Nat.succ_add]
      refine Balanced.cons (j := ls.length + i) ?_ ih
      have htakes : 1 < ls.length + i + 1 := by omega
      show Balanced [Γ.leave.op (if l.captured then .closeUpvalue else .pop) []] _ _
      split <;> exact .plain rfl htakes rfl

/-- Leaving a scope removes its locals from the stack. -/
theorem Scope.Extends.balanced_pops (h : Γ.enter.Extends Γ') (hs : Γ.Settled)
    (hi : 0 < Γ.locals.length) : Balanced Γ'.pops Γ'.locals.length Γ'.leave.locals.length := by
  obtain ⟨hsame, hlength⟩ := h.leave hs
  rw [hsame.length, ← hlength]
  exact Γ'.balanced_pops hi

/-- The code of a statement pushes the locals that it declares. -/
theorem StmtCode.balanced {st : Stmt} {is : List Item} (h : StmtCode w Γ st is Γ')
    (hs : Γ.Settled) (hi : 0 < Γ.locals.length) :
    Balanced is Γ.locals.length Γ'.locals.length := by
  induction h with
  | skip => exact .nil
  | seq hfirst _ ihFirst ihSecond =>
      have hextends := hfirst.extends hs
      exact (ihFirst hs hi).append
        (ihSecond (hextends.settled hs) (Nat.lt_of_lt_of_le hi hextends.length_le))
  | marked phrase _ ih =>
      exact (Balanced.cons (.mark _ (by rintro ⟨⟩)) (ih hs hi)).append
        (.mark _ (by rintro ⟨⟩))
  | expression he => exact (he.balanced hi (Scope.below_length _)).append (.pop hi)
  | print he =>
      exact (he.balanced hi (Scope.below_length _)).append (.plain rfl (Nat.succ_lt_succ hi) rfl)
  | del hr _ =>
      exact Balanced.cons (hr.balanced hi (Scope.below_length _)).1
        (.constant (.constant _ []) (Nat.succ_lt_succ hi) rfl)
  | ret hv =>
      exact (hv.balanced hi (Scope.below_length _)).append (.plain rfl (Nat.succ_lt_succ hi) rfl)
  | branch hc _ _ hyes hno hfitsYes hfitsNo ihYes ihNo =>
      have hcondition := hc.balanced hi (Scope.below_length _)
      have hbranch := ihYes hs hi
      have hother := ihNo (hs.of_same hyes) (hyes.length.symm ▸ hi)
      rw [hyes.length] at hbranch hother
      rw [hno.length, hyes.length] at hother ⊢
      exact hcondition.select ((Balanced.pop hi).append hbranch) ((Balanced.pop hi).append hother)
        (Nat.succ_lt_succ hi) hi hfitsYes hfitsNo
  | whileLoop hc _ hsame hfits ih =>
      have hbody := ih hs hi
      rw [hsame.length] at hbody ⊢
      refine LoopParts.balanced ?_ (by rintro a ⟨⟩) hbody hi hfits
      rintro a ⟨⟩
      exact hc.balanced hi (Scope.below_length _)
  | forLoop hfirst hc hstep _ hsame hfits ihFirst ihBody =>
      have hextends := hfirst.extends hs.enter
      have hi' := Nat.lt_of_lt_of_le hi hextends.length_le
      have hbody := ihBody (hextends.settled hs.enter) hi'
      rw [hsame.length] at hbody
      have hloop := LoopParts.balanced (hc.balanced hi' (Scope.below_length _))
        (hstep.balanced hi' (Scope.below_length _)) hbody hi' hfits
      have hpops := (hextends.trans hsame.extends).balanced_pops hs hi
      rw [hsame.length] at hpops
      exact ((ihFirst hs.enter hi).append hloop).append hpops
  | block hbody ih =>
      exact (ih hs.enter hi).append ((hbody.extends hs.enter).balanced_pops hs hi)
  | varGlobal _ _ hv =>
      exact (hv.balanced hi (Scope.below_length _)).append
        (.constant (.constant _ []) (Nat.succ_lt_succ hi) rfl)
  | varLocal _ _ hv =>
      rw [Scope.length_define_declare]
      exact hv.balanced hi (Scope.below_declare _ _)
  | classGlobal _ _ =>
      exact Balanced.cons (.constant (.constant _ []) hi rfl)
        (.constant (.constant _ []) (Nat.succ_lt_succ hi) rfl)
  | classLocal _ _ _ =>
      rw [Scope.length_define_declare]
      exact .constant (.constant _ []) hi rfl
  | funGlobal _ _ hsame _ =>
      rw [hsame.length]
      refine Balanced.cons (.instr (.captures _ _) (fun _ => rfl) (by rintro d ⟨⟩) hi
        (by rintro slot - ⟨⟩) rfl) (.constant (.constant _ []) (Nat.succ_lt_succ hi) rfl)
  | funLocal _ _ hsame _ =>
      rw [hsame.length, Scope.length_define_declare]
      exact .instr (.captures _ _) (fun _ => rfl) (by rintro d ⟨⟩) hi (by rintro slot - ⟨⟩) rfl

end

end LoxBytecode
