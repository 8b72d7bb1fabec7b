import LoxBytecode.Proofs.Code.Variables

/-!
# Leaving Scopes

The compiler does not look back at the code when a scope ends. It goes by the marks of the locals,
which are set while the function inside is compiled. `Scope.Marks` says that both come to the
same: marks are what closures have left behind. So the instructions at the end of a scope are those
that the code asks for (`Scope.Leaves.pops_eq`), and code whose marks are known closes its scopes
(`Closes`).
-/

namespace LoxBytecode

/-! ### Marks in scopes -/

/-- The local in a slot is marked. -/
def isMarked : List Local → Nat → Bool
  | [], _ => false
  | l :: ls, slot => if slot = ls.length then l.captured else isMarked ls slot

variable {ls : List Local} {slot : Nat}

/-- A slot without a local is not marked. -/
theorem isMarked_of_length_le (h : ls.length ≤ slot) : isMarked ls slot = false := by
  induction ls with
  | nil => rfl
  | cons l ls ih =>
      have hlt : ls.length < slot := h
      rw [isMarked, if_neg (Nat.ne_of_gt hlt), ih (Nat.le_of_lt hlt)]

/-- A local is marked after some captures if it was before or is one of them. -/
theorem isMarked_markAll (cs : List Capture) (ls : List Local) (slot : Nat) :
    isMarked (markAll cs ls) slot =
      (isMarked ls slot || (decide (slot < ls.length) && cs.contains ⟨true, slot⟩)) := by
  induction ls with
  | nil => rfl
  | cons l ls ih =>
      rw [markAll, isMarked, isMarked, length_markAll]
      split
      next heq => simp [heq]
      next hne =>
        have hiff : slot < ls.length ↔ slot < (l :: ls).length := by
          rw [List.length_cons]
          omega
        rw [ih, decide_eq_decide.mpr hiff]

/-- Of the locals from some place on the marks are those of the others. -/
theorem isMarked_of_suffix {ls' : List Local} (h : ls' <:+ ls) (hslot : slot < ls'.length) :
    isMarked ls' slot = isMarked ls slot := by
  obtain ⟨before, rfl⟩ := h
  induction before with
  | nil => rfl
  | cons l before ih =>
      have hne : slot ≠ (before ++ ls').length := by
        rw [List.length_append]
        omega
      rw [List.cons_append, isMarked, if_neg hne, ih]

/-- The marks of the innermost locals, by their slots. -/
theorem map_captured_take {n : Nat} (hn : n ≤ ls.length) :
    (ls.take n).map Local.captured =
      (List.range n).reverse.map fun j => isMarked ls (ls.length - n + j) := by
  induction n generalizing ls with
  | zero => rfl
  | succ n ih =>
      cases ls with
      | nil => cases hn
      | cons l ls =>
          have hle : n ≤ ls.length := Nat.le_of_succ_le_succ hn
          rw [List.take_succ_cons, List.map_cons, ih hle, List.range_succ, List.reverse_append,
            List.reverse_singleton, List.singleton_append, List.map_cons, List.length_cons,
            Nat.add_sub_add_right, Nat.sub_add_cancel hle, isMarked, if_pos rfl]
          refine congrArg _ (List.map_congr_left fun j hj => ?_)
          have hj : j < n := by simpa using hj
          rw [isMarked, if_neg (by omega)]

namespace Scope

/-- The marks at the end are those at the beginning and those that closures in between have left
behind, and all of it was written with the locals of the beginning in scope. -/
structure Marks (Γ : Scope) (is : List Item) (Γ' : Scope) : Prop where
  floor : ∀ i ∈ is, Γ.locals.length ≤ i.locals
  le : Γ.locals.length ≤ Γ'.locals.length
  marks : ∀ slot, isMarked Γ'.locals slot = (isMarked Γ.locals slot || Item.captures slot is)

variable {Γ Γ₁ Γ₂ : Scope} {is js : List Item}

/-- No code marks nothing. -/
theorem Marks.nil (Γ : Scope) : Γ.Marks [] Γ :=
  ⟨List.forall_mem_nil _, Nat.le_refl _, fun _ => (Bool.or_false _).symm⟩

/-- What a closure carries at the end of the first part is in scope there, and so in all of the
second part. -/
theorem Marks.append (h₁ : Γ.Marks is Γ₁) (h₂ : Γ₁.Marks js Γ₂) : Γ.Marks (is ++ js) Γ₂ where
  floor := List.forall_mem_append.mpr
    ⟨h₁.floor, fun i hi => Nat.le_trans h₁.le (h₂.floor i hi)⟩
  le := Nat.le_trans h₁.le h₂.le
  marks slot := by
    rw [h₂.marks slot, h₁.marks slot, Bool.or_assoc]
    refine congrArg _ ?_
    by_cases hslot : slot < Γ₁.locals.length
    · have hjs : ∀ i ∈ js, slot < i.locals := fun i hi => Nat.lt_of_lt_of_le hslot (h₂.floor i hi)
      rw [Item.captures_append hjs, Item.captures_eq_any hjs]
    · have hle := Nat.le_of_not_lt hslot
      have hnone : Item.captures slot is = false := by
        have hmarks := h₁.marks slot
        rw [isMarked_of_length_le hle] at hmarks
        exact (Bool.or_eq_false_iff.mp hmarks.symm).2
      rw [hnone, Bool.false_or, Item.captures_append_of_false hnone]

/-- Instructions that are no closures mark nothing. -/
theorem Marks.plain (h : ∀ i ∈ is, Γ.locals.length ≤ i.locals ∧ ∀ slot, i.carries slot = false) :
    Γ.Marks is Γ where
  floor i hi := (h i hi).1
  le := Nat.le_refl _
  marks slot := by
    rw [Item.captures_eq_false fun i hi => (h i hi).2 slot, Bool.or_false]

/-- An instruction that is no closure marks nothing. -/
theorem Marks.op {o : Opcode} (ho : o ≠ .closure) (operands : List UInt8) :
    Γ.Marks [Γ.op o operands] Γ := by
  refine .plain fun i hi => ?_
  rw [List.mem_singleton.mp hi]
  refine ⟨Nat.le_refl _, fun slot => ?_⟩
  cases o with
  | closure => exact absurd rfl ho
  | _ => rfl

/-- The mark of a phrase leaves no marks behind. -/
theorem Marks.mark (happening : Happening) : Γ.Marks [Γ.mark happening] Γ := by
  refine .plain fun i hi => ?_
  rw [List.mem_singleton.mp hi]
  exact ⟨Nat.le_refl _, fun _ => rfl⟩

/-- A local that is declared has no mark yet. -/
theorem Marks.declare (name : String) : Γ.Marks [] (Γ.declare name).define where
  floor := List.forall_mem_nil _
  le := by
    rw [length_define_declare]
    exact Nat.le_succ _
  marks slot := by
    rw [Item.captures_nil, Bool.or_false]
    obtain ⟨locals, depth⟩ := Γ
    cases depth <;>
    · show (if slot = locals.length then false else isMarked locals slot) = isMarked locals slot
      split
      next heq => rw [heq, isMarked_of_length_le (Nat.le_refl _)]
      next => rfl

/-- The pairs of a closure are those of its captures. -/
theorem contains_of_captureBytes {captures : List Capture} {pairs : List UInt8}
    (h : CompileM.captureBytes captures = .ok pairs) (slot : Nat) :
    ((pairsOf pairs).any fun p => p.1 == 1 && p.2.toNat == slot) =
      captures.contains ⟨true, slot⟩ := by
  induction captures generalizing pairs with
  | nil =>
      cases h
      rfl
  | cons c captures ih =>
      obtain ⟨index, hindex, h⟩ := bind_eq_ok.mp h
      obtain ⟨rest, hrest, h⟩ := bind_eq_ok.mp h
      cases h
      obtain ⟨isLocal, n⟩ := c
      have hn : index.toNat = n := toNat_of_narrow hindex
      rw [pairsOf, List.any_cons, ih hrest, List.contains_cons, hn]
      refine congrArg (· || _) ?_
      cases isLocal with
      | false => simp
      | true => simp [Bool.beq_eq_decide_eq, eq_comm]

/-- A closure leaves behind the marks of its captures. -/
theorem Marks.closure {captures : List Capture} {pairs : List UInt8} {k : UInt8}
    (hlocals : Γ₁.locals = markAll captures Γ.locals)
    (hpairs : CompileM.captureBytes captures = .ok pairs) :
    Γ.Marks [Γ₁.op .closure (k :: pairs)] Γ₁ := by
  have hlength : Γ₁.locals.length = Γ.locals.length := by rw [hlocals, length_markAll]
  refine ⟨fun i hi => ?_, Nat.le_of_eq hlength.symm, fun slot => ?_⟩
  · rw [List.mem_singleton.mp hi]
    exact Nat.le_of_eq hlength.symm
  · rw [hlocals, isMarked_markAll]
    refine congrArg _ ?_
    by_cases hslot : slot < Γ.locals.length
    · rw [Item.captures_eq_any, List.any_cons, List.any_nil, Bool.or_false, decide_eq_true hslot,
        Bool.true_and]
      · exact (contains_of_captureBytes hpairs slot).symm
      · intro i hi
        rw [List.mem_singleton.mp hi]
        exact Nat.lt_of_lt_of_eq hslot hlength.symm
    · have hitem : (Γ₁.op .closure (k :: pairs)).locals ≤ slot :=
        Nat.le_trans (Nat.le_of_eq hlength) (Nat.le_of_not_lt hslot)
      have hnothing : Item.captures slot ([] ++ [Γ₁.op .closure (k :: pairs)]) = false :=
        Item.captures_of_getLast hitem
      rw [List.nil_append] at hnothing
      rw [hnothing, decide_eq_false hslot, Bool.false_and]

/-! ### Leaving a scope -/

/-- What is between the beginning and the end of a scope that is left. -/
structure Leaves (Γ : Scope) (is : List Item) (Γ' : Scope) : Prop where
  marks : Γ.enter.Marks is Γ'
  same : Γ.Same Γ'.leave
  owned : Γ'.owned.length + Γ.locals.length = Γ'.locals.length

/-- The instructions at the end of a scope go by what closures carry. -/
theorem Leaves.pops_eq (h : Γ.Leaves is Γ₁) :
    Γ₁.pops = Item.closing Γ.locals.length Γ₁.locals.length is := by
  have hcount : Γ₁.owned.length = Γ₁.locals.length - Γ.locals.length := by
    have howned := h.owned
    omega
  have hprefix : Γ₁.owned <+: Γ₁.locals := List.takeWhile_prefix _
  have hflags : Γ₁.owned.map Local.captured =
      (List.range Γ₁.owned.length).reverse.map fun j =>
        isMarked Γ₁.locals (Γ₁.locals.length - Γ₁.owned.length + j) := by
    rw [← map_captured_take hprefix.length_le, ← List.prefix_iff_eq_take.mp hprefix]
  have hlow : Γ₁.locals.length - Γ₁.owned.length = Γ.locals.length := by
    have howned := h.owned
    omega
  have hpops : Γ₁.pops = (Γ₁.owned.map Local.captured).map fun captured =>
      Γ₁.leave.op (if captured then .closeUpvalue else .pop) [] := by
    rw [List.map_map]
    rfl
  rw [hpops, hflags, List.map_map, Item.closing, ← hcount, hlow]
  refine List.map_congr_left fun j _ => ?_
  have hmarks := h.marks.marks (Γ.locals.length + j)
  have hnone : isMarked Γ.enter.locals (Γ.locals.length + j) = false :=
    isMarked_of_length_le (Nat.le_add_right ..)
  rw [hnone, Bool.false_or] at hmarks
  rw [Function.comp_apply, hmarks, Scope.op, h.same.length]

/-- Outside the scope nothing is left of its locals. -/
theorem Leaves.marks_leave (h : Γ.Leaves is Γ₁) :
    Γ.Marks (is ++ Item.closing Γ.locals.length Γ₁.locals.length is) Γ₁.leave := by
  have hclosing : ∀ i ∈ Item.closing Γ.locals.length Γ₁.locals.length is,
      i.locals = Γ.locals.length ∧ ∀ slot, i.carries slot = false := by
    intro i hi
    obtain ⟨j, -, rfl⟩ := List.mem_map.mp hi
    refine ⟨rfl, fun slot => ?_⟩
    split <;> rfl
  refine ⟨fun i hi => ?_, Nat.le_of_eq h.same.length.symm, fun slot => ?_⟩
  · rcases List.mem_append.mp hi with hi | hi
    · exact h.marks.floor i hi
    · exact Nat.le_of_eq (hclosing i hi).1.symm
  · have hmarks := h.marks.marks slot
    by_cases hslot : slot < Γ.locals.length
    · have hsuffix : Γ₁.leave.locals <:+ Γ₁.locals := List.dropWhile_suffix _
      rw [isMarked_of_suffix hsuffix (Nat.lt_of_lt_of_eq hslot h.same.length.symm), hmarks,
        Item.captures_append fun i hi => (hclosing i hi).1 ▸ hslot]
      have hnone : (Item.closing Γ.locals.length Γ₁.locals.length is).any (Item.carries slot) =
          false := by
        rw [List.any_eq_false]
        intro i hi
        simp [(hclosing i hi).2 slot]
      rw [hnone, Bool.or_false]
      rfl
    · have hle := Nat.le_of_not_lt hslot
      rw [isMarked_of_length_le (Nat.le_trans (Nat.le_of_eq h.same.length) hle),
        isMarked_of_length_le hle, Bool.false_or]
      rcases List.eq_nil_or_concat (Item.closing Γ.locals.length Γ₁.locals.length is) with
        hnil | ⟨before, last, hlast⟩
      · -- the scope owned nothing, and nothing carries a slot that nothing was in
        have hcount := congrArg List.length hnil
        rw [Item.closing, List.length_map, List.length_reverse, List.length_range,
          List.length_nil] at hcount
        have hle' : Γ₁.locals.length ≤ slot := by omega
        rw [isMarked_of_length_le hle'] at hmarks
        rw [hnil, List.append_nil]
        exact (Bool.or_eq_false_iff.mp hmarks.symm).2.symm
      · have hmem : last ∈ Item.closing Γ.locals.length Γ₁.locals.length is := by
          simp [hlast]
        rw [hlast, List.concat_eq_append, ← List.append_assoc,
          Item.captures_of_getLast ((hclosing last hmem).1 ▸ hle)]

end Scope

/-! ### Code that makes no closure -/

/-- Instructions at one place, none of which is a closure. -/
def Scope.Plain (Γ : Scope) (is : List Item) : Prop :=
  ∀ i ∈ is, ∃ o operands, i = Γ.op o operands ∧ o ≠ .closure

section

variable {Γ : Scope} {is js : List Item}

/-- Code without closures marks nothing. -/
theorem Scope.Plain.marks (h : Γ.Plain is) : Γ.Marks is Γ := by
  refine .plain fun i hi => ?_
  obtain ⟨o, operands, rfl, ho⟩ := h i hi
  have hop := (Scope.Marks.op (Γ := Γ) ho operands).floor _ (List.mem_singleton_self _)
  refine ⟨hop, fun slot => ?_⟩
  cases o with
  | closure => exact absurd rfl ho
  | _ => rfl

/-- No code is plain. -/
theorem Scope.Plain.nil : Γ.Plain [] :=
  List.forall_mem_nil _

/-- Plain code behind plain code is plain. -/
theorem Scope.Plain.append (h₁ : Γ.Plain is) (h₂ : Γ.Plain js) : Γ.Plain (is ++ js) :=
  List.forall_mem_append.mpr ⟨h₁, h₂⟩

/-- Plain code behind an instruction that is no closure is plain. -/
theorem Scope.Plain.cons {o : Opcode} {operands : List UInt8} (ho : o ≠ .closure)
    (h : Γ.Plain is) : Γ.Plain (Γ.op o operands :: is) :=
  List.forall_mem_cons.mpr ⟨⟨o, operands, rfl, ho⟩, h⟩

/-- An instruction alone that is no closure is plain. -/
theorem Scope.Plain.one {o : Opcode} {operands : List UInt8} (ho : o ≠ .closure) :
    Γ.Plain [Γ.op o operands] :=
  .cons ho .nil

/-- Plain code is plain with one behind it. -/
theorem Scope.Plain.then {o : Opcode} {operands : List UInt8} (h : Γ.Plain is)
    (ho : o ≠ .closure) : Γ.Plain (is ++ [Γ.op o operands]) :=
  h.append (.one ho)

/-- A read is no closure. -/
theorem World.Resolves.read_ne {w : World} {name : String} {access : Access}
    (h : w.Resolves Γ name access) : access.read ≠ .closure := by
  cases h <;> rintro ⟨⟩

/-- A write is no closure. -/
theorem World.Resolves.write_ne {w : World} {name : String} {access : Access}
    (h : w.Resolves Γ name access) : access.write ≠ .closure := by
  cases h <;> rintro ⟨⟩

/-- A load is no closure. -/
theorem Chunk.loadOf_ne {o : Opcode} {operands : List UInt8} {i : Nat}
    (h : (o, operands) = Chunk.loadOf i) : o ≠ .closure := by
  rw [Chunk.loadOf] at h
  split at h <;> cases h <;> rintro ⟨⟩

/-- An expression makes no closure. -/
theorem ExprCode.plain {w : World} {es : List Expr} (h : ExprCode w Γ es is) : Γ.Plain is := by
  induction h with
  | nil => exact .nil
  | cons _ _ ihHead ihTail => exact ihHead.append ihTail
  | literal l => exact .one (by cases l <;> rintro ⟨⟩)
  | number hload => exact .one (Chunk.loadOf_ne hload)
  | string hload => exact .one (Chunk.loadOf_ne hload)
  | «variable» hr => exact .one hr.read_ne
  | assign hr _ ih => exact ih.then hr.write_ne
  | @unary o _ _ _ ih => exact ih.then (by cases o <;> rintro ⟨⟩)
  | @binary o _ _ _ _ _ _ ihLeft ihRight =>
      refine (ihLeft.append ihRight).append fun i hi => ?_
      obtain ⟨op, hop, rfl⟩ := List.mem_map.mp hi
      refine ⟨op, [], rfl, ?_⟩
      rintro rfl
      cases o <;> revert hop <;> decide
  | and _ _ _ ihLeft ihRight =>
      exact ihLeft.append (.cons (by decide) (.cons (by decide) ihRight))
  | or _ _ _ ihLeft ihRight =>
      exact ihLeft.append (.cons (by decide) (.cons (by decide) (.cons (by decide) ihRight)))
  | call _ _ _ ihCallee ihArguments => exact (ihCallee.append ihArguments).then (by decide)
  | get _ _ ih => exact ih.then (by decide)
  | set _ _ _ ihObject ihValue => exact (ihObject.append ihValue).then (by decide)

/-- A value is compiled without closures. -/
theorem ValueCode.plain {w : World} {e : Option Expr} (h : ValueCode w Γ e is) : Γ.Plain is := by
  cases h with
  | none => exact .one (by decide)
  | some h => exact h.plain

end

/-- The scopes of a statement close as they should, and its marks are those of its closures. -/
structure Closes (w : World) (Γ : Scope) (st : Stmt) (is : List Item) (Γ' : Scope) : Prop where
  code : ClosedCode w Γ st is Γ'
  marks : Γ.Marks is Γ'

section

variable {w w' : World} {Γ Γ₁ Γ₂ : Scope} {st : Stmt} {is a b d : List Item}

/-- A statement closes its scopes in every later world. -/
theorem Closes.mono (h : w.Le w') (hc : Closes w Γ st is Γ₁) : Closes w' Γ st is Γ₁ :=
  ⟨hc.code.mono h, hc.marks⟩

/-- How many locals are in scope is all that instructions know of it. -/
theorem Scope.Plain.of_length (h : Γ.Plain is) (hlength : Γ₁.locals.length = Γ.locals.length) :
    Γ₁.Plain is := by
  intro i hi
  obtain ⟨o, operands, rfl, ho⟩ := h i hi
  exact ⟨o, operands, by rw [Scope.op, Scope.op, hlength], ho⟩

/-- Plain code behind the declaration of a local marks nothing. -/
theorem Scope.Plain.marks_declare {name : String} (h : (Γ.declare name).Plain is) :
    Γ.Marks is (Γ.declare name).define := by
  have hplain : (Γ.declare name).define.Plain is :=
    h.of_length (Scope.length_define_declare Γ name)
  exact (Scope.Marks.declare (Γ := Γ) name).append hplain.marks

/-- A statement without others inside marks nothing. -/
theorem StmtCode.marks (h : StmtCode w Γ st is Γ₁) (hst : st.Simple) : Γ.Marks is Γ₁ := by
  induction h with
  | skip Γ => exact .nil Γ
  | marked _ _ ih => exact ((Scope.Marks.mark _).append (ih hst)).append (.mark _)
  | expression he | print he => exact (he.plain.then (by decide)).marks
  | del hr _ => exact (Scope.Plain.cons hr.read_ne (.one (by decide))).marks
  | ret hv | varGlobal _ _ hv => exact (hv.plain.then (by decide)).marks
  | varLocal _ _ hv => exact hv.plain.marks_declare
  | classGlobal => exact (Scope.Plain.cons (by decide) (.one (by decide))).marks
  | classLocal => exact (Scope.Plain.one (by decide)).marks_declare
  | seq | branch | whileLoop | forLoop | block | funGlobal | funLocal => exact hst.elim

/-- A statement without others inside has no scopes to close. -/
theorem StmtCode.closes (h : StmtCode w Γ st is Γ₁) (hst : st.Simple) : Closes w Γ st is Γ₁ :=
  ⟨.simple hst h, h.marks hst⟩

/-- Statements in a row close their scopes if each does. -/
theorem Closes.seq {s₁ s₂ : Stmt} (h₁ : Closes w Γ s₁ a Γ₁) (h₂ : Closes w Γ₁ s₂ b Γ₂) :
    Closes w Γ (.seq s₁ s₂) (a ++ b) Γ₂ :=
  ⟨.seq h₁.code h₂.code, h₁.marks.append h₂.marks⟩

/-- The marks of a phrase around a statement change nothing. -/
theorem Closes.marked (h : Closes w Γ st a Γ₁) (phrase : Phrase) :
    Closes w Γ st (Γ.mark (.begins phrase) :: a ++ [Γ₁.mark (.ends phrase)]) Γ₁ :=
  ⟨.marked phrase h.code, ((Scope.Marks.mark _).append h.marks).append (.mark _)⟩

/-- A branch closes its scopes if both sides do. -/
theorem Closes.branch {c : Expr} {yes no : Stmt} (hc : ExprCode w Γ [c] a)
    (hyes : Closes w Γ yes b Γ₁) (hno : Closes w Γ₁ no d Γ₂) :
    Closes w Γ (.branch c yes no)
      (a ++ Γ.jump .jumpIfFalse
        (Γ.op .pop [] :: b ++ [Γ₁.jump .jump (Γ₁.op .pop [] :: d)]) ::
      Γ.op .pop [] :: b ++ Γ₁.jump .jump (Γ₁.op .pop [] :: d) :: Γ₁.op .pop [] :: d) Γ₂ := by
  refine ⟨.branch hc hyes.code hno.code, ?_⟩
  have htest : Γ.Plain (a ++ [Γ.jump .jumpIfFalse
      (Γ.op .pop [] :: b ++ [Γ₁.jump .jump (Γ₁.op .pop [] :: d)]), Γ.op .pop []]) :=
    hc.plain.append (.cons (by decide) (.one (by decide)))
  have hskip : Γ₁.Plain [Γ₁.jump .jump (Γ₁.op .pop [] :: d), Γ₁.op .pop []] :=
    .cons (by decide) (.one (by decide))
  simpa using (htest.marks.append hyes.marks).append (hskip.marks.append hno.marks)

/-- The code of a loop marks what the body does, if nothing else in it makes a closure. -/
theorem LoopParts.marks {p : LoopParts} (hcondition : ∀ a, p.condition = some a → p.before.Plain a)
    (hstep : ∀ a, p.step = some a → p.before.Plain a) (hbody : p.before.Marks p.body p.after) :
    p.before.Marks p.items p.after := by
  have hpart : p.before.Plain p.stepPart := by
    rw [stepPart]
    split
    · exact .nil
    next a ha =>
      exact .cons (by decide) ((hstep a ha).append (.cons (by decide) (.one (by decide))))
  have hinner : p.before.Marks p.inner p.after :=
    (hpart.marks.append hbody).append (Scope.Plain.one (by decide)).marks
  rw [items]
  split
  · exact hinner
  next a ha =>
    have htest : p.before.Plain (a ++ [p.before.jump .jumpIfFalse (p.before.op .pop [] :: p.inner),
        p.before.op .pop []]) :=
      (hcondition a ha).append (.cons (by decide) (.one (by decide)))
    have hexit : p.after.Plain [p.after.op .pop []] := .one (by decide)
    simpa using (htest.marks.append hinner).append hexit.marks

/-- A clause is compiled without closures. -/
theorem OptionCode.plain {e : Option Expr} {head : Option (List Item)}
    (h : OptionCode w Γ e head) : ∀ a, head = some a → Γ.Plain a := by
  rintro a rfl
  cases h with
  | some h => exact h.plain

/-- A while loop closes its scopes if its body does. -/
theorem Closes.whileLoop {c : Expr} {body : Stmt} (hc : ExprCode w Γ [c] a)
    (hbody : Closes w Γ body b Γ₁) :
    Closes w Γ (.whileLoop c body) (LoopParts.mk Γ Γ₁ (some a) none b).items Γ₁ := by
  refine ⟨.whileLoop hc hbody.code, ?_⟩
  refine LoopParts.marks (p := ⟨Γ, Γ₁, some a, none, b⟩) ?_ ?_ hbody.marks
  · rintro _ ⟨⟩
    exact hc.plain
  · rintro _ ⟨⟩

/-- A scope that is left behind some code. -/
theorem Scope.Marks.leaves (h : Γ.enter.Marks is Γ₁)
    (hleave : Γ.Same Γ₁.leave ∧ Γ₁.owned.length + Γ.locals.length = Γ₁.locals.length) :
    Γ.Leaves is Γ₁ :=
  ⟨h, hleave.1, hleave.2⟩

/-- A for loop closes its own scope, and those inside if its clauses and its body do. -/
theorem Closes.forLoop {first body : Stmt} {c step : Option Expr}
    {head tail : Option (List Item)} (hfirst : Closes w Γ.enter first a Γ₁)
    (hc : OptionCode w Γ₁ c head) (hstep : OptionCode w Γ₁ step tail)
    (hbody : Closes w Γ₁ body b Γ₂)
    (hleave : Γ.Same Γ₂.leave ∧ Γ₂.owned.length + Γ.locals.length = Γ₂.locals.length) :
    Closes w Γ (.forLoop first c step body)
      (a ++ (LoopParts.mk Γ₁ Γ₂ head tail b).items ++ Γ₂.pops) Γ₂.leave := by
  have hloop := LoopParts.marks (p := ⟨Γ₁, Γ₂, head, tail, b⟩) hc.plain hstep.plain hbody.marks
  have hleaves := (hfirst.marks.append hloop).leaves hleave
  rw [hleaves.pops_eq]
  exact ⟨.forLoop hfirst.code hc hstep hbody.code, hleaves.marks_leave⟩

/-- A block closes its own scope, and those inside if its declarations do. -/
theorem Closes.block {body : Stmt} (hbody : Closes w Γ.enter body a Γ₁)
    (hleave : Γ.Same Γ₁.leave ∧ Γ₁.owned.length + Γ.locals.length = Γ₁.locals.length) :
    Closes w Γ (.block body) (a ++ Γ₁.pops) Γ₁.leave := by
  have hleaves := hbody.marks.leaves hleave
  rw [hleaves.pops_eq]
  exact ⟨.block hbody.code, hleaves.marks_leave⟩

end

/-- A closure whose function closes its scopes, where the locals before it are those of a scope
but for the marks of its captures. -/
inductive ClosureCloses (w : World) (Γ Γ₁ : Scope) (parameters : List String) (body : Stmt)
    (k : UInt8) (pairs : List UInt8) : Prop
  | intro {Γ₂ : Scope} {o : FunctionObject} {captures : List Capture} {a : List Item} :
      w.MakesClosure Γ₁ o k captures pairs →
        ClosedCode (w.inside Γ₁ o captures) (.ofParameters parameters) body a Γ₂ →
          o.chunk.code.toList = Item.code (a ++ [Γ₂.op .nil [], Γ₂.op .ret []]) →
            Γ₁.locals = markAll captures Γ.locals →
              ClosureCloses w Γ Γ₁ parameters body k pairs

section

variable {w w' : World} {Γ Γ₀ Γ₁ : Scope} {parameters : List String} {body : Stmt} {k : UInt8}
  {pairs : List UInt8} {name : String}

/-- The function of a closure closes its scopes in every later world. -/
theorem ClosureCloses.mono (h : w.Le w') (hc : ClosureCloses w Γ Γ₁ parameters body k pairs) :
    ClosureCloses w' Γ Γ₁ parameters body k pairs := by
  obtain ⟨hm, hbody, hcode, hmarks⟩ := hc
  exact .intro (hm.mono h) (hbody.mono (hm.le_inside h)) hcode hmarks

/-- A function that is declared behind some scope, perhaps with its own local. -/
theorem ClosureCloses.closes {after : List Item}
    (hc : ClosureCloses w Γ₀ Γ₁ parameters body k pairs) (hbefore : Γ.Marks [] Γ₀) (hafter : Γ₁.Plain after)
    (hst : StmtCode w Γ (.funDecl name parameters body) (Γ₁.op .closure (k :: pairs) :: after) Γ₁) :
    Closes w Γ (.funDecl name parameters body) (Γ₁.op .closure (k :: pairs) :: after) Γ₁ := by
  obtain ⟨hm, hbody, hcode, hmarks⟩ := hc
  refine ⟨.funDecl hm hbody hcode hst, ?_⟩
  simpa using (hbefore.append (.closure hmarks hm.pairs_eq)).append hafter.marks

end

end LoxBytecode
