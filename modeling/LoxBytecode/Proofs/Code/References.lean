import LoxBytecode.Proofs.Code.Shape

/-!
# References in Code

The instructions that read and write variables, next to the references of the syntax tree. Both
come in the same order, and each instruction does what the lexical scoping of its reference asks
for (`StmtCode.meets`): a slot for a local of the function, a capture that leads to the slot for
a local further out, and the name for a global.
-/

namespace LoxBytecode

/-! ### Instructions for variables -/

/-- Whether an instruction reads or writes a variable. -/
def Opcode.isAccess : Opcode → Bool
  | .getLocal | .setLocal | .getUpvalue | .setUpvalue | .getGlobal | .setGlobal =>
    Bool.true
  | _ => Bool.false

/-- The opcode and the operand of an item that reads or writes a variable. -/
def Item.access? : Item → Option (Opcode × Nat)
  | .instr op [b] _ => if op.isAccess then some (op, b.toNat) else none
  | .instr .. | .mark .. => none

/-- The items that read or write a variable. -/
def Item.accesses (is : List Item) : List (Opcode × Nat) :=
  is.filterMap access?

/-- An instruction does what lexical scoping asks for: it names the slot of a local of its
function, a capture that leads to the slot of a local of a function further out, or a global. -/
inductive Reference.IsMetBy (w : World) (r : Reference) : Opcode × Nat → Prop
  | local {slot : Nat} : r.place.find? r.name = some (0, slot) →
      IsMetBy w r (if r.write then .setLocal else .getLocal, slot)
  | upvalue {out slot index : Nat} : r.place.find? r.name = some (out + 1, slot) →
      originOf? w.tables index = some (out, slot) →
        IsMetBy w r (if r.write then .setUpvalue else .getUpvalue, index)
  | global {i : Nat} : r.place.find? r.name = none → w.HasText i r.name →
      IsMetBy w r (if r.write then .setGlobal else .getGlobal, i)

/-! ### Places and scopes -/

/-- A place in the tree is the one that code was written at. -/
structure World.Sees (w : World) (Γ : Scope) (p : Place) : Prop where
  frame : p.frame = Γ.frame
  around : p.around = w.around
  top : p.top = true ↔ Γ.depth = 0

section

variable {w : World} {Γ Γ' : Scope} {p : Place} {name : String}

/-- Only the names and slots of a scope matter to the place that it is. -/
theorem World.Sees.of_same (h : w.Sees Γ p) (hsame : Γ.Same Γ') : w.Sees Γ' p where
  frame := h.frame.trans hsame.frame.symm
  around := h.around
  top := hsame.depth ▸ h.top

/-- Entering a scope is the same for both. -/
theorem World.Sees.enter (h : w.Sees Γ p) : w.Sees Γ.enter p.enter where
  frame := h.frame
  around := h.around
  top := by simp [Place.enter, Scope.enter]

/-- At the top a declaration changes no place. -/
theorem World.Sees.declare_of_depth_eq_zero (h : w.Sees Γ p) (hdepth : Γ.depth = 0)
    (name : String) : p.declare name = p := by
  rw [Place.declare, if_pos (h.top.mpr hdepth)]

/-- In a scope a declaration is the same for both. -/
theorem World.Sees.declare (h : w.Sees Γ p) (hdepth : Γ.depth ≠ 0) (name : String) :
    w.Sees (Γ.declare name).define (p.declare name) := by
  have htop : ¬ p.top = true := fun htop => hdepth (h.top.mp htop)
  rw [Place.declare, if_neg htop]
  obtain ⟨locals, depth⟩ := Γ
  cases depth with
  | zero => exact absurd rfl hdepth
  | succ depth =>
      exact ⟨congrArg (name :: ·) h.frame, h.around, by simp [htop, Scope.define, Scope.declare]⟩

/-- Inside a function, which sees the functions around it as they are where it is declared. -/
theorem World.Sees.inside (h : w.Sees Γ p) (o : FunctionObject) (captures : List Capture)
    (parameters : List String) :
    (w.inside Γ o captures).Sees (.ofParameters parameters) (p.inside parameters) where
  frame := (Scope.frame_ofParameters parameters).symm
  around := by rw [Place.inside, World.inside, h.frame, h.around]
  top := by simp [Place.inside, Scope.ofParameters]

/-- A statement ends at the place behind it. -/
theorem StmtCode.sees {st : Stmt} {is : List Item} (hc : StmtCode w Γ st is Γ')
    (hs : Γ.Settled) (h : w.Sees Γ p) : w.Sees Γ' (p.after st) := by
  induction hc generalizing p with
  | skip | expression | print | del | ret => exact h
  | seq hfirst _ ihFirst ihSecond => exact ihSecond ((hfirst.extends hs).settled hs) (ihFirst hs h)
  | marked _ _ ih => exact ih hs h
  | branch _ _ _ hyes hno => exact (h.of_same hyes).of_same hno
  | whileLoop _ _ hsame => exact h.of_same hsame
  | forLoop hfirst _ _ _ hsame =>
      exact h.of_same (((hfirst.extends hs.enter).trans hsame.extends).leave hs).1
  | block hbody => exact h.of_same ((hbody.extends hs.enter).leave hs).1
  | varGlobal hdepth | classGlobal hdepth =>
      rwa [Place.after, h.declare_of_depth_eq_zero hdepth]
  | varLocal hdepth | classLocal hdepth => exact h.declare hdepth _
  | funGlobal hdepth _ hsame =>
      rw [Place.after, h.declare_of_depth_eq_zero hdepth]
      exact h.of_same hsame
  | funLocal hdepth _ hsame => exact (h.declare hdepth _).of_same hsame

/-! ### Names -/

/-- The accesses to a name at a place are those that its references there ask for. -/
def World.Names (w : World) (Γ : Scope) (p : Place) : Prop :=
  ∀ name access, w.Resolves Γ name access →
    Reference.IsMetBy w ⟨p, name, false⟩ (access.read, access.operand.toNat) ∧
      Reference.IsMetBy w ⟨p, name, true⟩ (access.write, access.operand.toNat)

/-- Names resolve as the place says that they do. -/
theorem World.Sees.names (h : w.Sees Γ p) : w.Names Γ p := by
  intro name access hr
  have hfind : p.find? name = findIn? name (Γ.frame :: w.around) := by
    rw [Place.find?, h.frame, h.around]
  rw [findIn?, Scope.frame, slotOf?_eq] at hfind
  cases hr with
  | «local» hlocal =>
      rw [hlocal] at hfind
      exact ⟨.local hfind, .local hfind⟩
  | upvalue hlocal haround horigin =>
      rw [hlocal, haround] at hfind
      exact ⟨.upvalue hfind horigin, .upvalue hfind horigin⟩
  | global hlocal haround htext =>
      rw [hlocal, haround] at hfind
      exact ⟨.global hfind htext, .global hfind htext⟩

/-- What a name means is not changed by a declaration whose value is still being written: another
name is found as before, and this one is not read. -/
theorem World.Resolves.of_declare {name' : String} {access : Access}
    (h : w.Resolves (Γ.declare name') name access) : w.Resolves Γ name access := by
  have hnone : FunctionState.findLocal? name (Γ.declare name').locals = none →
      FunctionState.findLocal? name Γ.locals = none := by
    intro hfind
    rw [Scope.declare, FunctionState.findLocal?] at hfind
    split at hfind
    · cases hfind
    · exact hfind
  cases h with
  | «local» hfind hdepth =>
      rw [Scope.declare, FunctionState.findLocal?] at hfind
      split at hfind
      · obtain ⟨-, rfl⟩ := Prod.mk.inj (Option.some.inj hfind)
        exact absurd rfl hdepth
      · exact .local hfind hdepth
  | upvalue hfind haround horigin => exact .upvalue (hnone hfind) haround horigin
  | global hfind haround htext => exact .global (hnone hfind) haround htext

/-- A local that waits hides no name. -/
theorem World.Names.declare (h : w.Names Γ p) (name : String) : w.Names (Γ.declare name) p :=
  fun name access hr => h name access hr.of_declare

end

/-! ### Lists of items -/

namespace Item

@[simp] theorem accesses_nil : accesses [] = [] := rfl

@[simp] theorem accesses_append (is js : List Item) :
    accesses (is ++ js) = accesses is ++ accesses js :=
  List.filterMap_append

@[simp] theorem accesses_mark_cons (Γ : Scope) (happening : Happening) (is : List Item) :
    accesses (Γ.mark happening :: is) = accesses is := rfl

@[simp] theorem accesses_plain_cons (Γ : Scope) (op : Opcode) (is : List Item) :
    accesses (Γ.op op [] :: is) = accesses is := rfl

/-- An instruction that is no access does not count. -/
theorem accesses_op_cons (Γ : Scope) {op : Opcode} (hop : op.isAccess = false)
    (operands : List UInt8) (is : List Item) :
    accesses (Γ.op op operands :: is) = accesses is := by
  match operands with
  | [] | _ :: _ :: _ => rfl
  | [b] =>
      rw [accesses, Scope.op, List.filterMap_cons_none (by rw [access?, hop]; rfl)]
      rfl

/-- An access counts with its operand. -/
theorem accesses_access (Γ : Scope) {op : Opcode} (hop : op.isAccess = true) (b : UInt8) :
    accesses [Γ.op op [b]] = [(op, b.toNat)] := by
  rw [accesses, Scope.op, List.filterMap_cons_some (by rw [access?, if_pos hop])]
  rfl

@[simp] theorem accesses_jump_cons (Γ : Scope) (op : Opcode) (body is : List Item) :
    accesses (Γ.jump op body :: is) = accesses is := rfl

@[simp] theorem accesses_back_cons (Γ : Scope) (distance : Nat) (is : List Item) :
    accesses (Γ.back distance :: is) = accesses is := rfl

@[simp] theorem accesses_pops (Γ : Scope) : accesses Γ.pops = [] := by
  rw [accesses, List.filterMap_eq_nil_iff]
  intro i hi
  obtain ⟨l, -, rfl⟩ := List.mem_map.mp hi
  rfl

/-- A loop's accesses, with those of the step before those of the body. -/
theorem accesses_items (p : LoopParts) : accesses p.items =
    accesses (p.condition.getD []) ++ (accesses (p.step.getD []) ++ accesses p.body) := by
  obtain ⟨before, after, condition, step, body⟩ := p
  cases condition <;> cases step <;>
    simp [LoopParts.items, LoopParts.inner, LoopParts.stepPart, LoopParts.stepCode]

end Item

/-! ### Code -/

section

variable {w : World} {Γ Γ' : Scope} {p : Place}

/-- A read is met by the access to its name. -/
theorem World.Names.accesses_read (h : w.Names Γ p) {name : String} {access : Access}
    (hr : w.Resolves Γ name access) :
    List.Forall₂ (Reference.IsMetBy w) [⟨p, name, false⟩]
      (Item.accesses [Γ.op access.read [access.operand]]) := by
  have hop : access.read.isAccess = true := by cases hr <;> rfl
  rw [Item.accesses_access Γ hop]
  exact .cons (h name access hr).1 .nil

/-- A write is met by the access to its name. -/
theorem World.Names.accesses_write (h : w.Names Γ p) {name : String} {access : Access}
    (hr : w.Resolves Γ name access) :
    List.Forall₂ (Reference.IsMetBy w) [⟨p, name, true⟩]
      (Item.accesses [Γ.op access.write [access.operand]]) := by
  have hop : access.write.isAccess = true := by cases hr <;> rfl
  rw [Item.accesses_access Γ hop]
  exact .cons (h name access hr).2 .nil

@[simp] theorem Expr.referencesAll_singleton (p : Place) (e : Expr) :
    Expr.referencesAll p [e] = e.references p :=
  List.append_nil _

/-- The load of a constant is no access to a variable. -/
theorem isAccess_of_loadOf {op : Opcode} {operands : List UInt8} {i : Nat}
    (h : (op, operands) = Chunk.loadOf i) : op.isAccess = false := by
  rw [Chunk.loadOf] at h
  split at h <;> cases h <;> rfl

/-- The accesses in the code of some expressions are those that their references ask for. -/
theorem ExprCode.meets {es : List Expr} {is : List Item} (hc : ExprCode w Γ es is)
    (h : w.Names Γ p) :
    List.Forall₂ (Reference.IsMetBy w) (Expr.referencesAll p es) (Item.accesses is) := by
  induction hc with
  | nil => exact .nil
  | cons _ _ ihHead ihTail =>
      rw [Expr.referencesAll_singleton] at ihHead
      rw [Expr.referencesAll, Item.accesses_append]
      exact List.rel_append ihHead ihTail
  | literal l => cases l <;> exact .nil
  | number hload | string hload =>
      rw [Item.accesses_op_cons Γ (isAccess_of_loadOf hload)]
      exact .nil
  | «variable» hr => exact h.accesses_read hr
  | assign hr _ ih =>
      rw [Expr.referencesAll_singleton] at ih ⊢
      rw [Expr.references, Item.accesses_append]
      exact List.rel_append ih (h.accesses_write hr)
  | unary _ ih => simpa [Expr.references] using ih
  | @binary o _ _ _ _ _ _ ihLeft ihRight =>
      rw [Expr.referencesAll_singleton] at ihLeft ihRight ⊢
      have hcode : Item.accesses (o.code.map (Γ.op · [])) = [] := by cases o <;> rfl
      rw [Expr.references, Item.accesses_append, hcode, List.append_nil, Item.accesses_append]
      exact List.rel_append ihLeft ihRight
  | and _ _ _ ihLeft ihRight | or _ _ _ ihLeft ihRight =>
      rw [Expr.referencesAll_singleton] at ihLeft ihRight ⊢
      rw [Expr.references]
      simpa using List.rel_append ihLeft ihRight
  | call _ _ _ ihCallee ihArguments =>
      rw [Expr.referencesAll_singleton] at ihCallee ⊢
      rw [Expr.references, Item.accesses_append, Item.accesses_append,
        Item.accesses_op_cons Γ rfl, Item.accesses_nil, List.append_nil]
      exact List.rel_append ihCallee ihArguments
  | get _ _ ih =>
      rw [Expr.referencesAll_singleton] at ih ⊢
      rw [Expr.references, Item.accesses_append, Item.accesses_op_cons Γ rfl, Item.accesses_nil,
        List.append_nil]
      exact ih
  | set _ _ _ ihObject ihValue =>
      rw [Expr.referencesAll_singleton] at ihObject ihValue ⊢
      rw [Expr.references, Item.accesses_append, Item.accesses_append,
        Item.accesses_op_cons Γ rfl, Item.accesses_nil, List.append_nil]
      exact List.rel_append ihObject ihValue

/-- The references of an expression are met by the accesses in its code, in order. -/
theorem ExprCode.meets_one {e : Expr} {is : List Item} (hc : ExprCode w Γ [e] is)
    (h : w.Names Γ p) :
    List.Forall₂ (Reference.IsMetBy w) (e.references p) (Item.accesses is) := by
  rw [← Expr.referencesAll_singleton]
  exact hc.meets h

/-- The references of a clause are met by the accesses in its code, in order. -/
theorem OptionCode.meets {e : Option Expr} {is : Option (List Item)} (hc : OptionCode w Γ e is)
    (h : w.Names Γ p) :
    List.Forall₂ (Reference.IsMetBy w) (Expr.referencesOf p e) (Item.accesses (is.getD [])) := by
  cases hc with
  | none => exact .nil
  | some hc => exact hc.meets_one h

/-- The references of a value are met by the accesses in its code, in order. -/
theorem ValueCode.meets {e : Option Expr} {is : List Item} (hc : ValueCode w Γ e is)
    (h : w.Names Γ p) :
    List.Forall₂ (Reference.IsMetBy w) (Expr.referencesOf p e) (Item.accesses is) := by
  cases hc with
  | none => exact .nil
  | some hc => exact hc.meets_one h

/-- The accesses in the code of a statement are those that its references ask for. -/
theorem StmtCode.meets {st : Stmt} {is : List Item} (hc : StmtCode w Γ st is Γ')
    (hs : Γ.Settled) (h : w.Sees Γ p) :
    List.Forall₂ (Reference.IsMetBy w) (st.references p) (Item.accesses is) := by
  induction hc generalizing p with
  | skip => exact .nil
  | seq hfirst _ ihFirst ihSecond =>
      rw [Stmt.references, Item.accesses_append]
      exact List.rel_append (ihFirst hs h)
        (ihSecond ((hfirst.extends hs).settled hs) (hfirst.sees hs h))
  | marked _ _ ih => simpa using ih hs h
  | expression he | print he => simpa [Stmt.references] using he.meets_one h.names
  | del hr =>
      rw [← List.singleton_append, Item.accesses_append]
      exact List.rel_append (h.names.accesses_read hr) .nil
  | ret hv => simpa [Stmt.references] using hv.meets h.names
  | branch hc _ _ hyes _ _ _ ihYes ihNo =>
      have hrest := List.rel_append (ihYes hs h) (ihNo (hs.of_same hyes) (h.of_same hyes))
      simpa [Stmt.references] using List.rel_append (hc.meets_one h.names) hrest
  | whileLoop hc _ _ _ ih =>
      rw [Stmt.references, Item.accesses_items]
      exact List.rel_append (hc.meets_one h.names) (ih hs h)
  | forLoop hfirst hc hstep _ _ _ ihFirst ihBody =>
      have hsettled := (hfirst.extends hs.enter).settled hs.enter
      have hsees := hfirst.sees hs.enter h.enter
      rw [Stmt.references, Item.accesses_append, Item.accesses_pops, List.append_nil,
        Item.accesses_append, Item.accesses_items]
      exact List.rel_append (ihFirst hs.enter h.enter) (List.rel_append (hc.meets hsees.names)
        (List.rel_append (hstep.meets hsees.names) (ihBody hsettled hsees)))
  | block _ ih => simpa [Stmt.references] using ih hs.enter h.enter
  | varGlobal _ _ hv =>
      rw [Stmt.references, Item.accesses_append, Item.accesses_op_cons _ rfl,
        Item.accesses_nil, List.append_nil]
      exact hv.meets h.names
  | varLocal _ _ hv => exact hv.meets (h.names.declare _)
  | classGlobal | classLocal => exact .nil
  | funGlobal | funLocal =>
      rw [Item.accesses_op_cons _ rfl]
      exact .nil

end

end LoxBytecode
