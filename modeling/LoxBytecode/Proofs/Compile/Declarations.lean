import Mathlib
import LoxBytecode.Proofs.Compile.References
import LoxBytecode.Proofs.Heap.Numbering
import LoxBytecode.Proofs.Syntax.Functions

/-!
# The Functions of a Program in the Heap

The object of a function `Heap.Declares` a body when it holds its code and when the functions
among its constants are, in their order, those that the body declares in the source. One by one
they declare the bodies of these. Code alone does not say so much: what it makes closures of has
the right code (`StmtCode.declaredBy`), but a constant could be there that no closure is made of.
That there is none is what `PairedFunction` adds.
-/

namespace LoxBytecode

open Heap

/-! ### Closures in a listing -/

namespace Listing

/-- The constant that an instruction makes a closure of. -/
def made? : Opcode → Operand → Option Nat
  | .closure, .captures k => some k
  | _, _ => none

/-- The constant that the instruction at an offset makes a closure of. -/
def madeAt? (c : Chunk) (offset : Nat) : Option Nat :=
  match c.decode offset with
  | .ok (.instruction op operand _) => made? op operand
  | _ => none

/-- The constants that the instructions of a chunk make closures of, in their order. -/
def made (h : Heap) (c : Chunk) : List Nat :=
  (offsets h c).filterMap (madeAt? c)

end Listing

section

variable {w : World} {h : Heap} {o : FunctionObject} {pc : Nat} {is : List Item}

/-- A valid instruction is found again as the closure that it makes, or as none. -/
theorem Item.Valid.madeAt {op : Opcode} {operands : List UInt8} {n : Nat}
    (hvalid : Item.Valid w (.instr op operands n))
    (hholds : o.chunk.Holds pc (.instr op operands n :: is)) :
    Listing.madeAt? o.chunk pc =
      (Item.closure? (.instr op operands n)).map fun closure => closure.1.toNat := by
  suffices hencoded : ∃ operand, Operand.Encoded op.format operands operand ∧
      Listing.made? op operand =
        (Item.closure? (.instr op operands n)).map fun closure => closure.1.toNat by
    obtain ⟨operand, hoperand, hfound⟩ := hencoded
    rw [Listing.madeAt?, hholds.decode hoperand]
    exact hfound
  cases hvalid with
  | @plain op _ hformat =>
      refine ⟨.none, hformat ▸ .none [], ?_⟩
      cases op <;> rfl
  | @byte op b _ hformat =>
      refine ⟨.byte b, hformat ▸ .byte b _, ?_⟩
      cases op <;> first | rfl | cases hformat
  | @named op b _ _ hformat =>
      refine ⟨.constant b.toNat, hformat ▸ .constant b _, ?_⟩
      cases op <;> first | rfl | cases hformat
  | load _ hload hlt =>
      obtain ⟨hop, -, hencoded⟩ := encoded_loadOf hload hlt
      refine ⟨_, hencoded, ?_⟩
      rcases hop with rfl | rfl <;> rfl
  | @ahead op _ _ hformat hd =>
      refine ⟨_, hformat ▸ (encoded_bytesOf16 hd).1, ?_⟩
      cases op <;> first | rfl | cases hformat
  | back _ hd => exact ⟨_, (encoded_bytesOf16 hd).2, rfl⟩
  | closure => exact ⟨_, .captures _ _, rfl⟩

/-- Reading the code at each offset of its items finds the functions that the items make, in
order. -/
theorem Item.filterMap_madeAt (hvalid : ∀ i ∈ is, i.Valid w)
    (hholds : o.chunk.Holds pc is) :
    (Item.offsets pc is).filterMap (Listing.madeAt? o.chunk) = Item.made is := by
  induction is generalizing pc with
  | nil => rfl
  | cons i is ih =>
      obtain ⟨hi, his⟩ := List.forall_mem_cons.mp hvalid
      cases i with
      | mark happening n => exact ih his hholds
      | instr op operands n =>
          have hrest := ih his hholds.of_instr
          rw [Item.offsets, List.filterMap_cons, hi.madeAt hholds, hrest, Item.made,
            Item.made, Item.closures, Item.closures, List.filterMap_cons]
          cases Item.closure? (.instr op operands n) <;> rfl

/-- The listing of code that was written finds the closures that were written. -/
theorem Listing.made_eq (hw : w.Describes h o)
    (hclosed : h.Closed o.chunk.constants.toList) (hvalid : ∀ i ∈ is, i.Valid w)
    (hcode : o.chunk.code.toList = Item.code is) :
    Listing.made h o.chunk = Item.made is := by
  rw [Listing.made, Listing.offsets_eq hw hclosed hvalid hcode]
  exact Item.filterMap_madeAt hvalid (.of_eq hcode)

end

/-! ### Declared functions -/

/-- The object of a function holds the code of a body that begins at a place, and the functions
among its constants are, in their order, those that the body declares. -/
inductive Heap.Declares (h : Heap) : FunctionObject → Place → Stmt → Prop
  | intro {o : FunctionObject} {p : Place} {body : Stmt} {w : World} {Γ Γ' : Scope}
      {is : List Item} : w.Describes h o → Γ.frame = p.frame → StmtCode w Γ body is Γ' →
      o.chunk.code.toList = Item.code (is ++ [Γ'.op .nil [], Γ'.op .ret []]) →
      (Listing.nested o).length = (body.nested p).length →
      (∀ (i : Nat) (f : FunctionHandle) (callee : FunctionObject) (q : Place × Stmt),
        (Listing.nested o)[i]? = some f → h.functions.get? f.index = some callee →
          (body.nested p)[i]? = some q → Declares h callee q.1 q.2) →
      Declares h o p body

/-- The closures in the code of a function are made of its function constants, one of each and in
their order. -/
def Heap.Pairs (h : Heap) (o : FunctionObject) : Prop :=
  Listing.made h o.chunk = Value.functionIndices o.chunk.constants.toList

/-- A function that was written in pairs still has them in the heap, since its code does not
change. -/
theorem PairedFunction.pairs {h : Heap} {σ : List Event} {f : FunctionHandle} {o : FunctionObject}
    (hf : PairedFunction h σ f) (hclosed : h.Closed [.function f])
    (ho : h.functions.get? f.index = some o) : h.Pairs o := by
  obtain ⟨o', w, is, ho', hw, ⟨harity, hsettled, hcode, -⟩, hbytes, -, hpaired⟩ := hf
  obtain rfl : o' = o := Option.some.inj (ho'.symm.trans ho)
  rw [Pairs, hpaired]
  exact Listing.made_eq hw (hclosed.constants ho)
    (BodyCode.intro harity hsettled hcode).valid hbytes

/-- The functions among some values stand at their indices. -/
theorem Value.forall₂_functions (vs : List Value) :
    List.Forall₂ (fun i f => vs[i]? = some (.function f)) (functionIndices vs) (functions vs) := by
  induction vs using List.reverseRecOn with
  | nil => exact .nil
  | append_singleton vs v ih =>
      have hold : List.Forall₂ (fun i f => (vs ++ [v])[i]? = some (.function f))
          (functionIndices vs) (functions vs) := ih.imp fun i f hi => by
        rw [List.getElem?_append_left (List.getElem?_eq_some_iff.mp hi).1]
        exact hi
      rw [functionIndices_concat, functions, List.filterMap_append]
      refine List.rel_append hold ?_
      cases v with
      | function f => exact .cons (by simp) .nil
      | nil | bool | number | string => exact .nil

section

variable {w : World} {h : Heap} {o : FunctionObject} {Γ Γ' : Scope} {is : List Item} {p : Place}

/-- An item makes a closure of a function that declares a body at a place. -/
def DeclaredBy (w : World) (q : Place × Stmt) (made : UInt8 × List UInt8) : Prop :=
  ∃ f callee, w.constants[made.1.toNat]? = some (.function f) ∧
    w.heap.functions.get? f.index = some callee ∧ w.heap.Declares callee q.1 q.2

/-- The functions that closures are made of declare what the closures do. -/
theorem forall₂_declares {qs : List (Place × Stmt)} {made : List (UInt8 × List UInt8)}
    {fs : List FunctionHandle} (hmade : List.Forall₂ (DeclaredBy w) qs made)
    (hfs : List.Forall₂ (fun i f => w.constants[i]? = some (.function f))
      (made.map fun closure => closure.1.toNat) fs) :
    List.Forall₂ (fun f q => ∃ callee, w.heap.functions.get? f.index = some callee ∧
      w.heap.Declares callee q.1 q.2) fs qs := by
  induction hmade generalizing fs with
  | nil =>
      cases hfs
      exact .nil
  | cons hfirst _ ih =>
      obtain ⟨f, callee, hf, hget, hdeclares⟩ := hfirst
      cases hfs with
      | cons hf' hrest =>
          cases hf.symm.trans hf'
          exact .cons ⟨callee, hget, hdeclares⟩ (ih hrest)

/-- A function declares a body when its code does and pairs closures with function constants. -/
theorem declares_of_code {body : Stmt} (hw : w.Describes h o)
    (hclosed : h.Closed o.chunk.constants.toList) (hcode : StmtCode w Γ body is Γ')
    (hframe : Γ.frame = p.frame)
    (hbytes : o.chunk.code.toList = Item.code (is ++ [Γ'.op .nil [], Γ'.op .ret []]))
    (hpairs : h.Pairs o) (hnested : List.Forall₂ (DeclaredBy w) (body.nested p) (Item.closures is)) :
    h.Declares o p body := by
  have hvalid : ∀ i ∈ is ++ [Γ'.op .nil [], Γ'.op .ret []], i.Valid w :=
    List.forall_mem_append.mpr ⟨hcode.valid, List.forall_mem_cons.mpr
      ⟨.plain _ rfl, List.forall_mem_singleton.mpr (.plain _ rfl)⟩⟩
  have hindices : Value.functionIndices o.chunk.constants.toList =
      (Item.closures is).map fun closure => closure.1.toNat := by
    rw [← hpairs, Listing.made_eq hw hclosed hvalid hbytes]
    simp [Item.made]
  have hfunctions := Value.forall₂_functions o.chunk.constants.toList
  rw [hindices, ← hw.constants] at hfunctions
  have hall := forall₂_declares hnested hfunctions
  rw [hw.heap, hw.constants] at hall
  refine .intro hw hframe hcode hbytes hall.length_eq fun i f callee q hf hcallee hq => ?_
  obtain ⟨hi, rfl⟩ := List.getElem?_eq_some_iff.mp hf
  obtain ⟨hj, rfl⟩ := List.getElem?_eq_some_iff.mp hq
  obtain ⟨callee', hcallee', hdeclares⟩ := hall.get hi hj
  obtain rfl : callee' = callee := Option.some.inj (hcallee'.symm.trans hcallee)
  exact hdeclares

/-- Every function that some constants reach pairs its closures with its function constants. -/
def World.Paired (w : World) : Prop :=
  ∀ f o, w.heap.Reach w.constants (.function f) → w.heap.functions.get? f.index = some o →
    w.heap.Pairs o

/-- A closure is made of a function that declares the body which its code is that of. -/
theorem World.MakesClosure.declaredBy {Γ₁ : Scope} {callee : FunctionObject} {k : UInt8}
    {captures : List Capture} {pairs : List UInt8} {parameters : List String} {body : Stmt}
    (hmakes : w.MakesClosure Γ callee k captures pairs) (hclosed : w.heap.Closed w.constants)
    (hpaired : w.Paired)
    (hcode : StmtCode (w.inside Γ callee captures) (.ofParameters parameters) body is Γ₁)
    (hbytes : callee.chunk.code.toList = Item.code (is ++ [Γ₁.op .nil [], Γ₁.op .ret []]))
    (hnested : (w.inside Γ callee captures).heap.Closed (w.inside Γ callee captures).constants →
      (w.inside Γ callee captures).Paired →
        List.Forall₂ (DeclaredBy (w.inside Γ callee captures))
          (body.nested (p.inside parameters)) (Item.closures is)) :
    DeclaredBy w (p.inside parameters, body) (k, pairs) := by
  obtain ⟨⟨f, hf, hcallee⟩, hcount, -⟩ := hmakes
  have hroot : w.heap.Reach w.constants (.function f) := .root (List.mem_of_getElem? hf)
  have hinner : w.heap.Closed callee.chunk.constants.toList := by
    refine (hclosed.of_subset fun v hv => ?_ : w.heap.Closed [.function f]).constants hcallee
    obtain rfl := List.mem_singleton.mp hv
    exact hroot
  have hpairedInner : (w.inside Γ callee captures).Paired := by
    intro g o hg ho
    refine hpaired g o ?_ ho
    refine (reach_function_of_constants hcallee hg rfl).trans fun v hv => ?_
    obtain rfl := List.mem_singleton.mp hv
    exact hroot
  refine ⟨f, callee, hf, hcallee, declares_of_code (w := w.inside Γ callee captures)
    ⟨rfl, rfl, hcount.symm⟩ hinner hcode ?_ hbytes (hpaired f callee hroot hcallee)
    (hnested hinner hpairedInner)⟩
  exact Scope.frame_ofParameters parameters

/-- The functions that a statement declares are those that the closures in its code are made
of. -/
theorem StmtCode.declaredBy {st : Stmt} (hc : StmtCode w Γ st is Γ')
    (hclosed : w.heap.Closed w.constants) (hpaired : w.Paired) :
    List.Forall₂ (DeclaredBy w) (st.nested p) (Item.closures is) := by
  induction hc generalizing p with
  | skip => exact .nil
  | seq _ _ ihFirst ihSecond =>
      rw [Stmt.nested, Item.closures_append]
      exact List.rel_append (ihFirst hclosed hpaired) (ihSecond hclosed hpaired)
  | marked _ _ ih => simpa using ih hclosed hpaired
  | expression he | print he => simp [Stmt.nested, he.closures]
  | del hr =>
      rw [Scope.closures_op_cons _ hr.ne_closure.1, Scope.closures_op_cons _ (by decide)]
      exact .nil
  | ret hv => simp [Stmt.nested, hv.closures]
  | branch hc _ _ _ _ _ _ ihYes ihNo =>
      have hrest := List.rel_append (ihYes (p := p) hclosed hpaired) (ihNo (p := p) hclosed hpaired)
      simpa [Stmt.nested, hc.closures, Scope.jump, Scope.closures_op_cons] using hrest
  | whileLoop hc _ _ _ ih =>
      rw [Stmt.nested, Item.closures_items]
      simpa [hc.closures] using ih hclosed hpaired
  | forLoop _ hc hstep _ _ _ ihFirst ihBody =>
      rw [Stmt.nested, Item.closures_append, Scope.closures_pops, List.append_nil,
        Item.closures_append, Item.closures_items, hc.closures, hstep.closures]
      exact List.rel_append (ihFirst hclosed hpaired) (ihBody hclosed hpaired)
  | block _ ih => simpa [Stmt.nested] using ih hclosed hpaired
  | varGlobal _ _ hv => simp [Stmt.nested, hv.closures, Scope.closures_op_cons]
  | varLocal _ _ hv => simp [Stmt.nested, hv.closures]
  | classGlobal | classLocal => exact .nil
  | funGlobal _ _ _ hmakes _ hcode ih | funLocal _ _ _ hmakes _ hcode ih =>
      exact .cons (hmakes.declaredBy hclosed hpaired ‹_› hcode ih) .nil

end

/-! ### Counting -/

/-- Functions that declare bodies take a slot each, and one for each function in these bodies. -/
theorem Numbered.eq_of_declares {h : Heap} {o : FunctionObject} {p : Place} {body : Stmt}
    (hd : h.Declares o p body) {n m : Nat} (hs : Numbered h.functions n (Listing.nested o) m) :
    m = n + body.functionCount := by
  induction hd generalizing n m with
  | @intro o p body w Γ Γ' is _ _ _ _ hlength _ ih =>
      rw [Stmt.functionCount_eq_sum p]
      generalize body.nested p = qs at hlength ih
      generalize Listing.nested o = fs at hlength ih hs
      generalize h.functions = a at hs ih
      induction hs generalizing qs with
      | nil n =>
          rw [List.length_nil] at hlength
          rw [List.eq_nil_of_length_eq_zero hlength.symm]
          rfl
      | @cons n k m o fs hget hinner hrest _ ihRest =>
          rcases qs with - | ⟨q, qs⟩
          · cases hlength
          · have hfirst : k = n + 1 + q.2.functionCount := ih 0 ⟨n⟩ o q rfl hget rfl hinner
            have hothers := ihRest qs (Nat.succ.inj hlength) fun i f callee q hf hc hq =>
              ih (i + 1) f callee q hf hc hq
            rw [List.map_cons, List.sum_cons]
            omega

end LoxBytecode
