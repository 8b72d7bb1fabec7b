import Mathlib
import LoxBytecode.Proofs.Code.References
import LoxBytecode.Proofs.Compile.Listing
import LoxBytecode.Proofs.Syntax.Unique

/-!
# References to Variables

What lexical scoping makes of a name is what the compiled code does with it. The code of a
function is taken apart as its listing shows it: the instructions that read and write variables
(`Listing.accesses`), and the closures that it makes with the captures of each
(`Listing.closures`). A function is `Scoped` when its accesses are, one by one, those that the
references in its body ask for, and when the functions nested in it are scoped too. The captures
of a function are found where its closure is made, so that following them from function to
function is following what happens when the program runs.

The script of every source that compiles is scoped (`compile_scoped`).
-/

namespace LoxBytecode

open Heap

/-! ### Code taken apart -/

namespace Listing

/-- The offsets of the instructions of a chunk. -/
def offsets (h : Heap) (c : Chunk) : List Nat :=
  match instructions h c with
  | .ok lines => (0 :: lines.map Prod.snd).dropLast
  | .error _ => []

/-- An instruction that reads or writes a variable: its opcode and operand. -/
def access? (op : Opcode) : Operand → Option (Opcode × Nat)
  | .byte b => if op.isAccess then some (op, b.toNat) else none
  | .constant i => if op.isAccess then some (op, i) else none
  | .none | .ahead _ | .back _ | .captures _ => none

/-- The instruction at an offset, if it reads or writes a variable. -/
def accessAt? (c : Chunk) (offset : Nat) : Option (Opcode × Nat) :=
  match c.decode offset with
  | .ok (.instruction op operand _) => access? op operand
  | _ => none

/-- The instructions of a chunk that read or write a variable. -/
def accesses (h : Heap) (c : Chunk) : List (Opcode × Nat) :=
  (offsets h c).filterMap (accessAt? c)

/-- The captures in some pairs of bytes. -/
def capturesAt? (c : Chunk) : Nat → Nat → Option (List Capture)
  | 0, _ => some []
  | count + 1, offset => do
    let kind ← c.code[offset]?
    let index ← c.code[offset + 1]?
    let rest ← capturesAt? c count (offset + 2)
    return ⟨kind = 1, index.toNat⟩ :: rest

/-- The instruction at an offset, if it makes a closure: the function and its captures. -/
def closureAt? (h : Heap) (c : Chunk) (offset : Nat) : Option (FunctionObject × List Capture) :=
  match c.decode offset with
  | .ok (.instruction .closure (.captures k) behind) => do
    let f ← c.constants[k]?.bind Value.function?
    let o ← h.functions.get? f.index
    let captures ← capturesAt? c o.upvalueCount behind
    return (o, captures)
  | _ => none

/-- The closures that the instructions of a chunk make. -/
def closures (h : Heap) (c : Chunk) : List (FunctionObject × List Capture) :=
  (offsets h c).filterMap (closureAt? h c)

end Listing

/-- In the code of a function, variables are read and written as lexical scoping asks for, given
the captures of the function and of those around it. The function is declared at a place with a
body, and those that its body declares are scoped as well. -/
inductive Scoped (h : Heap) : List (List Capture) → FunctionObject → Place → Stmt → Prop
  | intro {tables : List (List Capture)} {o : FunctionObject} {p : Place} {body : Stmt} :
      List.Forall₂ (Reference.IsMetBy ⟨o.chunk.constants.toList, h, tables, p.around⟩)
        (body.references p) (Listing.accesses h o.chunk) →
      (body.nested p).length = (Listing.closures h o.chunk).length →
      (∀ (i : Nat) (q : Place × Stmt) (callee : FunctionObject) (captures : List Capture),
        (body.nested p)[i]? = some q →
          (Listing.closures h o.chunk)[i]? = some (callee, captures) →
            Scoped h (captures :: tables) callee q.1 q.2) →
      Scoped h tables o p body

/-! ### From items to listings -/

/-- The offsets of the instructions among some items. -/
def Item.offsets : Nat → List Item → List Nat
  | _, [] => []
  | pc, .instr _ operands _ :: is => pc :: offsets (pc + 1 + operands.length) is
  | pc, .mark .. :: is => offsets pc is

section

variable {w : World} {h : Heap} {o : FunctionObject} {pc : Nat} {is : List Item}

/-- The writes of some items are at their offsets. -/
theorem Item.offsets_eq (f : FunctionHandle) (hvalid : ∀ i ∈ is, i.Valid w) :
    ((Item.events f pc is).filter fun e => e.happening = .writes).map Event.offset =
      Item.offsets pc is := by
  induction is generalizing pc with
  | nil => rfl
  | cons i is ih =>
      obtain ⟨hi, his⟩ := List.forall_mem_cons.mp hvalid
      cases i with
      | instr op operands n => simp [Item.events, Item.offsets, ih his]
      | mark happening n =>
          cases hi with
          | mark _ hne => simp [Item.events, Item.offsets, ih his, hne]

/-- The listing of code that was written goes through the offsets of its instructions. -/
theorem Listing.offsets_eq (hw : w.Describes h o) (hclosed : h.Closed o.chunk.constants.toList)
    (hvalid : ∀ i ∈ is, i.Valid w) (hcode : o.chunk.code.toList = Item.code is) :
    Listing.offsets h o.chunk = Item.offsets 0 is := by
  have hsize : 0 + Item.size is = o.chunk.size := by
    rw [Nat.zero_add, Item.size, ← hcode]
    rfl
  obtain ⟨lines, hlines, hoffsets⟩ := @Listing.instructionsFrom_isOk w h o hw hclosed ⟨0⟩ is 0
    o.chunk.size [] hvalid (.of_eq hcode) hsize (Nat.le_of_eq ((Nat.zero_add _).symm.trans hsize))
  rw [Item.offsets_eq _ hvalid] at hoffsets
  rw [Listing.offsets, Listing.instructions, hlines]
  show (0 :: lines.map Prod.snd).dropLast = _
  rw [hoffsets, List.dropLast_concat]

/-- A valid instruction is found again as what it is, an access or none. -/
theorem Item.Valid.accessAt {op : Opcode} {operands : List UInt8} {n : Nat}
    (hvalid : Item.Valid w (.instr op operands n))
    (hholds : o.chunk.Holds pc (.instr op operands n :: is)) :
    Listing.accessAt? o.chunk pc = Item.access? (.instr op operands n) := by
  suffices hencoded : ∃ operand, Operand.Encoded op.format operands operand ∧
      Listing.access? op operand = Item.access? (.instr op operands n) by
    obtain ⟨operand, hoperand, hfound⟩ := hencoded
    rw [Listing.accessAt?, hholds.decode hoperand]
    exact hfound
  cases hvalid with
  | plain _ hformat => exact ⟨.none, hformat ▸ .none [], rfl⟩
  | @byte _ b _ hformat => exact ⟨.byte b, hformat ▸ .byte b _, rfl⟩
  | @named _ b _ _ hformat => exact ⟨.constant b.toNat, hformat ▸ .constant b _, rfl⟩
  | load _ hload hlt =>
      obtain ⟨-, -, hencoded⟩ := encoded_loadOf hload hlt
      refine ⟨_, hencoded, ?_⟩
      rw [Chunk.loadOf] at hload
      split at hload <;> cases hload <;> rfl
  | ahead _ hformat hd => exact ⟨_, hformat ▸ (encoded_bytesOf16 hd).1, rfl⟩
  | back _ hd => exact ⟨_, (encoded_bytesOf16 hd).2, rfl⟩
  | @closure _ _ _ _ pairs =>
      refine ⟨_, .captures _ _, ?_⟩
      cases pairs <;> rfl

/-- Reading the code at each offset of its items finds the accesses of the items, in order. -/
theorem Item.filterMap_accessAt (hvalid : ∀ i ∈ is, i.Valid w) (hholds : o.chunk.Holds pc is) :
    (Item.offsets pc is).filterMap (Listing.accessAt? o.chunk) = Item.accesses is := by
  induction is generalizing pc with
  | nil => rfl
  | cons i is ih =>
      obtain ⟨hi, his⟩ := List.forall_mem_cons.mp hvalid
      cases i with
      | instr op operands n =>
          rw [Item.offsets, Item.accesses, List.filterMap_cons, List.filterMap_cons,
            hi.accessAt hholds, ih his hholds.of_instr]
          rfl
      | mark happening n => exact ih his hholds

/-! ### Closures -/

namespace Item

/-- The closures of a loop are those of its condition, of its step and of its body. -/
theorem closures_items (p : LoopParts) : closures p.items =
    closures (p.condition.getD []) ++ (closures (p.step.getD []) ++ closures p.body) := by
  have hjump : ∀ (op : Opcode) (skipped is : List Item), op ≠ .closure →
      closures (p.before.jump op skipped :: is) = closures is :=
    fun op skipped is hop => p.before.closures_op_cons hop _ is
  obtain ⟨before, after, condition, step, body⟩ := p
  cases condition <;> cases step <;>
    simp [LoopParts.items, LoopParts.inner, LoopParts.stepPart, LoopParts.stepCode, hjump]

end Item

/-- Captures are read back from the bytes that they were written as. -/
theorem Listing.capturesAt?_eq {c : Chunk} {captures : List Capture} {pairs : List UInt8}
    (hpairs : CompileM.captureBytes captures = .ok pairs)
    (hbytes : ∀ i b, pairs[i]? = some b → c.code[pc + i]? = some b) :
    Listing.capturesAt? c captures.length pc = some captures := by
  induction captures generalizing pc pairs with
  | nil => rfl
  | cons capture captures ih =>
      obtain ⟨b, hb, hrest⟩ := bind_eq_ok.mp hpairs
      obtain ⟨bs, hbs, heq⟩ := bind_eq_ok.mp hrest
      cases heq
      have hindex : b.toNat = capture.index := toNat_of_narrow hb
      have htail := @ih (pc + 2) bs hbs fun i b' hb' => by
        have hnext := hbytes (i + 2) b' hb'
        rwa [show pc + (i + 2) = pc + 2 + i by omega] at hnext
      have hkind := hbytes 0 _ rfl
      rw [Nat.add_zero] at hkind
      rw [List.length_cons, Listing.capturesAt?, hkind, hbytes 1 _ rfl, htail]
      obtain ⟨isLocal, index⟩ := capture
      cases isLocal <;> simp_all

/-- A closure is found where it was written. -/
theorem World.MakesClosure.closureAt {Γ : Scope} {callee : FunctionObject} {k : UInt8}
    {captures : List Capture} {pairs : List UInt8} {n : Nat} (hw : w.Describes h o)
    (hmakes : w.MakesClosure Γ callee k captures pairs)
    (hholds : o.chunk.Holds pc (.instr .closure (k :: pairs) n :: is)) :
    Listing.closureAt? h o.chunk pc = some (callee, captures) := by
  obtain ⟨⟨f, hf, hcallee⟩, hcount, hpairs, -⟩ := hmakes
  rw [hw.constants, Array.getElem?_toList] at hf
  rw [hw.heap] at hcallee
  have hcaptures : Listing.capturesAt? o.chunk captures.length (pc + 2) = some captures :=
    Listing.capturesAt?_eq hpairs fun i b hb => by
      have hbyte := hholds.getElem?_operand (i := i + 1) hb
      rwa [show pc + 1 + (i + 1) = pc + 2 + i by omega] at hbyte
  have hdecode := hholds.decode (.captures k pairs)
  rw [← hcount] at hcaptures
  simp only [Listing.closureAt?, hdecode, hf, Option.bind_some, Value.function?, bind, hcallee]
  show (Listing.capturesAt? o.chunk callee.upvalueCount (pc + 2)).bind _ = _
  rw [hcaptures]
  rfl

/-- An item that makes a closure of a function that is scoped. -/
def ScopedBy (w : World) (q : Place × Stmt) (made : UInt8 × List UInt8) : Prop :=
  ∃ Γ callee captures, w.MakesClosure Γ callee made.1 captures made.2 ∧
    Scoped w.heap (captures :: w.tables) callee q.1 q.2

/-- What is no closure is not found as one. -/
theorem Item.Valid.closureAt_eq_none {op : Opcode} {operands : List UInt8} {n : Nat}
    (hw : w.Describes h o) (hvalid : Item.Valid w (.instr op operands n))
    (hholds : o.chunk.Holds pc (.instr op operands n :: is))
    (hnone : Item.closure? (.instr op operands n) = none) :
    Listing.closureAt? h o.chunk pc = none := by
  have hop : op ≠ .closure := by
    rintro rfl
    cases hvalid with
    | closure => cases hnone
    | load _ hload => simp [Chunk.loadOf, apply_ite] at hload
    | plain _ hformat | byte _ hformat | named _ hformat | ahead _ hformat => cases hformat
  obtain ⟨operand, hdecode, -⟩ := hvalid.refers hw hholds
  rw [Listing.closureAt?, hdecode]
  split
  next heq =>
    cases heq
    exact absurd rfl hop
  next => rfl

/-- Reading the code at each offset of its items finds the functions that its closures make. -/
theorem Item.filterMap_closureAt (hw : w.Describes h o) (hvalid : ∀ i ∈ is, i.Valid w)
    (hholds : o.chunk.Holds pc is) {qs : List (Place × Stmt)}
    (hscoped : List.Forall₂ (ScopedBy w) qs (Item.closures is)) :
    List.Forall₂ (fun q made => Scoped h (made.2 :: w.tables) made.1 q.1 q.2) qs
      ((Item.offsets pc is).filterMap (Listing.closureAt? h o.chunk)) := by
  induction is generalizing pc qs with
  | nil =>
      obtain rfl := List.forall₂_nil_right_iff.mp hscoped
      exact .nil
  | cons i is ih =>
      obtain ⟨hi, his⟩ := List.forall_mem_cons.mp hvalid
      cases i with
      | mark happening n => exact ih his hholds hscoped
      | instr op operands n =>
          rw [Item.offsets]
          cases hfound : Item.closure? (.instr op operands n) with
          | none =>
              rw [Item.closures, List.filterMap_cons_none hfound] at hscoped
              rw [List.filterMap_cons_none (hi.closureAt_eq_none hw hholds hfound)]
              exact ih his hholds.of_instr hscoped
          | some made =>
              rw [Item.closures, List.filterMap_cons_some hfound] at hscoped
              cases hscoped with
              | @cons q _ qs _ hmade hrest =>
                obtain ⟨Γ, callee, captures, hmakes, hcallee⟩ := hmade
                obtain ⟨rfl, rfl⟩ : op = .closure ∧ operands = made.1 :: made.2 := by
                  unfold Item.closure? at hfound
                  split at hfound <;> cases hfound
                  rename_i heq
                  cases heq
                  exact ⟨rfl, rfl⟩
                rw [List.filterMap_cons_some (hmakes.closureAt hw hholds)]
                exact .cons (hw.heap ▸ hcallee) (ih his hholds.of_instr hrest)

/-! ### Functions -/

/-- A function is scoped when its items are. -/
theorem scoped_of_code {p : Place} {body : Stmt} {Γ Γ' : Scope} (hw : w.Describes h o)
    (hclosed : h.Closed o.chunk.constants.toList) (hcode : StmtCode w Γ body is Γ')
    (hs : Γ.Settled) (hsees : w.Sees Γ p)
    (hbytes : o.chunk.code.toList = Item.code (is ++ [Γ'.op .nil [], Γ'.op .ret []]))
    (hnested : List.Forall₂ (ScopedBy w) (body.nested p) (Item.closures is)) :
    Scoped h w.tables o p body := by
  have hvalid : ∀ i ∈ is ++ [Γ'.op .nil [], Γ'.op .ret []], i.Valid w :=
    List.forall_mem_append.mpr ⟨hcode.valid, List.forall_mem_cons.mpr
      ⟨.plain _ rfl, List.forall_mem_singleton.mpr (.plain _ rfl)⟩⟩
  have hholds : o.chunk.Holds 0 (is ++ [Γ'.op .nil [], Γ'.op .ret []]) := .of_eq hbytes
  have hoffsets := Listing.offsets_eq hw hclosed hvalid hbytes
  have hclosures : List.Forall₂ (fun q made => Scoped h (made.2 :: w.tables) made.1 q.1 q.2)
      (body.nested p) (Listing.closures h o.chunk) := by
    rw [Listing.closures, hoffsets]
    refine Item.filterMap_closureAt hw hvalid hholds ?_
    rwa [Item.closures_append, Scope.closures_op_cons _ (by decide),
      Scope.closures_op_cons _ (by decide), Item.closures_nil, List.append_nil]
  have hworld : w = ⟨o.chunk.constants.toList, h, w.tables, p.around⟩ := by
    obtain ⟨constants, heap, tables, around⟩ := w
    obtain ⟨rfl, rfl, -⟩ := hw
    rw [hsees.around]
  refine .intro ?_ hclosures.length_eq fun i q callee captures hq hmade => ?_
  · rw [← hworld, Listing.accesses, hoffsets, Item.filterMap_accessAt hvalid hholds,
      Item.accesses_append]
    exact (List.append_nil (Item.accesses is)).symm ▸ hcode.meets hs hsees
  · obtain ⟨hi, rfl⟩ := List.getElem?_eq_some_iff.mp hq
    obtain ⟨hi', hmade⟩ := List.getElem?_eq_some_iff.mp hmade
    have hget := hclosures.get hi hi'
    rw [List.get_eq_getElem, List.get_eq_getElem, hmade] at hget
    exact hget

end

/-! ### Nested functions -/

section

variable {w : World} {Γ Γ' : Scope} {p : Place}

/-- Expressions make no closures. -/
theorem ExprCode.closures {es : List Expr} {is : List Item} (hc : ExprCode w Γ es is) :
    Item.closures is = [] := by
  induction hc with
  | nil => rfl
  | cons _ _ ihHead ihTail => simp [ihHead, ihTail]
  | literal l => cases l <;> rfl
  | number hload | string hload =>
      refine Scope.closures_op_cons _ ?_ _ _
      rintro rfl
      simp [Chunk.loadOf, apply_ite] at hload
  | «variable» hr => exact Scope.closures_op_cons _ hr.ne_closure.1 _ _
  | assign hr _ ih =>
      rw [Item.closures_append, ih, Scope.closures_op_cons _ hr.ne_closure.2]
      rfl
  | unary _ ih => simp [ih]
  | @binary o _ _ _ _ _ _ ihLeft ihRight =>
      have hcode : Item.closures (o.code.map (Γ.op · [])) = [] := by cases o <;> rfl
      simp [ihLeft, ihRight, hcode]
  | and _ _ _ ihLeft ihRight | or _ _ _ ihLeft ihRight =>
      simp [ihLeft, ihRight, Scope.jump, Scope.closures_op_cons]
  | call _ _ _ ihLeft ihRight | set _ _ _ ihLeft ihRight =>
      simp [ihLeft, ihRight, Scope.closures_op_cons]
  | get _ _ ih => simp [ih, Scope.closures_op_cons]

/-- The value of a declaration makes no function. -/
theorem ValueCode.closures {value : Option Expr} {is : List Item} (hc : ValueCode w Γ value is) :
    Item.closures is = [] := by
  cases hc with
  | none => rfl
  | some hc => exact hc.closures

/-- A clause makes no function. -/
theorem OptionCode.closures {e : Option Expr} {is : Option (List Item)}
    (hc : OptionCode w Γ e is) : Item.closures (is.getD []) = [] := by
  cases hc with
  | none => rfl
  | some hc => exact hc.closures

/-- A function is scoped by the closure that makes it, when those in its body are. -/
theorem World.MakesClosure.scopedBy {Γ₁ : Scope} {callee : FunctionObject} {k : UInt8}
    {captures : List Capture} {pairs : List UInt8} {parameters : List String} {body : Stmt}
    {is : List Item} (hmakes : w.MakesClosure Γ callee k captures pairs) (h : w.Sees Γ p)
    (hclosed : w.heap.Closed w.constants)
    (hcode : StmtCode (w.inside Γ callee captures) (.ofParameters parameters) body is Γ₁)
    (hbytes : callee.chunk.code.toList = Item.code (is ++ [Γ₁.op .nil [], Γ₁.op .ret []]))
    (hnested : w.heap.Closed callee.chunk.constants.toList →
      List.Forall₂ (ScopedBy (w.inside Γ callee captures)) (body.nested (p.inside parameters))
        (Item.closures is)) : ScopedBy w (p.inside parameters, body) (k, pairs) := by
  have hinner : w.heap.Closed callee.chunk.constants.toList := by
    obtain ⟨⟨f, hf, hcallee⟩, -⟩ := hmakes
    refine (hclosed.of_subset fun v hv => ?_ : w.heap.Closed [.function f]).constants hcallee
    obtain rfl := List.mem_singleton.mp hv
    exact .root (List.mem_of_getElem? hf)
  refine ⟨Γ, callee, captures, hmakes, scoped_of_code (w := w.inside Γ callee captures)
    ⟨rfl, rfl, hmakes.count.symm⟩ hinner hcode (Scope.settled_ofParameters _)
    (h.inside callee captures parameters) hbytes (hnested hinner)⟩

/-- The functions that a statement declares are scoped by the closures in its code. -/
theorem StmtCode.scopedBy {st : Stmt} {is : List Item} (hc : StmtCode w Γ st is Γ')
    (hs : Γ.Settled) (h : w.Sees Γ p) (hclosed : w.heap.Closed w.constants) :
    List.Forall₂ (ScopedBy w) (st.nested p) (Item.closures is) := by
  induction hc generalizing p with
  | skip => exact .nil
  | seq hfirst _ ihFirst ihSecond =>
      rw [Stmt.nested, Item.closures_append]
      exact List.rel_append (ihFirst hs h hclosed)
        (ihSecond ((hfirst.extends hs).settled hs) (hfirst.sees hs h) hclosed)
  | marked _ _ ih => simpa using ih hs h hclosed
  | expression he | print he => simp [Stmt.nested, he.closures]
  | del hr =>
      rw [Scope.closures_op_cons _ hr.ne_closure.1, Scope.closures_op_cons _ (by decide)]
      exact .nil
  | ret hv => simp [Stmt.nested, hv.closures]
  | branch hc _ _ hyes _ _ _ ihYes ihNo =>
      have hrest := List.rel_append (ihYes hs h hclosed)
        (ihNo (hs.of_same hyes) (h.of_same hyes) hclosed)
      simpa [Stmt.nested, hc.closures, Scope.jump, Scope.closures_op_cons] using hrest
  | whileLoop hc _ _ _ ih =>
      rw [Stmt.nested, Item.closures_items]
      simpa [hc.closures] using ih hs h hclosed
  | forLoop hfirst hc hstep _ _ _ ihFirst ihBody =>
      rw [Stmt.nested, Item.closures_append, Scope.closures_pops, List.append_nil,
        Item.closures_append, Item.closures_items, hc.closures, hstep.closures]
      exact List.rel_append (ihFirst hs.enter h.enter hclosed)
        (ihBody ((hfirst.extends hs.enter).settled hs.enter) (hfirst.sees hs.enter h.enter) hclosed)
  | block _ ih => simpa [Stmt.nested] using ih hs.enter h.enter hclosed
  | varGlobal _ _ hv => simp [Stmt.nested, hv.closures, Scope.closures_op_cons]
  | varLocal _ _ hv => simp [Stmt.nested, hv.closures]
  | classGlobal | classLocal => exact .nil
  | funGlobal hdepth _ hsame hmakes _ hcode ih =>
      rw [Stmt.nested, h.declare_of_depth_eq_zero hdepth]
      refine .cons (hmakes.scopedBy (h.of_same hsame) hclosed ‹_› hcode fun hinner => ?_) .nil
      exact ih (Scope.settled_ofParameters _) ((h.of_same hsame).inside _ _ _) hinner
  | funLocal hdepth _ hsame hmakes _ hcode ih =>
      have hsees := (h.declare hdepth _).of_same hsame
      refine .cons (hmakes.scopedBy hsees hclosed ‹_› hcode fun hinner => ?_) .nil
      exact ih (Scope.settled_ofParameters _) (hsees.inside _ _ _) hinner

end

/-! ### Sources -/

/-- A source that compiles is read as one program, and the variables of its script, and of the
functions nested in it, are scoped as in that program. -/
theorem compile_scoped (source : String) {h : Heap} {host : List Value}
    (hreachable : h.Reachable) {c : Compilation} {script : FunctionHandle}
    (hc : compile source h host = .ok c) (hok : c.outcome = .ok script) :
    ∃ program o,
      (∀ p, ReadsStmt .program (TokenStream.program source) p [] ↔ p = program) ∧
      c.heap.functions.get? script.index = some o ∧ Scoped c.heap [[]] o .script program := by
  obtain ⟨⟨o, program, is, Γ, hprogram⟩, -⟩ := compile_translates hreachable.wf hc hok
  have hclosed : c.heap.Closed o.chunk.constants.toList :=
    (compile_closed hreachable.wf hc hok).constants hprogram.object
  have hsees : (World.ofScript c.heap o).Sees ⟨[FunctionState.reserved], 0⟩ .script :=
    ⟨rfl, rfl, by simp [Place.script]⟩
  refine ⟨program, o, fun p => ⟨fun hp => (hp.unique hprogram.reads).1, ?_⟩, hprogram.object, ?_⟩
  · rintro rfl
    exact hprogram.reads
  · exact scoped_of_code (w := .ofScript c.heap o) ⟨rfl, rfl, hprogram.upvalues.symm⟩ hclosed
      hprogram.code settled_script hsees hprogram.bytes
      (hprogram.code.scopedBy settled_script hsees hclosed)

/-- Scoping in a script whose innermost function assigns to a variable two functions further out,
from one that a block shadows. -/
theorem compile_scoped_nested :
    ∃ c script program o, compile
        "fun f(a) { { var a = g; } fun h() { fun k() { a = h; } } }"
        (ofConfig ⟨true, 0, 2⟩) [] = .ok c ∧ c.outcome = .ok script ∧
      (∀ p, ReadsStmt .program (TokenStream.program
        "fun f(a) { { var a = g; } fun h() { fun k() { a = h; } } }") p [] ↔ p = program) ∧
      c.heap.functions.get? script.index = some o ∧ Scoped c.heap [[]] o .script program := by
  have hrun : (compile "fun f(a) { { var a = g; } fun h() { fun k() { a = h; } } }"
      (ofConfig ⟨true, 0, 2⟩) []).map (·.outcome.toOption) = .ok (some ⟨0⟩) := by
    cbv
  obtain ⟨c, hc, hok⟩ := exists_of_script_eq hrun
  obtain ⟨program, o, hscoped⟩ := compile_scoped
    "fun f(a) { { var a = g; } fun h() { fun k() { a = h; } } }" (.ofConfig ⟨true, 0, 2⟩) hc hok
  exact ⟨c, ⟨0⟩, program, o, hc, hok, hscoped⟩

end LoxBytecode
