import Mathlib
import LoxBytecode.Proofs.Chunk.Listing
import LoxBytecode.Proofs.Code.Decoding
import LoxBytecode.Proofs.Compile.Source

/-!
# Listing Compiled Code

Writing and reading code are separate: the compiler writes operands of various widths from many
places, and the listing finds its way through the bytes by the opcodes alone, except that the
captures of a closure are counted in another object. Here the two meet: the listing of every
compiled function goes through exactly the instructions that were written (`compile_listed`).
-/

namespace LoxBytecode

open Heap

/-! ### Captures -/

/-- The bytes of some captures are a pair for each. -/
theorem CompileM.captureBytes_spec {captures : List Capture} {pairs : List UInt8}
    (h : captureBytes captures = .ok pairs) :
    pairs.length = 2 * captures.length ∧ ∀ j c, captures[j]? = some c →
      ∃ b, pairs[2 * j]? = some (if c.isLocal then 1 else 0) ∧ pairs[2 * j + 1]? = some b ∧
        b.toNat = c.index := by
  induction captures generalizing pairs with
  | nil =>
      cases h
      exact ⟨rfl, by simp⟩
  | cons c cs ih =>
      obtain ⟨b, hb, h⟩ := bind_eq_ok.mp h
      obtain ⟨bs, hbs, h⟩ := bind_eq_ok.mp h
      cases h
      obtain ⟨hlength, hpairs⟩ := ih hbs
      refine ⟨?_, fun j c' hc' => ?_⟩
      · simp only [List.length_cons, hlength]
        omega
      · cases j with
        | zero =>
            cases hc'
            exact ⟨b, rfl, rfl, toNat_of_narrow hb⟩
        | succ j => exact hpairs j c' hc'

/-- Captures that lie inside the code are listed. -/
theorem Listing.captures_isOk {c : Chunk} {count offset : Nat}
    (h : ∀ j < count, offset + 2 * j + 1 < c.size) :
    ∃ text, Listing.captures c count offset = .ok (text, offset + 2 * count) := by
  induction count generalizing offset with
  | zero => exact ⟨"", rfl⟩
  | succ count ih =>
      have hfirst := h 0 (Nat.succ_pos count)
      obtain ⟨rest, hrest⟩ := @ih (offset + 2) fun j hj => by
        have hnext := h (j + 1) (Nat.succ_lt_succ hj)
        omega
      have hinside : ¬ c.size < offset + 2 := by omega
      simp only [Listing.captures, hinside, if_false,
        Chunk.byteAt_eq_ok (show offset < c.size by omega),
        Chunk.byteAt_eq_ok (show offset + 1 < c.size by omega), ok_bind, hrest]
      refine ⟨_, congrArg Except.ok (Prod.ext_iff.mpr ⟨rfl, ?_⟩)⟩
      show offset + 2 + 2 * count = offset + 2 * (count + 1)
      omega

/-- What is held in a heap can be displayed if all that is reachable is live. -/
theorem Heap.Closed.displays {h : Heap} {held : List Value} (hclosed : h.Closed held) {v : Value}
    (hv : v ∈ held) : h.Displays v := by
  cases v with
  | nil | bool | number => trivial
  | string s => exact hclosed _ (.root hv)
  | function f =>
      obtain ⟨o, ho⟩ := live_function_iff.mp (hclosed _ (.root hv))
      exact ⟨o, ho, fun name hname =>
        hclosed _ (.child (.root hv) ho (mem_children_of_name hname))⟩

/-! ### Instructions -/

/-- What the operand of an instruction refers to in the code of an object, where `n` locals are
in scope. The opcode and its operand end at `behind`, and the next instruction is at `next`. -/
def Operand.Refers (h : Heap) (o : FunctionObject) (n : Nat) (op : Opcode) (behind next : Nat) :
    Operand → Prop
  | .none | .ahead _ | .back _ => next = behind
  | .byte b =>
    next = behind ∧ (op = .getUpvalue ∨ op = .setUpvalue → b.toNat < o.upvalueCount)
  | .constant i =>
    next = behind ∧ i < o.chunk.constants.size ∧
      (op ≠ .constant → op ≠ .constantLong → ∃ s, o.chunk.constants[i]? = some (.string s))
  | .captures k =>
    ∃ f callee, o.chunk.constants[k]? = some (.function f) ∧
      h.functions.get? f.index = some callee ∧ next = behind + 2 * callee.upvalueCount ∧
      ∀ j < callee.upvalueCount, ∃ kind index,
        o.chunk.code[behind + 2 * j]? = some kind ∧
        o.chunk.code[behind + 2 * j + 1]? = some index ∧
        (kind = 1 ∧ index.toNat < n ∨ kind = 0 ∧ index.toNat < o.upvalueCount)

section

variable {w : World} {h : Heap} {o : FunctionObject} {pc n : Nat} {op : Opcode}
  {operands : List UInt8} {is : List Item}

/-- The operands of an instruction stand behind its opcode. -/
theorem Chunk.Holds.getElem?_operand {c : Chunk} (hholds : c.Holds pc (.instr op operands n :: is))
    {i : Nat} {b : UInt8} (hb : operands[i]? = some b) : c.code[pc + 1 + i]? = some b := by
  have hbyte := hholds.byteAt_operand hb
  rw [Chunk.byteAt] at hbyte
  split at hbyte
  next hget => rw [hget, Except.ok.inj hbyte]
  next => cases hbyte

/-- The captures of a closure refer to what they should. -/
theorem refers_of_makesClosure {Γ : Scope} {callee : FunctionObject} {k : UInt8}
    {captures : List Capture} {pairs : List UInt8} (hw : w.Describes h o)
    (hmakes : w.MakesClosure Γ callee k captures pairs)
    (hholds : o.chunk.Holds pc (.instr .closure (k :: pairs) n :: is)) :
    (Operand.captures k.toNat).Refers h o Γ.locals.length .closure (pc + 2)
      (pc + 2 + pairs.length) := by
  obtain ⟨⟨f, hf, hcallee⟩, hcount, hbytes, hvalid⟩ := hmakes
  rw [hw.constants] at hf
  rw [hw.heap] at hcallee
  rw [hw.upvalues] at hvalid
  obtain ⟨hlength, hpairs⟩ := CompileM.captureBytes_spec hbytes
  refine ⟨f, callee, ?_, hcallee, by rw [hlength, hcount], fun j hj => ?_⟩
  · rwa [← Array.getElem?_toList]
  · rw [hcount] at hj
    have hc := List.getElem?_eq_getElem hj
    obtain ⟨b, hkind, hindex, hb⟩ := hpairs j _ hc
    have hin := hvalid _ (List.mem_of_getElem? hc)
    have hkind' := hholds.getElem?_operand (i := 2 * j + 1) hkind
    have hindex' := hholds.getElem?_operand (i := 2 * j + 2) hindex
    rw [show pc + 1 + (2 * j + 1) = pc + 2 + 2 * j by omega] at hkind'
    rw [show pc + 1 + (2 * j + 2) = pc + 2 + 2 * j + 1 by omega] at hindex'
    refine ⟨_, b, hkind', hindex', ?_⟩
    cases hlocal : captures[j].isLocal with
    | true =>
        rw [hlocal, if_pos rfl] at hin
        exact Or.inl ⟨rfl, hb ▸ hin⟩
    | false =>
        rw [hlocal, if_neg Bool.false_ne_true] at hin
        exact Or.inr ⟨rfl, hb ▸ hin⟩

/-- A valid instruction is decoded, and its operand refers to what it should. -/
theorem Item.Valid.refers (hw : w.Describes h o) (hvalid : Item.Valid w (.instr op operands n))
    (hholds : o.chunk.Holds pc (.instr op operands n :: is)) :
    ∃ operand, o.chunk.decode pc = .ok (.instruction op operand (pc + 1 + op.operandSize)) ∧
      operand.Refers h o n op (pc + 1 + op.operandSize) (pc + 1 + operands.length) := by
  suffices hencoded : ∃ operand, Operand.Encoded op.format operands operand ∧
      operand.Refers h o n op (pc + 1 + op.operandSize) (pc + 1 + operands.length) by
    obtain ⟨operand, hoperand, hrefers⟩ := hencoded
    exact ⟨operand, hholds.decode hoperand, hrefers⟩
  cases hvalid with
  | plain _ hformat =>
      rw [Opcode.operandSize, hformat]
      exact ⟨.none, .none _, rfl⟩
  | byte _ hformat hupvalue =>
      rw [Opcode.operandSize, hformat]
      exact ⟨_, .byte _ _, rfl, fun hop => hw.upvalues ▸ hupvalue hop⟩
  | load _ hload hlt hi =>
      obtain ⟨hop, hlength, hencoded⟩ := encoded_loadOf hload hlt
      rw [hw.constants] at hi
      refine ⟨_, hencoded, by rw [hlength], hi, fun hne hne' => ?_⟩
      exact (hop.elim hne hne').elim
  | named _ hformat htext =>
      have hlt := htext.lt
      obtain ⟨s, hs, -⟩ := htext
      rw [hw.constants] at hlt hs
      rw [Opcode.operandSize, hformat]
      refine ⟨_, .constant _ _, rfl, hlt, fun _ _ => ⟨s, ?_⟩⟩
      rw [← Array.getElem?_toList]
      exact hs
  | ahead _ hformat hd =>
      rw [Opcode.operandSize, hformat]
      exact ⟨_, (encoded_bytesOf16 hd).1, rfl⟩
  | back _ hd => exact ⟨_, (encoded_bytesOf16 hd).2, rfl⟩
  | closure hmakes =>
      rename_i pairs
      have hrefers := refers_of_makesClosure hw hmakes hholds
      refine ⟨_, .captures _ _, ?_⟩
      rwa [List.length_cons, show pc + 1 + (pairs.length + 1) = pc + 2 + pairs.length by omega]

/-- An instruction whose operand refers to what it should is listed, up to the next one. -/
theorem Operand.Refers.listed {operand : Operand} {behind next : Nat}
    (hrefers : operand.Refers h o n op behind next)
    (hdecode : o.chunk.decode pc = .ok (.instruction op operand behind))
    (hclosed : h.Closed o.chunk.constants.toList) :
    ∃ text, Listing.instruction h o.chunk pc = .ok (text, next) := by
  have hdisplays : ∀ v ∈ o.chunk.constants, h.Displays v :=
    fun v hv => hclosed.displays (Array.mem_toList_iff.mpr hv)
  simp only [Listing.instruction, hdecode, ok_bind]
  cases operand with
  | none | ahead | back =>
      obtain rfl : next = behind := hrefers
      exact ⟨_, rfl⟩
  | byte b =>
      obtain ⟨rfl, -⟩ := hrefers
      exact ⟨_, rfl⟩
  | constant i =>
      obtain ⟨rfl, -, -⟩ := hrefers
      obtain ⟨text, htext⟩ := Listing.constantText_isOk hdisplays op i
      simp only [Listing.operandText, htext, ok_bind]
      exact ⟨_, rfl⟩
  | captures k =>
      obtain ⟨f, callee, hf, hcallee, rfl, hpairs⟩ := hrefers
      obtain ⟨text, htext⟩ := Listing.constantText_isOk hdisplays op k
      obtain ⟨rest, hrest⟩ := Listing.captures_isOk (c := o.chunk) fun j hj => by
        obtain ⟨_, _, -, hindex, -⟩ := hpairs j hj
        exact (Array.getElem?_eq_some_iff.mp hindex).1
      simp only [Listing.operandText, htext, ok_bind, Listing.operandCaptures,
        Listing.captureCount, hf, Option.bind_some, Value.function?, Heap.function, hcallee,
        pure_bind, hrest]
      exact ⟨_, rfl⟩

end

/-! ### Functions -/

/-- The instructions that were written to the code of a function. -/
def Event.written (f : FunctionHandle) (τ : List Event) : List Event :=
  (ofFunction f τ).filter fun e => e.happening = .writes

/-- The listing of an object's code goes through the instructions that were written to it, from
the first byte up to the last. What their operands refer to is there, and they end with the
return of nil. -/
structure Listed (h : Heap) (o : FunctionObject) (writes : List Event) : Prop where
  lines : ∃ lines, Listing.instructions h o.chunk = .ok lines ∧
    0 :: lines.map Prod.snd = writes.map Event.offset ++ [o.chunk.size]
  instructions : ∀ e ∈ writes, ∃ op operand behind text next,
    o.chunk.decode e.offset = .ok (.instruction op operand behind) ∧
    Listing.instruction h o.chunk e.offset = .ok (text, next) ∧
    operand.Refers h o e.locals op behind next
  ends : ∃ before e e', writes = before ++ [e, e'] ∧
    o.chunk.decode e.offset = .ok (.instruction .nil .none e'.offset) ∧
    o.chunk.decode e'.offset = .ok (.instruction .ret .none o.chunk.size)

section

variable {w : World} {h : Heap} {o : FunctionObject}

/-- Valid items are listed one after the other. -/
theorem Listing.instructionsFrom_isOk (hw : w.Describes h o)
    (hclosed : h.Closed o.chunk.constants.toList)
    (f : FunctionHandle) {is : List Item} {pc budget : Nat} {found : List (String × Nat)}
    (hvalid : ∀ i ∈ is, i.Valid w) (hholds : o.chunk.Holds pc is)
    (hend : pc + Item.size is = o.chunk.size) (hbudget : Item.size is ≤ budget) :
    ∃ lines, Listing.instructionsFrom h o.chunk found budget pc = .ok (found.reverse ++ lines) ∧
      pc :: lines.map Prod.snd =
        ((Item.events f pc is).filter fun e => e.happening = .writes).map Event.offset ++
          [o.chunk.size] := by
  induction is generalizing pc budget found with
  | nil =>
      obtain rfl : pc = o.chunk.size := hend
      refine ⟨[], ?_, rfl⟩
      rw [List.append_nil]
      cases budget with
      | zero => rfl
      | succ budget => rw [instructionsFrom, if_neg (Nat.lt_irrefl _)]
  | cons i is ih =>
      obtain ⟨hi, his⟩ := List.forall_mem_cons.mp hvalid
      cases i with
      | mark happening n =>
          obtain ⟨lines, hlines, hoffsets⟩ := @ih pc budget found his hholds.of_mark hend hbudget
          refine ⟨lines, hlines, ?_⟩
          cases hi with
          | mark _ hne =>
              rw [Item.events, List.filter_cons_of_neg (by simpa using hne)]
              exact hoffsets
      | instr op operands n =>
          obtain ⟨operand, hdecode, hrefers⟩ := hi.refers hw hholds
          obtain ⟨text, htext⟩ := hrefers.listed hdecode hclosed
          rw [Item.size_instr] at hend hbudget
          obtain ⟨budget, rfl⟩ : ∃ b, budget = b + 1 := ⟨budget - 1, by omega⟩
          obtain ⟨lines, hlines, hoffsets⟩ := @ih _ budget
            ((text, pc + 1 + operands.length) :: found) his hholds.of_instr (by omega) (by omega)
          refine ⟨(text, pc + 1 + operands.length) :: lines, ?_, ?_⟩
          · rw [instructionsFrom, if_pos (by omega), htext, ok_bind, hlines]
            simp
          · simp [Item.events, hoffsets]

/-- Every item in the body of a function is one that can be listed. -/
theorem BodyCode.valid {w : World} {arity : Nat} {is : List Item} (hb : BodyCode w arity is) :
    ∀ i ∈ is, i.Valid w := by
  obtain ⟨-, -, hcode⟩ := hb
  exact List.forall_mem_append.mpr ⟨hcode.valid, List.forall_mem_cons.mpr
    ⟨.plain _ rfl, List.forall_mem_singleton.mpr (.plain _ rfl)⟩⟩

/-- The last two instructions of a body return nil. -/
theorem BodyCode.ends {w : World} {arity : Nat} {is : List Item} (hb : BodyCode w arity is)
    (f : FunctionHandle) {c : Chunk} (hholds : c.Holds 0 is) (hsize : 0 + Item.size is = c.size) :
    ∃ before e e', (Item.events f 0 is).filter (fun e => e.happening = .writes) =
        before ++ [e, e'] ∧
      c.decode e.offset = .ok (.instruction .nil .none e'.offset) ∧
      c.decode e'.offset = .ok (.instruction .ret .none c.size) := by
  cases hb with
  | @intro Γ Γ' body a harity hsettled hcode =>
      have hnil := hholds.right
      rw [Nat.zero_add] at hnil hsize
      rw [← hsize, Item.size_append]
      refine ⟨(Item.events f 0 a).filter fun e => e.happening = .writes,
        ⟨f, .writes, Item.size a, Γ'.locals.length⟩,
        ⟨f, .writes, Item.size a + 1, Γ'.locals.length⟩, ?_, hnil.decode (.none []),
        hnil.of_instr.decode (.none [])⟩
      rw [Item.events_append, List.filter_append, Nat.zero_add]
      rfl

/-- What is closed under a function is closed under its constants. -/
theorem Heap.Closed.constants {f : FunctionHandle} (hclosed : h.Closed [.function f])
    (ho : h.functions.get? f.index = some o) : h.Closed o.chunk.constants.toList := by
  intro v hv
  cases hobject : v.isObject with
  | false => exact live_of_not_isObject hobject
  | true => exact hclosed v (reach_function_of_constants ho hv hobject)

/-- The code of a finished function is listed. -/
theorem Finished.listed {σ : List Event} {f : FunctionHandle} (hf : Finished h σ f)
    (hclosed : h.Closed [.function f]) :
    ∃ o, h.functions.get? f.index = some o ∧ Listed h o (Event.written f σ) := by
  obtain ⟨o, w, is, ho, hw, hbody, hcode, hevents⟩ := hf
  have hvalid := hbody.valid
  have hholds : o.chunk.Holds 0 is := .of_eq hcode
  have hsize : 0 + Item.size is = o.chunk.size := by
    rw [Nat.zero_add, Item.size, ← hcode]
    rfl
  have hconstants := hclosed.constants ho
  refine ⟨o, ho, ?_, fun e he => ?_, ?_⟩
  · rw [Event.written, hevents]
    exact Listing.instructionsFrom_isOk hw hconstants f hvalid hholds hsize (by omega)
  · rw [Event.written, hevents] at he
    obtain ⟨he, hwrites⟩ := List.mem_filter.mp he
    obtain ⟨before, after, hoffset, ⟨op, operands, -, rfl⟩ | rfl⟩ :=
      Item.exists_of_mem_events he
    · have hat := hholds.right
      rw [← hoffset] at hat
      obtain ⟨operand, hdecode, hrefers⟩ := (hvalid _ (List.mem_append_right _
        (List.mem_cons_self ..))).refers hw hat
      obtain ⟨text, htext⟩ := hrefers.listed hdecode hconstants
      exact ⟨op, operand, _, text, _, hdecode, htext, hrefers⟩
    · cases hvalid _ (List.mem_append_right _ (List.mem_cons_self ..)) with
      | mark _ hne => exact absurd (of_decide_eq_true hwrites) hne
  · rw [Event.written, hevents]
    exact hbody.ends f hholds hsize

end

/-- The script of a source, and every function that it reaches, is listed instruction by
instruction as it was written, with operands that refer to what they should; and the script has
no captures. -/
theorem compile_listed (source : String) {h : Heap} {host : List Value}
    (hreachable : h.Reachable) {c : Compilation} {script : FunctionHandle}
    (hc : compile source h host = .ok c) (hok : c.outcome = .ok script) :
    (∀ g, c.heap.Reach [.function script] (.function g) →
      ∃ o, c.heap.functions.get? g.index = some o ∧
        Listed c.heap o (Event.written g (compileTrace source h host))) ∧
    ∃ o, c.heap.functions.get? script.index = some o ∧ o.upvalueCount = 0 := by
  obtain ⟨⟨o, program, is, Γ, hprogram⟩, hfinished⟩ := compile_translates hreachable.wf hc hok
  refine ⟨fun g hg => ?_, o, hprogram.object, hprogram.upvalues⟩
  refine (hfinished g hg).listed ((compile_closed hreachable.wf hc hok).of_subset fun v hv => ?_)
  obtain rfl := List.mem_singleton.mp hv
  exact hg

/-- Listing a script with a function that captures a parameter of the function around it. -/
theorem compile_listed_capture :
    ∃ c script o, compile "fun f(a) { fun g() { return a; } return g; }" (ofConfig ⟨true, 0, 2⟩) [] =
        .ok c ∧ c.outcome = .ok script ∧ c.heap.functions.get? script.index = some o ∧
      Listed c.heap o (Event.written script (compileTrace
        "fun f(a) { fun g() { return a; } return g; }" (ofConfig ⟨true, 0, 2⟩) [])) := by
  have hrun : (compile "fun f(a) { fun g() { return a; } return g; }"
      (ofConfig ⟨true, 0, 2⟩) []).map (·.outcome.toOption) = .ok (some ⟨0⟩) := by
    cbv
  obtain ⟨c, hc, hok⟩ := exists_of_script_eq hrun
  obtain ⟨hlisted, -⟩ := compile_listed "fun f(a) { fun g() { return a; } return g; }"
    (.ofConfig ⟨true, 0, 2⟩) hc hok
  obtain ⟨o, ho, hlisted⟩ := hlisted ⟨0⟩ (.root (List.mem_singleton.mpr rfl))
  exact ⟨c, ⟨0⟩, o, hc, hok, ho, hlisted⟩

end LoxBytecode
