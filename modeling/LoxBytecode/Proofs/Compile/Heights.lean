import Mathlib
import LoxBytecode.Proofs.Code.Flow
import LoxBytecode.Proofs.Compile.Listing

/-!
# The Height of the Stack

A slot is a number that the compiler counts, and no instruction checks it. That it is right
rests on the height of the stack: for every function of a script that compiles there is one
height for every offset of its code, which all ways to that offset agree on, and which is the
number of locals in scope wherever a phrase of the program begins or ends (`compile_heights`).
-/

namespace LoxBytecode

open Heap

/-- Heights of the stack that suit the code of an object, with the events of writing it.
Wherever control goes on from an instruction there is another one, except that behind the last
return the code ends. -/
structure HasHeights (h : Heap) (o : FunctionObject) (τ : List Event) (H : Nat → Nat) : Prop where
  entry : H 0 = 1 + o.arity
  instructions : ∀ e ∈ τ, e.happening = .writes → ∃ op operand behind text next,
    o.chunk.decode e.offset = .ok (.instruction op operand behind) ∧
    Listing.instruction h o.chunk e.offset = .ok (text, next) ∧
    Flows (fun t => (∃ e' ∈ τ, e'.happening = .writes ∧ e'.offset = t) ∨
      op = .ret ∧ t = o.chunk.size) H e.offset next op operand
  phrases : ∀ e ∈ τ, e.happening ≠ .writes → H e.offset = e.locals

section

variable {T : Nat → Prop} {H : Nat → Nat} {pc t : Nat} {is : List Item} {f : FunctionHandle}
  {e : Event}

/-- The offsets of some items with an instruction behind them are those of events. -/
theorem exists_event_of_bound {op : Opcode} {operands : List UInt8} {n : Nat}
    (ht : Bound pc is t) : ∃ e ∈ Item.events f pc (is ++ [.instr op operands n]),
      e.happening = .writes ∧ e.offset = t := by
  induction is generalizing pc with
  | nil =>
      obtain rfl : t = pc := ht
      exact ⟨_, List.mem_singleton.mpr rfl, rfl, rfl⟩
  | cons i is ih =>
      cases i with
      | instr op' operands' n' =>
          rcases ht with rfl | ht
          · exact ⟨_, List.mem_cons_self .., rfl, rfl⟩
          · obtain ⟨e, he, hevent⟩ := ih ht
            exact ⟨e, List.mem_cons_of_mem _ he, hevent⟩
      | mark happening n' =>
          obtain ⟨e, he, hevent⟩ := ih ht
          exact ⟨e, List.mem_cons_of_mem _ he, hevent⟩

/-- What heights owe to an instruction that was written. -/
theorem Stacked.flows (h : Stacked T H pc is) (he : e ∈ Item.events f pc is)
    (hwrites : e.happening = .writes) : ∃ before op operands after operand,
      is = before ++ .instr op operands e.locals :: after ∧ e.offset = pc + Item.size before ∧
      Operand.Encoded op.format operands operand ∧
      Flows T H e.offset (e.offset + 1 + operands.length) op operand := by
  obtain ⟨before, after, hoffset, ⟨op, operands, -, rfl⟩ | rfl⟩ := Item.exists_of_mem_events he
  · obtain ⟨-, ⟨operand, hencoded, hflows⟩, -⟩ := stacked_append.mp h
    rw [← hoffset] at hflows
    exact ⟨before, op, operands, after, operand, rfl, hoffset, hencoded, hflows⟩
  · obtain ⟨-, ⟨hne, -⟩, -⟩ := stacked_append.mp h
    exact absurd hwrites hne

/-- The height at a phrase's beginning or end. -/
theorem Stacked.height_eq (h : Stacked T H pc is) (he : e ∈ Item.events f pc is)
    (hphrase : e.happening ≠ .writes) : H e.offset = e.locals := by
  obtain ⟨before, after, hoffset, ⟨op, operands, hwrites, -⟩ | rfl⟩ :=
    Item.exists_of_mem_events he
  · exact absurd hwrites hphrase
  · obtain ⟨-, ⟨-, hheight⟩, -⟩ := stacked_append.mp h
    rw [hoffset, hheight]

/-- Heights for the code of a function, up to its last return, and behind it. -/
theorem BodyCode.exists_heights {w : World} {arity : Nat} (h : BodyCode w arity is) :
    ∃ before n H, is = before ++ [.instr .ret [] n] ∧ H 0 = 1 + arity ∧
      Stacked (Bound 0 before) H 0 before ∧
      Flows (· = Item.size is) H (Item.size before) (Item.size is) .ret .none := by
  obtain ⟨harity, hsettled, hcode⟩ := h
  rename_i Γ Δ body a
  have hi : 0 < Γ.locals.length := harity ▸ Nat.succ_pos arity
  have hj := Nat.lt_of_lt_of_le hi (hcode.extends hsettled).length_le
  have hnil : Balanced [Δ.op .nil []] Δ.locals.length (Δ.locals.length + 1) := .plain rfl hj rfl
  obtain ⟨K, hK⟩ := (hcode.balanced hsettled hi).append hnil 0
  have hsize : Item.size (a ++ [Δ.op .nil [], Δ.op .ret []]) =
      Item.size (a ++ [Δ.op .nil []]) + 1 := by
    simp
  generalize hm : Item.size (a ++ [Δ.op .nil []]) = m at hsize
  have hlast : joint (m + 1) K (fun _ => Δ.locals.length) (m + 1) = Δ.locals.length :=
    joint_of_le (Nat.le_refl _)
  have hfills : Fills (joint (m + 1) K fun _ => Δ.locals.length) 0 (a ++ [Δ.op .nil []])
      Γ.locals.length (Δ.locals.length + 1) :=
    hK.joint_left (by omega) fun h => by omega
  generalize joint (m + 1) K (fun _ => Δ.locals.length) = H at hlast hfills
  have hstop : H m = Δ.locals.length + 1 := by
    rw [← hfills.stop, hm, Nat.zero_add]
  refine ⟨a ++ [Δ.op .nil []], Δ.locals.length, H, ?_, ?_, hfills.stacked, ?_⟩
  · rw [List.append_assoc]
    rfl
  · rw [hfills.start, harity, Nat.add_comm]
  · rw [hm, hsize]
    refine ⟨?_, by simp, by simp, fun t ht => ?_⟩
    · rw [hstop]
      exact Nat.succ_lt_succ hj
    · obtain rfl := List.mem_singleton.mp ht
      exact ⟨rfl, by rw [hstop, hlast]; rfl⟩

/-- An instruction of a finished function's code is decoded and listed as the one that was
written. -/
theorem Item.Valid.decode_listed {w : World} {h : Heap} {o : FunctionObject} {op : Opcode}
    {operands : List UInt8} {operand : Operand} {n : Nat} (hw : w.Describes h o)
    (hvalid : Item.Valid w (.instr op operands n))
    (hholds : o.chunk.Holds pc (.instr op operands n :: is))
    (hencoded : Operand.Encoded op.format operands operand)
    (hclosed : h.Closed o.chunk.constants.toList) :
    o.chunk.decode pc = .ok (.instruction op operand (pc + 1 + op.operandSize)) ∧
      ∃ text, Listing.instruction h o.chunk pc = .ok (text, pc + 1 + operands.length) := by
  have hdecode := hholds.decode hencoded
  obtain ⟨operand', hdecode', hrefers⟩ := hvalid.refers hw hholds
  obtain rfl : operand' = operand := by
    rw [hdecode] at hdecode'
    cases hdecode'
    rfl
  exact ⟨hdecode, hrefers.listed hdecode hclosed⟩

/-- The code of a finished function has heights. -/
theorem Finished.hasHeights {h : Heap} {σ : List Event} (hf : Finished h σ f)
    (hclosed : h.Closed [.function f]) : ∃ o H, h.functions.get? f.index = some o ∧
      HasHeights h o (Event.ofFunction f σ) H := by
  obtain ⟨o, w, is, ho, hw, hbody, hcode, hevents⟩ := hf
  have hconstants := hclosed.constants ho
  have hholds : o.chunk.Holds 0 is := .of_eq hcode
  have hvalid := hbody.valid
  have hsize : o.chunk.size = Item.size is := by
    rw [Item.size, ← hcode]
    rfl
  obtain ⟨before, n, H, rfl, hentry, hstacked, hret⟩ := hbody.exists_heights
  refine ⟨o, H, ho, hentry, fun e he hwrites => ?_, fun e he hphrase => ?_⟩
  all_goals rw [hevents] at he
  · rw [Item.events_append, List.mem_append] at he
    rcases he with he | he
    · obtain ⟨left, op, operands, right, operand, rfl, hoffset, hencoded, hflows⟩ :=
        hstacked.flows he hwrites
      have hat := hholds.left.right
      rw [← hoffset] at hat
      obtain ⟨hdecode, text, htext⟩ := (hvalid _ (by simp)).decode_listed hw hat hencoded hconstants
      refine ⟨op, operand, _, text, _, hdecode, htext, hflows.takes, hflows.slot, hflows.inside,
        fun t ht => ?_⟩
      obtain ⟨hbound, hheight⟩ := hflows.edges t ht
      rw [hevents]
      exact ⟨Or.inl (exists_event_of_bound hbound), hheight⟩
    · obtain rfl := List.mem_singleton.mp he
      rw [Nat.zero_add]
      have hat := hholds.right
      rw [Nat.zero_add] at hat
      obtain ⟨hdecode, text, htext⟩ := (hvalid _ (by simp)).decode_listed hw hat (.none []) hconstants
      have hend : Item.size before + 1 + ([] : List UInt8).length =
          Item.size (before ++ [.instr .ret [] n]) := by
        simp
      rw [hend] at htext
      refine ⟨.ret, .none, _, text, _, hdecode, htext, hret.takes, hret.slot, hret.inside,
        fun t ht => ?_⟩
      obtain ⟨htarget, hheight⟩ := hret.edges t ht
      exact ⟨Or.inr ⟨rfl, htarget.trans hsize.symm⟩, hheight⟩
  · rw [Item.events_append, List.mem_append] at he
    rcases he with he | he
    · exact hstacked.height_eq he hphrase
    · obtain rfl := List.mem_singleton.mp he
      exact absurd rfl hphrase

end

/-- Every function of a script that compiles has heights for its code. -/
theorem compile_heights (source : String) {h : Heap} {host : List Value}
    (hreachable : h.Reachable) {c : Compilation} {script : FunctionHandle}
    (hc : compile source h host = .ok c) (hok : c.outcome = .ok script) :
    ∀ g, c.heap.Reach [.function script] (.function g) →
      ∃ o H, c.heap.functions.get? g.index = some o ∧
        HasHeights c.heap o (Event.ofFunction g (compileTrace source h host)) H := by
  obtain ⟨-, hfinished⟩ := compile_translates hreachable.wf hc hok
  refine fun g hg => (hfinished g hg).hasHeights
    ((compile_closed hreachable.wf hc hok).of_subset fun v hv => ?_)
  obtain rfl := List.mem_singleton.mp hv
  exact hg

/-- Heights for a script with a loop around a block that declares a local. -/
theorem compile_heights_loop :
    ∃ c script o H, compile "while (true) { var a = 1; print a or nil; }" (ofConfig ⟨true, 0, 2⟩) [] =
        .ok c ∧ c.outcome = .ok script ∧ c.heap.functions.get? script.index = some o ∧
      HasHeights c.heap o (Event.ofFunction script (compileTrace
        "while (true) { var a = 1; print a or nil; }" (ofConfig ⟨true, 0, 2⟩) [])) H := by
  have hrun : (compile "while (true) { var a = 1; print a or nil; }"
      (ofConfig ⟨true, 0, 2⟩) []).map (·.outcome.toOption) = .ok (some ⟨0⟩) := by
    cbv
  obtain ⟨c, hc, hok⟩ := exists_of_script_eq hrun
  obtain ⟨o, H, ho, hheights⟩ := compile_heights "while (true) { var a = 1; print a or nil; }"
    (.ofConfig ⟨true, 0, 2⟩) hc hok ⟨0⟩ (.root (List.mem_singleton.mpr rfl))
  exact ⟨c, ⟨0⟩, o, H, hc, hok, ho, hheights⟩

end LoxBytecode
