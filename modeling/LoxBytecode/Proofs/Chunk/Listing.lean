import Mathlib.Data.List.Chain
import LoxBytecode.Listing
import LoxBytecode.Proofs.Heap.Reachability
import LoxBytecode.Proofs.Session.Fields

/-!
# Listing Any Code

A listing must not fail on damaged code: whatever the bytes of a chunk are, an instruction that
begins inside the code is listed and ends behind its beginning, at the end of the code at the latest
(`Listing.instruction_advances`). So the listing of a function goes through ever larger offsets up
to the end of the code (`Listing.instructions_reach_end`). Nothing else is asked of a chunk than
that its constants can be displayed.
-/

namespace LoxBytecode

/-- The object of a value is live, and the name of a function is live too. -/
def Heap.Displays (h : Heap) : Value → Prop
  | .function f => ∃ o, h.functions.get? f.index = some o ∧
      ∀ name, o.name = some name → h.Live (.string name)
  | v => h.Live v

/-- A value that the heap displays has a text. -/
theorem Heap.Displays.isOk {h : Heap} {v : Value} (hv : h.Displays v) :
    ∃ text, h.display v = .ok text := by
  cases v with
  | nil | number x => exact ⟨_, rfl⟩
  | bool b => cases b <;> exact ⟨_, rfl⟩
  | string s =>
      obtain ⟨text, htext⟩ := live_string_iff.mp hv
      exact ⟨text, by rw [Heap.display, Heap.string, htext]⟩
  | function f =>
      obtain ⟨o, ho, hlive⟩ := hv
      simp only [Heap.display, Heap.function, ho, ok_bind, displayFunction]
      cases hname : o.name with
      | none => exact ⟨_, rfl⟩
      | some name =>
          obtain ⟨text, htext⟩ := live_string_iff.mp (hlive name hname)
          simp only [Heap.string, htext, ok_bind]
          exact ⟨_, rfl⟩

namespace Listing

variable {h : Heap} {c : Chunk} {offset next : Nat}

/-! ### Instructions -/

/-- An index of a constant has a text, also where there is no constant at it. -/
theorem constantText_isOk (hdisplays : ∀ v ∈ c.constants, h.Displays v) (op : Opcode)
    (index : Nat) : ∃ text, constantText h c op index = .ok text := by
  rw [constantText]
  cases hconstant : c.constants[index]? with
  | none => exact ⟨_, rfl⟩
  | some v =>
      obtain ⟨text, htext⟩ := (hdisplays v (Array.mem_of_getElem? hconstant)).isOk
      simp only [htext, ok_bind]
      exact ⟨_, rfl⟩

/-- An operand has a text if all constants have one. -/
theorem operandText_isOk (hdisplays : ∀ v ∈ c.constants, h.Displays v) (offset : Nat) (op : Opcode)
    (next : Nat) (operand : Operand) :
    ∃ text, operandText h c offset op next operand = .ok text := by
  cases operand with
  | none | byte | ahead | back => exact ⟨_, rfl⟩
  | constant index | captures index => exact constantText_isOk hdisplays op index

/-- The captures of what is no function are counted, and there are none. -/
theorem captureCount_isOk (hdisplays : ∀ v ∈ c.constants, h.Displays v) (index : Nat) :
    ∃ count, captureCount h c index = .ok count := by
  rw [captureCount]
  cases hconstant : c.constants[index]? with
  | none => exact ⟨_, rfl⟩
  | some v =>
      cases v with
      | nil | bool | number | string => exact ⟨_, rfl⟩
      | function f =>
          obtain ⟨o, ho, -⟩ := hdisplays _ (Array.mem_of_getElem? hconstant)
          simp only [Option.bind_some, Value.function?, Heap.function, ho, ok_bind]
          exact ⟨_, rfl⟩

/-- Any number of captures is listed, up to the end of the code at the latest. -/
theorem captures_bounded (count : Nat) (hinside : offset ≤ c.size) :
    ∃ text next, captures c count offset = .ok (text, next) ∧ offset ≤ next ∧ next ≤ c.size := by
  induction count generalizing offset with
  | zero => exact ⟨"", offset, rfl, Nat.le_refl _, hinside⟩
  | succ count ih =>
      rw [captures]
      split
      next => exact ⟨_, c.size, rfl, hinside, Nat.le_refl _⟩
      next hpair =>
        obtain ⟨rest, next, hrest, hle, hend⟩ := @ih (offset + 2) (by omega)
        have hfirst : offset < c.size := by omega
        have hsecond : offset + 1 < c.size := by omega
        simp only [Chunk.byteAt_eq_ok hfirst, Chunk.byteAt_eq_ok hsecond, ok_bind, hrest]
        exact ⟨_, next, rfl, by omega, hend⟩

/-- The captures behind an operand are listed up to a place within the code. -/
theorem operandCaptures_bounded (hdisplays : ∀ v ∈ c.constants, h.Displays v)
    (hinside : offset ≤ c.size) (operand : Operand) : ∃ text next,
      operandCaptures h c offset operand = .ok (text, next) ∧ offset ≤ next ∧ next ≤ c.size := by
  cases operand with
  | none | byte | constant | ahead | back =>
      exact ⟨"", offset, rfl, Nat.le_refl _, hinside⟩
  | captures index =>
      obtain ⟨count, hcount⟩ := captureCount_isOk hdisplays index
      rw [operandCaptures, hcount, ok_bind]
      exact captures_bounded count hinside

/-- An instruction that is decoded ends inside the code. -/
theorem decode_instruction_le {op : Opcode} {operand : Operand}
    (hdecode : c.decode offset = .ok (.instruction op operand next)) :
    offset < next ∧ next ≤ c.size := by
  obtain ⟨byte, -, hdecode⟩ := bind_eq_ok.mp hdecode
  split at hdecode
  next => cases hdecode
  next =>
    dsimp only at hdecode
    split at hdecode
    next => cases hdecode
    next hinside =>
      obtain ⟨operand', -, hdecode⟩ := bind_eq_ok.mp hdecode
      cases hdecode
      omega

/-- Whatever lies at an offset inside the code is listed, and the next instruction is behind it,
at the end of the code at the latest. -/
theorem instruction_advances (hdisplays : ∀ v ∈ c.constants, h.Displays v)
    (hinside : offset < c.size) : ∃ text next,
      instruction h c offset = .ok (text, next) ∧ offset < next ∧ next ≤ c.size := by
  obtain ⟨decoded, hdecode⟩ := Chunk.decode_isOk hinside
  simp only [instruction, hdecode, ok_bind]
  cases decoded with
  | unknown byte => exact ⟨_, offset + 1, rfl, Nat.lt_succ_self _, hinside⟩
  | truncated op => exact ⟨_, c.size, rfl, hinside, Nat.le_refl _⟩
  | instruction op operand behind =>
      obtain ⟨hlt, hend⟩ := decode_instruction_le hdecode
      obtain ⟨text, htext⟩ := operandText_isOk hdisplays offset op behind operand
      obtain ⟨rest, next, hrest, hle, hnext⟩ := operandCaptures_bounded hdisplays hend operand
      simp only [htext, hrest, ok_bind]
      exact ⟨_, next, rfl, Nat.lt_of_lt_of_le hlt hle, hnext⟩

/-! ### Functions -/

/-- Entries of a listing go from an offset to the end of the code: each is that of the instruction
where the one before ended, and ends behind it. -/
inductive Walk (h : Heap) (c : Chunk) : Nat → List (String × Nat) → Prop
  | done : Walk h c c.size []
  | step {offset : Nat} {entry : String × Nat} {rest : List (String × Nat)} :
      instruction h c offset = .ok entry → offset < entry.2 → Walk h c entry.2 rest →
        Walk h c offset (entry :: rest)

/-- As many steps as there are bytes left are enough to reach the end. -/
theorem instructionsFrom_walk (hdisplays : ∀ v ∈ c.constants, h.Displays v) {budget : Nat}
    (found : List (String × Nat)) (hinside : offset ≤ c.size) (hbudget : c.size - offset ≤ budget) :
    ∃ entries, instructionsFrom h c found budget offset = .ok (found.reverse ++ entries) ∧
      Walk h c offset entries := by
  induction budget generalizing offset found with
  | zero =>
      obtain rfl : offset = c.size := by omega
      exact ⟨[], by rw [instructionsFrom, List.append_nil], .done⟩
  | succ budget ih =>
      rcases Nat.lt_or_eq_of_le hinside with hlt | rfl
      · obtain ⟨text, next, hentry, hnext, hend⟩ := instruction_advances hdisplays hlt
        obtain ⟨entries, hentries, hwalk⟩ := ih ((text, next) :: found) hend (by omega)
        refine ⟨(text, next) :: entries, ?_, .step hentry hnext hwalk⟩
        rw [instructionsFrom, if_pos hlt, hentry, ok_bind, hentries, List.reverse_cons,
          List.append_assoc, List.singleton_append]
      · refine ⟨[], ?_, .done⟩
        rw [instructionsFrom, if_neg (Nat.lt_irrefl _), List.append_nil]

namespace Walk

variable {entries : List (String × Nat)}

/-- The offsets of a walk increase. -/
theorem isChain (hwalk : Walk h c offset entries) :
    (offset :: entries.map Prod.snd).IsChain (· < ·) := by
  induction hwalk with
  | done => exact .singleton _
  | step _ hlt _ ih => exact .cons_cons hlt ih

/-- The last offset of a walk is the length of the code. -/
theorem getLast? (hwalk : Walk h c offset entries) :
    (offset :: entries.map Prod.snd).getLast? = some c.size := by
  induction hwalk with
  | done => rfl
  | step _ _ _ ih => rwa [List.map_cons, List.getLast?_cons_cons]

/-- Each entry of a walk lists the instruction at its offset. -/
theorem instructions (hwalk : Walk h c offset entries) :
    List.Forall₂ (fun offset entry => instruction h c offset = .ok entry)
      (offset :: entries.map Prod.snd).dropLast entries := by
  induction hwalk with
  | done => exact .nil
  | step hentry _ _ ih => exact .cons hentry ih

end Walk

/-- Whatever the bytes of a chunk are: what begins at an offset inside the code is listed and ends
behind it, inside the code, and the listing of a function goes from one instruction to the next,
from the first byte on, through ever larger offsets, up to the end of the code. -/
theorem instructions_reach_end (h : Heap) (c : Chunk)
    (hdisplays : ∀ v ∈ c.constants, h.Displays v) :
    (∀ offset < c.size, ∃ text next,
      instruction h c offset = .ok (text, next) ∧ offset < next ∧ next ≤ c.size) ∧
    ∃ entries, instructions h c = .ok entries ∧
      (0 :: entries.map Prod.snd).Pairwise (· < ·) ∧
      (0 :: entries.map Prod.snd).getLast? = some c.size ∧
      List.Forall₂ (fun offset entry => instruction h c offset = .ok entry)
        (0 :: entries.map Prod.snd).dropLast entries ∧
      ∀ o : FunctionObject, o.chunk = c → (∀ name, o.name = some name → h.Live (.string name)) →
        ∃ name, own h o =
          .ok (String.join (("== " ++ name ++ " ==\n") :: entries.map Prod.fst)) := by
  refine ⟨fun offset hinside => instruction_advances hdisplays hinside, ?_⟩
  obtain ⟨entries, hentries, hwalk⟩ :=
    instructionsFrom_walk hdisplays [] (Nat.zero_le c.size) (Nat.le_refl _)
  refine ⟨entries, hentries, List.isChain_iff_pairwise.mp hwalk.isChain, hwalk.getLast?,
    hwalk.instructions, ?_⟩
  rintro o rfl hlive
  have hlines : instructions h o.chunk = .ok entries := hentries
  rw [own]
  cases hname : o.name with
  | none =>
      refine ⟨"<script>", ?_⟩
      simp only [hlines, ok_bind]
      rfl
  | some name =>
      obtain ⟨text, htext⟩ := Heap.live_string_iff.mp (hlive name hname)
      refine ⟨text, ?_⟩
      simp only [Heap.string, htext, hlines, ok_bind]
      rfl

/-- A byte that is no opcode, a closure of what is no function, a constant that is missing, a loop
to before the start, and a closure whose captures are cut off. -/
theorem instructions_reach_end_damaged : ∃ (h : Heap) (c : Chunk),
    (∀ v ∈ c.constants, h.Displays v) ∧ c.code = #[250, Opcode.closure.toByte, 1,
      Opcode.constant.toByte, 9, Opcode.loop.toByte, 255, 255, Opcode.closure.toByte, 0, 1, 5, 0] ∧
    c.constants = #[.function ⟨0⟩, .nil] ∧
    (instructions h c).map (·.map Prod.snd) = .ok [1, 3, 5, 8, 13] ∧
    ∃ entries, instructions h c = .ok entries ∧ (0 :: entries.map Prod.snd).Pairwise (· < ·) ∧
      (0 :: entries.map Prod.snd).getLast? = some 13 := by
  let h : Heap := { Heap.ofConfig .standard with
    functions := (Arena.empty.alloc ⟨none, 0, 3, .empty⟩).2 }
  let c : Chunk := ⟨#[250, Opcode.closure.toByte, 1, Opcode.constant.toByte, 9,
    Opcode.loop.toByte, 255, 255, Opcode.closure.toByte, 0, 1, 5, 0], #[.function ⟨0⟩, .nil],
    #[⟨3, 7⟩]⟩
  have hdisplays : ∀ v ∈ c.constants, h.Displays v := by
    simp only [c, List.mem_toArray, List.forall_mem_cons]
    exact ⟨⟨_, rfl, by rintro name ⟨⟩⟩, trivial, by simp⟩
  obtain ⟨-, entries, hentries, hsorted, hlast, -⟩ := instructions_reach_end h c hdisplays
  exact ⟨h, c, hdisplays, rfl, rfl, rfl, entries, hentries, hsorted, hlast⟩

end Listing

end LoxBytecode
