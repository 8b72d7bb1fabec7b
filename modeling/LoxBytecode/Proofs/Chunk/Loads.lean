import LoxBytecode.Proofs.Code.Decoding
import LoxBytecode.Proofs.Chunk.Writing

/-!
# The Loads of a Chunk

A constant is written together with the instruction that loads it, in a form that depends on how
full the pool is. Whatever is done to the chunk later, the instruction is found where it was written
and loads the constant that was given, unless one of its bytes was overwritten
(`Logged.loads_stand`): the code behind it grows, the pool only grows, and bytes that lie apart from
it may change.
-/

namespace LoxBytecode

namespace Chunk

/-! ### Bytes in a chunk -/

/-- Some bytes lie in a chunk from an offset on. -/
def Has (c : Chunk) (offset : Nat) (bytes : List UInt8) : Prop :=
  ∃ before after, c.code.toList = before ++ bytes ++ after ∧ before.length = offset

section

variable {c c' : Chunk} {offset position value : Nat} {bytes more : List UInt8}

/-- Bytes that are there stay there when more is written behind them. -/
theorem Has.append (h : c.Has offset bytes) (hcode : c'.code.toList = c.code.toList ++ more) :
    c'.Has offset bytes := by
  obtain ⟨before, after, hbytes, hlength⟩ := h
  refine ⟨before, after ++ more, ?_, hlength⟩
  rw [hcode, hbytes, List.append_assoc]

/-- Bytes that were appended lie where the code ended. -/
theorem has_appended (hcode : c'.code.toList = c.code.toList ++ bytes) : c'.Has c.size bytes :=
  ⟨c.code.toList, [], by rw [hcode, List.append_nil], Array.length_toList⟩

/-- A byte apart from some others can be overwritten. -/
theorem Has.set (h : c.Has offset bytes) (position : Nat) (byte : UInt8)
    (happart : position < offset ∨ offset + bytes.length ≤ position)
    (hcode : c'.code.toList = c.code.toList.set position byte) : c'.Has offset bytes := by
  obtain ⟨before, after, hbytes, rfl⟩ := h
  rw [hbytes] at hcode
  rcases happart with hbefore | hafter
  · refine ⟨before.set position byte, after, ?_, List.length_set⟩
    rw [hcode, List.append_assoc, List.set_append_left _ _ hbefore, List.append_assoc]
  · refine ⟨before, after.set (position - (before ++ bytes).length) byte, ?_, rfl⟩
    rw [hcode, List.set_append_right]
    rwa [List.length_append]

/-- Two bytes apart from some others can be overwritten. -/
theorem Has.patch16 (h : c.Has offset bytes) (hpatch : c.patch16 position value = .ok c')
    (happart : position + 1 < offset ∨ offset + bytes.length ≤ position) : c'.Has offset bytes := by
  have hfirst : Has { c with code := c.code.setIfInBounds position (value >>> 8).toUInt8 }
      offset bytes := h.set position _ (by omega) Array.toList_setIfInBounds
  refine hfirst.set (position + 1) value.toUInt8 (by omega) ?_
  rw [code_patch16 hpatch, Array.toList_setIfInBounds]

/-- Only bytes that are there can be overwritten. -/
theorem patch16_lt_size (hpatch : c.patch16 position value = .ok c') : position + 1 < c.size := by
  rw [Chunk.patch16] at hpatch
  split at hpatch
  next hlt => exact hlt
  next => cases hpatch

/-- The load of a constant is decoded where its bytes lie. -/
theorem Has.decode_load {index : Nat} (h : c.Has offset (loadBytes index))
    (hindex : index < maxConstants) :
    c.decode offset = .ok (.instruction (if index ≤ 255 then .constant else .constantLong)
      (.constant index) (offset + (loadBytes index).length)) := by
  have hop : (loadOf index).1 = if index ≤ 255 then Opcode.constant else .constantLong := by
    rw [loadOf, maxShortConstant]
    split <;> rfl
  obtain ⟨-, hsize, hencoded⟩ := encoded_loadOf (Prod.eta (loadOf index)) hindex
  obtain ⟨before, after, hbytes, hlength⟩ := h
  have hholds : c.Holds offset [.instr (loadOf index).1 (loadOf index).2 0] := by
    refine ⟨before, after, ?_, hlength⟩
    rwa [Item.code_instr, Item.code_nil, List.append_nil]
  rw [hholds.decode hencoded, ← hsize, ← hop, loadBytes, List.length_cons, Nat.add_assoc,
    Nat.add_comm 1]

end

/-! ### Loads -/

/-- The two bytes at an offset lie apart from the instruction of a load. -/
def Load.Apart (l : Load) (position : Nat) : Prop :=
  position + 1 < l.offset ∨ l.offset + (loadBytes l.index).length ≤ position

/-- The constants of a log's loads are in a pool, each at an index of its own, and the instructions
that load them lie in the code, except for those that were overwritten. -/
structure Loaded (c : Chunk) (log : Log) : Prop where
  index_lt : ∀ l ∈ log.loads, l.index < maxConstants
  value : ∀ l ∈ log.loads, c.constants[l.index]? = some l.value
  distinct : (log.loads.map Load.index).Nodup
  has : ∀ l ∈ log.loads, (∀ position ∈ log.patches, l.Apart position) →
    c.Has l.offset (loadBytes l.index)
  patches : ∀ position ∈ log.patches, position + 1 < c.size

namespace Loaded

variable {c c' : Chunk} {log : Log} {offset value : Nat}

/-- From any chunk on there are no loads to speak of, since none is logged yet. -/
theorem start (c : Chunk) : c.Loaded .empty where
  index_lt := List.forall_mem_nil _
  value := List.forall_mem_nil _
  distinct := List.nodup_nil
  has := List.forall_mem_nil _
  patches := List.forall_mem_nil _

/-- Code and constants may be appended. -/
theorem append (h : c.Loaded log) (bytes : List UInt8) (values : List Value) {lines : List Nat}
    (hcode : c'.code.toList = c.code.toList ++ bytes)
    (hconstants : c'.constants.toList = c.constants.toList ++ values) :
    c'.Loaded { log with lines := lines } where
  index_lt := h.index_lt
  distinct := h.distinct
  has l hl happart := (h.has l hl happart).append hcode
  value l hl := by
    have hvalue := h.value l hl
    rw [← Array.getElem?_toList] at hvalue ⊢
    rw [hconstants, List.getElem?_append_left (List.getElem?_eq_some_iff.mp hvalue).1, hvalue]
  patches position hposition := by
    have hlength := congrArg List.length hcode
    rw [List.length_append, Array.length_toList, Array.length_toList] at hlength
    have hlt := h.patches position hposition
    rw [size] at hlt ⊢
    omega

/-- Bytes may be overwritten: that concerns no load which is apart from them. -/
theorem patch (h : c.Loaded log) (hpatch : c.patch16 offset value = .ok c') :
    c'.Loaded { log with patches := log.patches ++ [offset] } where
  index_lt := h.index_lt
  distinct := h.distinct
  value := by
    rw [constants_patch16 hpatch]
    exact h.value
  has l hl happart := by
    obtain ⟨hrest, hlast⟩ := List.forall_mem_append.mp happart
    exact (h.has l hl hrest).patch16 hpatch (hlast offset (List.mem_singleton.mpr rfl))
  patches := by
    rw [size_patch16 hpatch]
    exact List.forall_mem_append.mpr
      ⟨h.patches, List.forall_mem_singleton.mpr (patch16_lt_size hpatch)⟩

/-- The next load gets an index that no other has. -/
theorem load (h : c.Loaded log) (v : Value) (line : Nat)
    (hroom : c.constants.size < maxConstants) {lines : List Nat} :
    (c.writeLoad v line).Loaded
      { log with lines := lines, loads := log.loads ++ [⟨c.size, c.constants.size, v⟩] } := by
  have hcode : (c.writeLoad v line).code.toList =
      c.code.toList ++ loadBytes c.constants.size := by
    rw [code_writeLoad, Array.toList_append, loadBytes]
  have hconstants : (c.writeLoad v line).constants.toList = c.constants.toList ++ [v] := by
    rw [constants_writeLoad, Array.toList_push]
  have hold : (c.writeLoad v line).Loaded { log with lines := lines } :=
    h.append _ _ hcode hconstants
  refine ⟨?_, ?_, ?_, ?_, hold.patches⟩
  · exact List.forall_mem_append.mpr ⟨hold.index_lt, List.forall_mem_singleton.mpr hroom⟩
  · refine List.forall_mem_append.mpr ⟨hold.value, List.forall_mem_singleton.mpr ?_⟩
    rw [constants_writeLoad, Array.getElem?_push_size]
  · rw [List.map_append, List.nodup_append]
    refine ⟨hold.distinct, List.nodup_singleton _, ?_⟩
    rintro index hindex last hlast rfl
    obtain ⟨l, hl, rfl⟩ := List.mem_map.mp hindex
    have hlt := (Array.getElem?_eq_some_iff.mp (h.value l hl)).1
    exact Nat.lt_irrefl _ (List.mem_singleton.mp hlast ▸ hlt)
  · exact List.forall_mem_append.mpr
      ⟨hold.has, List.forall_mem_singleton.mpr fun _ => has_appended hcode⟩

end Loaded

variable {c₀ c : Chunk}

/-- Every step keeps the loads that are logged where they are. -/
theorem Logged.loaded {log : Log} (h : Logged c₀ log c) : c.Loaded log := by
  induction h with
  | start => exact .start c₀
  | write byte line _ ih =>
      exact ih.append [byte] [] (by simp) (by simp)
  | opcode op line _ ih =>
      exact ih.append [op.toByte] [] (by simp) (by simp)
  | addConstant value _ ih =>
      exact ih.append [] [value] (by simp) (by simp)
  | writeConstant _ _ _ hwrite ih =>
      obtain ⟨hroom, rfl, rfl⟩ := writeConstant_eq_ok.mp hwrite
      exact ih.load _ _ hroom
  | refused _ _ _ _ ih => exact ih
  | patch16 _ _ _ hpatch ih => exact ih.patch hpatch

/-- However a chunk was written since, each constant that was written with its load is loaded where
that was written, from the index that was answered, which no other has; the next one is written like
that, apart from all that was overwritten before, or refused without a change once the pool is
full. -/
theorem Logged.loads_stand {log : Log} (h : Logged c₀ log c) :
    (log.loads.map Load.index).Nodup ∧
      (∀ l ∈ log.loads, c.constants[l.index]? = some l.value ∧
        ((∀ position ∈ log.patches, l.Apart position) →
          c.decode l.offset = .ok (.instruction (if l.index ≤ 255 then .constant else .constantLong)
            (.constant l.index) (l.offset + (loadBytes l.index).length)))) ∧
      (∀ v line, c.constants.size < 0x1000000 → ∃ c',
        c.writeConstant v line = .ok (c.constants.size, c') ∧
          c'.code.toList = c.code.toList ++ loadBytes c.constants.size ∧
          c'.constants = c.constants.push v ∧
          ∀ position ∈ log.patches, Load.Apart ⟨c.size, c.constants.size, v⟩ position) ∧
      ∀ v line, 0x1000000 ≤ c.constants.size →
        c.writeConstant v line = .error .tooManyConstants ∧
          ∀ s : Session, s.chunk = c → (s.load v).functions = s.functions := by
  have hloaded := h.loaded
  refine ⟨hloaded.distinct, fun l hl => ⟨hloaded.value l hl, fun happart => ?_⟩, ?_, ?_⟩
  · exact (hloaded.has l hl happart).decode_load (hloaded.index_lt l hl)
  · intro v line hroom
    refine ⟨c.writeLoad v line, writeConstant_eq_ok.mpr ⟨hroom, rfl, rfl⟩, ?_, ?_, ?_⟩
    · rw [code_writeLoad, Array.toList_append, loadBytes]
    · exact constants_writeLoad c v line
    · exact fun position hposition => Or.inl (hloaded.patches position hposition)
  · intro v line hlarge
    have hfull : c.isFull = true := decide_eq_true hlarge
    refine ⟨by rw [Chunk.writeConstant, if_pos hfull], ?_⟩
    rintro s rfl
    rw [Session.load, if_pos hfull]
    exact Session.functions_report ..

/-- Two loads around bytes that are overwritten later, the second one decoded after that. -/
theorem loads_stand_overwritten : ∃ log c, Logged Chunk.empty log c ∧
    log.loads = [⟨0, 0, .nil⟩, ⟨4, 2, .bool true⟩] ∧ log.patches = [2] ∧
    (log.loads.map Load.index).Nodup ∧
    c.decode 4 = .ok (.instruction .constant (.constant 2) 6) := by
  have hfirst : Logged empty _ _ := .writeConstant .nil 1 .start rfl
  have hsecond : Logged empty _ _ := .writeConstant (.bool true) 1
    (.addConstant .nil (.write 0xFF 1 (.write 0xFF 1 hfirst))) rfl
  have hpatch : Logged empty _ _ := .patch16 2 0x1234 (.opcode .nil 2 hsecond) rfl
  obtain ⟨hdistinct, hloads, -, -⟩ := hpatch.loads_stand
  refine ⟨_, _, hpatch, rfl, rfl, hdistinct, (hloads _ (.tail _ (.head _))).2 ?_⟩
  exact List.forall_mem_singleton.mpr (Or.inl (by decide))

end Chunk

end LoxBytecode
