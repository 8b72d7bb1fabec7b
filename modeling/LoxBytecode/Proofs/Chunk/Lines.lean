import Mathlib.Data.List.Chain
import LoxBytecode.Proofs.Chunk.Writing

/-!
# The Lines of a Chunk

However a chunk was written, its line table is the run-length encoding of the lines that the bytes
were given, and looking a line up finds the one that was given (`Logged.canonical_lines`).

The search halves a stretch of the table and looks at the run in the middle and at the one behind
it. All that it needs is that the offsets grow along the table: then the run that it looks for stays
in the stretch, because the run that an offset lies in (`RunAt`) begins there or before and the next
one begins behind.
-/

namespace LoxBytecode

namespace Chunk

/-! ### The search -/

/-- An offset lies in a run of a table, which is at an index there. -/
structure RunAt (runs : Array LineRun) (offset k : Nat) (run : LineRun) : Prop where
  isAt : runs[k]? = some run
  begins : run.offset ≤ offset
  ends : ∀ next, runs[k + 1]? = some next → offset < next.offset

variable {runs : Array LineRun} {offset k k' lo hi line : Nat} {run run' next : LineRun}

/-- Where the offsets grow along the table, a later run begins at a larger one. -/
theorem offset_lt (hsorted : runs.toList.Pairwise (·.offset < ·.offset)) (hk : runs[k]? = some run)
    (hk' : runs[k']? = some run') (hlt : k < k') : run.offset < run'.offset := by
  rw [← Array.getElem?_toList, List.getElem?_eq_some_iff] at hk hk'
  obtain ⟨hlength, rfl⟩ := hk
  obtain ⟨hlength', rfl⟩ := hk'
  exact List.pairwise_iff_getElem.mp hsorted k k' hlength hlength' hlt

/-- The run of an offset is not behind a run that begins behind the offset. -/
theorem RunAt.lt_of_offset_lt (h : RunAt runs offset k run)
    (hsorted : runs.toList.Pairwise (·.offset < ·.offset)) (hk' : runs[k']? = some run')
    (hlt : offset < run'.offset) : k < k' := by
  refine Nat.lt_of_not_le fun hle => ?_
  have hbegins := h.begins
  rcases Nat.lt_or_eq_of_le hle with hbefore | rfl
  · have hoffset := offset_lt hsorted hk' h.isAt hbefore
    omega
  · obtain rfl := Option.some.inj (h.isAt.symm.trans hk')
    omega

/-- The run of an offset is not before a run that begins there or before. -/
theorem RunAt.le_of_offset_le (h : RunAt runs offset k run)
    (hsorted : runs.toList.Pairwise (·.offset < ·.offset)) (hk' : runs[k']? = some run')
    (hle : run'.offset ≤ offset) : k' ≤ k := by
  refine Nat.le_of_not_lt fun hlt => ?_
  have hinside : k + 1 < runs.size :=
    Nat.lt_of_le_of_lt hlt (Array.getElem?_eq_some_iff.mp hk').1
  have hnext := h.ends _ (Array.getElem?_eq_getElem hinside)
  rcases Nat.lt_or_eq_of_le hlt with hbefore | rfl
  · have hoffset := offset_lt hsorted (Array.getElem?_eq_getElem hinside) hk' hbefore
    omega
  · obtain rfl := Option.some.inj ((Array.getElem?_eq_getElem hinside).symm.trans hk')
    omega

/-- The search finds the run of an offset, if it looks where it is. -/
theorem RunAt.findLine_eq (h : RunAt runs offset k run)
    (hsorted : runs.toList.Pairwise (·.offset < ·.offset)) (hlo : lo ≤ k) (hhi : k < hi)
    (hsize : hi ≤ runs.size) : findLine runs offset lo hi = some run.line := by
  fun_induction findLine runs offset lo hi with
  | case1 lo hi hlt mid hnone =>
      have hmid : mid < runs.size := by omega
      exact absurd hnone (by simp [hmid])
  | case2 lo hi hlt mid middle hmiddle hbefore ih =>
      exact ih hlo (h.lt_of_offset_lt hsorted hmiddle hbefore) (by omega)
  | case3 lo hi hlt mid middle hmiddle hbegins hends =>
      have hmid : RunAt runs offset mid middle := ⟨hmiddle, Nat.le_of_not_lt hbegins, by
        simpa [Option.all_eq_true] using hends⟩
      have hle := h.le_of_offset_le hsorted hmiddle hmid.begins
      have hge := hmid.le_of_offset_le hsorted h.isAt h.begins
      obtain rfl : k = mid := Nat.le_antisymm hge hle
      exact congrArg (fun r => some (LineRun.line r)) (Option.some.inj (hmiddle.symm.trans h.isAt))
  | case4 lo hi hlt mid middle hmiddle hbegins hbehind ih =>
      -- the run behind the middle begins at the offset or before
      obtain ⟨next, hnext, hle⟩ : ∃ next, runs[mid + 1]? = some next ∧ next.offset ≤ offset := by
        simpa [Option.all_eq_true] using hbehind
      exact ih (h.le_of_offset_le hsorted hnext hle) hhi hsize
  | case5 lo hi hempty => omega

/-- The last run goes on to the end of the table. -/
theorem runAt_back (hback : runs.back? = some run) (hbegins : run.offset ≤ offset) :
    RunAt runs offset (runs.size - 1) run := by
  refine ⟨by rwa [← Array.back?_eq_getElem?], hbegins, fun next hnext => ?_⟩
  have hlt := (Array.getElem?_eq_some_iff.mp hnext).1
  omega

/-- A run that begins behind an offset may follow. -/
theorem RunAt.push (h : RunAt runs offset k run) (hlt : offset < next.offset) :
    RunAt (runs.push next) offset k run := by
  have hk := (Array.getElem?_eq_some_iff.mp h.isAt).1
  refine ⟨?_, h.begins, fun behind hbehind => ?_⟩
  · rw [Array.getElem?_push_lt hk]
    exact (Array.getElem?_eq_getElem hk).symm.trans h.isAt
  · rw [Array.getElem?_push] at hbehind
    split at hbehind
    next =>
      cases hbehind
      exact hlt
    next => exact h.ends behind hbehind

/-! ### Tables -/

/-- The line table of a chunk is a run-length encoding. -/
structure Canonical (c : Chunk) : Prop where
  empty_iff : c.lines = #[] ↔ c.code = #[]
  first : ∀ run, c.lines[0]? = some run → run.offset = 0
  increasing : c.lines.toList.Pairwise (·.offset < ·.offset)
  below : ∀ run ∈ c.lines.toList, run.offset < c.size
  /-- Runs next to each other are of different lines. -/
  distinct : c.lines.toList.IsChain (·.line ≠ ·.line)

/-- The line table of a chunk encodes some lines, one for each byte. -/
structure Encodes (c : Chunk) (given : List Nat) : Prop where
  length : given.length = c.size
  canonical : c.Canonical
  runs : ∀ i line, given[i]? = some line → ∃ k run, RunAt c.lines i k run ∧ run.line = line

variable {c c' : Chunk} {given : List Nat}

/-- A chunk without code encodes no lines. -/
theorem encodes_empty : empty.Encodes [] where
  length := rfl
  canonical :=
    { empty_iff := ⟨fun _ => rfl, fun _ => rfl⟩
      first := by rintro run ⟨⟩
      increasing := .nil
      below := List.forall_mem_nil _
      distinct := .nil }
  runs := by rintro i line ⟨⟩

/-- A table tells the lines that it encodes, and none past the end of the code. -/
theorem Encodes.lineAt_eq (h : c.Encodes given) (i : Nat) : c.lineAt i = given[i]? := by
  rw [lineAt]
  split
  next hinside =>
    obtain ⟨line, hget⟩ : ∃ line, given[i]? = some line :=
      ⟨_, List.getElem?_eq_getElem (h.length ▸ hinside)⟩
    obtain ⟨k, run, hrun, hline⟩ := h.runs i _ hget
    rw [hget, ← hline]
    exact hrun.findLine_eq h.canonical.increasing (Nat.zero_le k)
      (Array.getElem?_eq_some_iff.mp hrun.isAt).1 (Nat.le_refl _)
  next hbehind =>
    exact (List.getElem?_eq_none (h.length ▸ Nat.le_of_not_lt hbehind)).symm

/-- What leaves the table and the length of the code alone leaves the encoding alone. -/
theorem Encodes.of_eq (h : c.Encodes given) (hlines : c'.lines = c.lines)
    (hsize : c'.size = c.size) :
    c'.Encodes given where
  length := h.length.trans hsize.symm
  canonical :=
    { empty_iff := by
        rw [hlines, h.canonical.empty_iff, ← Array.size_eq_zero_iff, ← Array.size_eq_zero_iff]
        exact iff_of_eq (congrArg (· = 0) hsize.symm)
      first := hlines ▸ h.canonical.first
      increasing := hlines ▸ h.canonical.increasing
      below := hlines ▸ hsize ▸ h.canonical.below
      distinct := hlines ▸ h.canonical.distinct }
  runs := hlines ▸ h.runs

/-! ### Appending a byte -/

/-- Writing a byte makes the code one byte longer. -/
theorem size_write (c : Chunk) (byte : UInt8) (line : Nat) :
    (c.write byte line).size = c.size + 1 := by
  rw [size, code_write, Array.size_push]
  rfl

/-- A byte with the line of the last run extends that run. -/
theorem lines_write_same (byte : UInt8) (hrun : c.lines.back? = some run) :
    (c.write byte run.line).lines = c.lines := by
  rw [lines_write, hrun, if_pos (by simp)]

/-- A byte with another line starts a run where it stands. -/
theorem lines_write_new (byte : UInt8)
    (hback : ∀ run, c.lines.back? = some run → run.line ≠ line) :
    (c.write byte line).lines = c.lines.push ⟨c.size, line⟩ := by
  rw [lines_write, if_neg]
  intro hany
  obtain ⟨run, hrun, hline⟩ := (Option.any_eq_true _ _).mp hany
  exact hback run hrun (beq_iff_eq.mp hline)

/-- The last run is lengthened. -/
theorem Canonical.write_same (h : c.Canonical) (byte : UInt8) (hrun : c.lines.back? = some run) :
    (c.write byte run.line).Canonical where
  empty_iff := by
    have hne : c.lines ≠ #[] := by
      rintro hempty
      rw [hempty] at hrun
      cases hrun
    rw [lines_write_same byte hrun, code_write]
    exact iff_of_false hne (by simp)
  first := lines_write_same byte hrun ▸ h.first
  increasing := lines_write_same byte hrun ▸ h.increasing
  below := by
    rw [lines_write_same byte hrun, size_write]
    exact fun r hr => Nat.lt_succ_of_lt (h.below r hr)
  distinct := lines_write_same byte hrun ▸ h.distinct

/-- A run begins at the end of the code, behind all others. -/
theorem Canonical.write_new (h : c.Canonical) (byte : UInt8)
    (hback : ∀ run, c.lines.back? = some run → run.line ≠ line) :
    (c.write byte line).Canonical where
  empty_iff := by
    rw [lines_write_new byte hback, code_write]
    exact iff_of_false (by simp) (by simp)
  first run hrun := by
    rw [lines_write_new byte hback, Array.getElem?_push] at hrun
    split at hrun
    next hempty =>
      cases hrun
      have hcode := h.empty_iff.mp (Array.size_eq_zero_iff.mp hempty.symm)
      exact congrArg Array.size hcode
    next => exact h.first run hrun
  increasing := by
    rw [lines_write_new byte hback, Array.toList_push]
    refine List.pairwise_append.mpr ⟨h.increasing, List.pairwise_singleton .., ?_⟩
    exact fun run hrun next hnext => List.mem_singleton.mp hnext ▸ h.below run hrun
  below := by
    rw [lines_write_new byte hback, Array.toList_push, size_write]
    refine List.forall_mem_append.mpr ⟨fun run hrun => ?_, ?_⟩
    · exact Nat.lt_succ_of_lt (h.below run hrun)
    · exact List.forall_mem_singleton.mpr (Nat.lt_succ_self _)
  distinct := by
    rw [lines_write_new byte hback, Array.toList_push]
    refine List.isChain_append.mpr ⟨h.distinct, List.isChain_singleton _, ?_⟩
    intro run hrun next hnext
    rw [Array.getLast?_toList] at hrun
    cases hnext
    exact hback run hrun

/-- Where a table has the runs of some lines and the run of one more behind them, it has the runs of
all of them. -/
theorem runs_concat (hgiven : ∀ i line, given[i]? = some line → ∃ k run, RunAt runs i k run ∧
      run.line = line) (hlast : RunAt runs given.length k run) :
    ∀ i line, (given ++ [run.line])[i]? = some line → ∃ k run, RunAt runs i k run ∧
      run.line = line := by
  intro i line hi
  rcases Nat.lt_trichotomy i given.length with hold | rfl | hbehind
  · rw [List.getElem?_append_left hold] at hi
    exact hgiven i line hi
  · rw [List.getElem?_concat_length] at hi
    exact ⟨k, run, hlast, Option.some.inj hi⟩
  · have hinside := (List.getElem?_eq_some_iff.mp hi).1
    rw [List.length_append, List.length_singleton] at hinside
    omega

/-- A byte of any line is appended: one of the line of the last run lengthens that run, and one of
another line begins a run. -/
theorem Encodes.write (h : c.Encodes given) (byte : UInt8) (line : Nat) :
    (c.write byte line).Encodes (given ++ [line]) := by
  have hlength : (given ++ [line]).length = (c.write byte line).size := by
    rw [size_write, List.length_append, h.length, List.length_singleton]
  by_cases hsame : ∃ run, c.lines.back? = some run ∧ run.line = line
  · obtain ⟨run, hrun, rfl⟩ := hsame
    refine ⟨hlength, h.canonical.write_same byte hrun, ?_⟩
    rw [lines_write_same byte hrun]
    have hbelow := h.canonical.below run (Array.mem_toList_iff.mpr (Array.mem_of_back? hrun))
    exact runs_concat h.runs (runAt_back hrun (h.length ▸ Nat.le_of_lt hbelow))
  · have hback : ∀ run, c.lines.back? = some run → run.line ≠ line :=
      fun run hrun hline => hsame ⟨run, hrun, hline⟩
    refine ⟨hlength, h.canonical.write_new byte hback, ?_⟩
    rw [lines_write_new byte hback]
    have hlast : RunAt (c.lines.push ⟨c.size, line⟩) given.length _ ⟨c.size, line⟩ :=
      runAt_back Array.back?_push (Nat.le_of_eq h.length.symm)
    refine runs_concat (fun i line' hi => ?_) hlast
    obtain ⟨k, run, hrun, hline⟩ := h.runs i line' hi
    have hi : i < c.size := h.length ▸ (List.getElem?_eq_some_iff.mp hi).1
    exact ⟨k, run, hrun.push hi, hline⟩

/-- Bytes that are written together have one line. -/
theorem Encodes.writeBytes (h : c.Encodes given) (bytes : List UInt8) (line : Nat) :
    (c.writeBytes bytes line).Encodes (given ++ List.replicate bytes.length line) := by
  induction bytes generalizing c given with
  | nil => simpa [Chunk.writeBytes] using h
  | cons byte bytes ih =>
      have hrest := ih (h.write byte line)
      rwa [List.append_assoc, List.singleton_append, ← List.replicate_succ] at hrest

/-! ### Histories -/

/-- However a chunk was written, its table encodes the lines that its bytes were given. -/
theorem Logged.encodes {log : Log} (h : Logged Chunk.empty log c) : c.Encodes log.lines := by
  induction h with
  | start => exact encodes_empty
  | write byte line _ ih => exact ih.write byte line
  | opcode op line _ ih => exact ih.write op.toByte line
  | addConstant value _ ih => exact ih.of_eq rfl rfl
  | @writeConstant log c _ value line _ _ hwrite ih =>
      obtain ⟨-, -, rfl⟩ := writeConstant_eq_ok.mp hwrite
      have hadded : (c.addConstant value).2.Encodes log.lines := ih.of_eq rfl rfl
      rw [size_writeLoad, Nat.add_sub_cancel_left, writeLoad_eq]
      exact hadded.writeBytes _ line
  | refused _ _ _ _ ih => exact ih
  | patch16 _ _ _ hpatch ih => exact ih.of_eq (lines_patch16 hpatch) (size_patch16 hpatch)

/-- However a chunk was written, its line table is the run-length encoding of the lines that its
bytes were given, and each byte is found to be of the line that it was given. -/
theorem Logged.canonical_lines {log : Log} (h : Logged Chunk.empty log c) :
    c.Canonical ∧ log.lines.length = c.size ∧ ∀ i, c.lineAt i = log.lines[i]? :=
  ⟨h.encodes.canonical, h.encodes.length, h.encodes.lineAt_eq⟩

/-- A chunk whose lines fall again, with a load that is overwritten. -/
theorem canonical_lines_falling : ∃ log c, Logged Chunk.empty log c ∧ log.lines = [3, 3, 7, 7, 3] ∧
    c.lines = #[⟨0, 3⟩, ⟨2, 7⟩, ⟨4, 3⟩] ∧
    c.Canonical ∧ log.lines.length = c.size ∧ ∀ i, c.lineAt i = log.lines[i]? := by
  have hload : Logged empty _ _ := .writeConstant .nil 7 (.opcode .nil 3 (.write 0 3 .start)) rfl
  have hpatch : Logged empty _ _ :=
    .patch16 2 0x1234 (.write 9 3 (.addConstant (.bool true) hload)) rfl
  exact ⟨_, _, hpatch, rfl, rfl, hpatch.canonical_lines⟩

end Chunk

end LoxBytecode
