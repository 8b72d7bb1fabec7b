import Mathlib
import LoxBytecode.Token.Scan

/-!
# Gaps

What may stand between two tokens can be said without the scanner: blanks, newlines, and comments
with the newline that ends each (`Gap`). Only where the source ends may a comment be left open. A
scan skips a gap (`gap_of_skipGap`), and a gap in front of whatever else it skips whole
(`skipGap_append`).
-/

namespace LoxBytecode

/-- A text of blanks and comments. The last comment may be open when the source ends there. -/
inductive Gap (atEnd : Prop) : List Char → Prop
  | nil : Gap atEnd []
  | blank {c : Char} {cs : List Char} : c = '\n' ∨ isBlank c = true → Gap atEnd cs →
      Gap atEnd (c :: cs)
  | comment {body cs : List Char} : '\n' ∉ body → Gap atEnd cs →
      Gap atEnd ('/' :: '/' :: (body ++ '\n' :: cs))
  | last {body : List Char} : atEnd → '\n' ∉ body → Gap atEnd ('/' :: '/' :: body)

variable {atEnd : Prop} {line : UInt32} {c : Char} {cs gap body : List Char}

/-! ### Lines -/

/-- Without line breaks the line stays the same. -/
theorem lineAfter_zero (line : UInt32) : lineAfter line 0 = line :=
  UInt32.add_zero line

/-- Newlines are counted one by one or all at once. -/
theorem lineAfter_succ (line : UInt32) (n : Nat) :
    lineAfter line (n + 1) = lineAfter (line + 1) n := by
  rw [lineAfter, lineAfter, Nat.add_comm, UInt32.ofNat_add, UInt32.ofNat_one, UInt32.add_assoc]

/-- Line breaks can be passed one part after the other. -/
theorem lineAfter_add (line : UInt32) (m n : Nat) :
    lineAfter line (m + n) = lineAfter (lineAfter line m) n := by
  rw [lineAfter, lineAfter, lineAfter, UInt32.ofNat_add, UInt32.add_assoc]

/-- As long as 32 bits suffice, nothing is lost. -/
theorem toNat_lineAfter {line : UInt32} {n : Nat} (h : line.toNat + n < 2 ^ 32) :
    (lineAfter line n).toNat = line.toNat + n := by
  rw [lineAfter, UInt32.toNat_add, UInt32.toNat_ofNat', Nat.add_mod_mod, Nat.mod_eq_of_lt h]

/-- Behind so many newlines comes any line, be it an earlier one. -/
theorem lineAfter_sub (line endLine : UInt32) :
    lineAfter line (endLine - line).toNat = endLine := by
  rw [lineAfter, UInt32.ofNat_toNat, UInt32.add_comm, UInt32.sub_add_cancel]

/-- The line of a token is one more than the newlines up to its end, as far as 32 bits tell. -/
theorem toNat_lineAfter_one (n : Nat) : (lineAfter 1 n).toNat = (1 + n) % 2 ^ 32 := by
  rw [lineAfter, UInt32.toNat_add, UInt32.toNat_ofNat', Nat.add_mod_mod]
  rfl

/-- A gap that may run to the end may do so where more allows it. -/
theorem Gap.imp {atEnd' : Prop} (hend : atEnd → atEnd') (h : Gap atEnd gap) : Gap atEnd' gap := by
  induction h with
  | nil => exact .nil
  | blank hblank _ ih => exact .blank hblank ih
  | comment hbody _ ih => exact .comment hbody ih
  | last h hbody => exact .last (hend h) hbody

/-! ### Texts that begin with a comment -/

/-- A comment ends with its line, behind which the gap goes on, or with the source. -/
theorem gap_slashes_iff : Gap atEnd ('/' :: '/' :: cs) ↔
    (∃ body rest, cs = body ++ '\n' :: rest ∧ '\n' ∉ body ∧ Gap atEnd rest) ∨
      atEnd ∧ '\n' ∉ cs := by
  constructor
  · intro h
    generalize htext : '/' :: '/' :: cs = text at h
    cases h with
    | nil => cases htext
    | blank hblank _ =>
        obtain ⟨rfl, -⟩ := List.cons_eq_cons.mp htext
        rcases hblank with hblank | hblank <;> cases hblank
    | comment hbody hrest => exact .inl ⟨_, _, by simpa using htext, hbody, hrest⟩
    | last hend hbody =>
        obtain rfl : cs = _ := by simpa using htext
        exact .inr ⟨hend, hbody⟩
  · rintro (⟨body, rest, rfl, hbody, hrest⟩ | ⟨hend, hbody⟩)
    · exact .comment hbody hrest
    · exact .last hend hbody

/-- A comment goes on with one more character. -/
theorem gap_slashes_cons (hc : c ≠ '\n') :
    Gap atEnd ('/' :: '/' :: c :: cs) ↔ Gap atEnd ('/' :: '/' :: cs) := by
  have hmem (cs : List Char) : '\n' ∈ c :: cs ↔ '\n' ∈ cs := by simp [Ne.symm hc]
  rw [gap_slashes_iff, gap_slashes_iff, hmem]
  refine or_congr_left ⟨?_, ?_⟩
  · rintro ⟨body, rest, htext, hbody, hrest⟩
    cases body with
    | nil => exact absurd (List.cons_eq_cons.mp htext).1 hc
    | cons d body =>
        obtain ⟨rfl, rfl⟩ := List.cons_eq_cons.mp htext
        exact ⟨body, rest, rfl, mt (hmem body).mpr hbody, hrest⟩
  · rintro ⟨body, rest, rfl, hbody, hrest⟩
    exact ⟨c :: body, rest, rfl, mt (hmem body).mp hbody, hrest⟩

/-! ### What a scan skips -/

/-- A gap with newlines that are counted, and what is behind it. Where it begins in a comment, it
began with the two slashes. -/
def Skips (line : UInt32) (inComment : Bool) (cs : List Char) (endLine : UInt32)
    (rest : List Char) : Prop :=
  ∃ gap, cs = gap ++ rest ∧ Gap (rest = []) (if inComment then '/' :: '/' :: gap else gap) ∧
    endLine = lineAfter line (gap.count '\n')

section

variable {endLine : UInt32} {inComment : Bool} {rest : List Char}

/-- A line break is skipped, and ends a comment. -/
theorem Skips.newline (h : Skips (line + 1) false cs endLine rest) :
    Skips line inComment ('\n' :: cs) endLine rest := by
  obtain ⟨gap, hcs, hgap, hline⟩ := h
  refine ⟨'\n' :: gap, congrArg ('\n' :: ·) hcs, ?_, ?_⟩
  · cases inComment with
    | false => exact .blank (.inl rfl) hgap
    | true => exact @Gap.comment _ [] _ List.not_mem_nil hgap
  · rw [hline, List.count_cons_self, lineAfter_succ]

/-- A blank is skipped, and in a comment everything but a line break. -/
theorem Skips.cons (hc : c ≠ '\n') (hskip : (inComment || isBlank c) = true)
    (h : Skips line inComment cs endLine rest) : Skips line inComment (c :: cs) endLine rest := by
  obtain ⟨gap, hcs, hgap, hline⟩ := h
  refine ⟨c :: gap, congrArg (c :: ·) hcs, ?_, by rw [hline, List.count_cons_of_ne hc]⟩
  cases inComment with
  | false => exact .blank (.inr hskip) hgap
  | true => exact (gap_slashes_cons hc).mpr hgap

/-- The first slash is a part of the gap, the second is its first character in the comment. -/
theorem Skips.slashes (h : Skips line true ('/' :: cs) endLine rest) :
    Skips line false ('/' :: '/' :: cs) endLine rest := by
  obtain ⟨gap, hcs, hgap, hline⟩ := h
  have hslash : '/' ≠ '\n' := by decide
  refine ⟨'/' :: gap, congrArg ('/' :: ·) hcs, ?_, by rw [hline, List.count_cons_of_ne hslash]⟩
  cases gap with
  | nil =>
      -- A comment without text is left open, but there is a slash ahead.
      rcases gap_slashes_iff.mp hgap with ⟨body, rest', htext, -⟩ | ⟨hend, -⟩
      · simp at htext
      · rw [hend] at hcs
        cases hcs
  | cons d gap =>
      obtain ⟨rfl, -⟩ := List.cons_eq_cons.mp hcs
      exact (gap_slashes_cons hslash).mp hgap

end

/-- What a scan skips is a gap, whose newlines it counts. -/
theorem gap_of_skipGap (line : UInt32) (inComment : Bool) (cs : List Char) :
    Skips line inComment cs (skipGap line inComment cs).1 (skipGap line inComment cs).2 := by
  induction cs generalizing line inComment with
  | nil =>
      refine ⟨[], rfl, ?_, (lineAfter_zero line).symm⟩
      cases inComment with
      | false => exact .nil
      | true => exact .last rfl List.not_mem_nil
  | cons c cs ih =>
      rw [skipGap]
      split
      next hnewline =>
        rw [hnewline]
        exact (ih (line + 1) false).newline
      next hnewline =>
        split
        next hskip => exact (ih line inComment).cons hnewline hskip
        next hskip =>
          obtain rfl : inComment = false := by
            cases inComment with
            | false => rfl
            | true => exact absurd rfl hskip
          split
          next hslashes =>
            obtain ⟨rfl, hhead⟩ := hslashes
            obtain ⟨cs, rfl⟩ : ∃ ds, cs = '/' :: ds := List.head?_eq_some_iff.mp hhead
            exact (ih line true).slashes
          next => exact ⟨[], rfl, .nil, (lineAfter_zero line).symm⟩

/-- What ends a gap belongs to none. -/
theorem not_blank_of_skipGap {line startLine : UInt32} {inComment : Bool} {cs rest : List Char}
    {c : Char} (h : skipGap line inComment cs = (startLine, c :: rest)) :
    c ≠ '\n' ∧ isBlank c = false := by
  induction cs generalizing line inComment with
  | nil => cases h
  | cons d ds ih =>
      rw [skipGap] at h
      split at h
      · exact ih h
      next hnewline =>
        split at h
        · exact ih h
        next hblank =>
          split at h
          · exact ih h
          · cases h
            simp only [Bool.or_eq_true, not_or, Bool.not_eq_true] at hblank
            exact ⟨hnewline, hblank.2⟩

/-- A comment is skipped up to the end of its line. -/
theorem skipGap_comment (hbody : '\n' ∉ body) (cs : List Char) :
    skipGap line true (body ++ '\n' :: cs) = skipGap (line + 1) false cs := by
  induction body with
  | nil => rfl
  | cons c body ih =>
      have hc : c ≠ '\n' := Ne.symm (List.ne_of_not_mem_cons hbody)
      rw [List.cons_append, skipGap, if_neg hc]
      exact ih (List.not_mem_of_not_mem_cons hbody)

/-- In front of whatever else, a gap is skipped whole. -/
theorem skipGap_append (h : Gap False gap) (cs : List Char) :
    skipGap line false (gap ++ cs) = skipGap (lineAfter line (gap.count '\n')) false cs := by
  induction h generalizing line with
  | nil => rw [List.count_nil, lineAfter_zero, List.nil_append]
  | @blank c gap hblank _ ih =>
      rw [List.cons_append, skipGap]
      split
      next hc =>
        rw [ih, hc, List.count_cons_self, lineAfter_succ]
      next hc =>
        rw [Bool.false_or, if_pos (hblank.resolve_left hc), ih, List.count_cons_of_ne hc]
  | @comment body gap hbody _ ih =>
      have hskip : skipGap line false ('/' :: '/' :: (body ++ '\n' :: (gap ++ cs))) =
          skipGap line true (body ++ '\n' :: (gap ++ cs)) := rfl
      have hcount : ('/' :: '/' :: (body ++ '\n' :: gap)).count '\n' = gap.count '\n' + 1 := by
        simp [List.count_eq_zero.mpr hbody]
      rw [List.cons_append, List.cons_append, List.append_assoc, List.cons_append, hskip,
        skipGap_comment hbody, ih, hcount, lineAfter_succ]
  | last hend => exact hend.elim

/-- A run of newlines is a gap. -/
theorem skipGap_newlines (line : UInt32) (n : Nat) (cs : List Char) :
    skipGap line false (List.replicate n '\n' ++ cs) = skipGap (lineAfter line n) false cs := by
  have hgap : Gap False (List.replicate n '\n') := by
    induction n with
    | zero => exact .nil
    | succ n ih => exact .blank (.inl rfl) ih
  rw [skipGap_append hgap, List.count_replicate_self]

end LoxBytecode
