import Mathlib
import LoxBytecode.Token.Scan

/-!
# Characters as Bytes

An ASCII character is one byte. Any other is one that continues no character and some that do, and
none of its bytes is the byte of an ASCII character (`exists_utf8EncodeChar`). So a class of
characters that holds all or none of those beyond ASCII can be asked of bytes as well, one by one
(`Uniform.dropWhile_utf8`).
-/

namespace LoxBytecode

/-! ### Characters as bytes -/

/-- The bytes of some characters. -/
def utf8 (cs : List Char) : List UInt8 :=
  cs.flatMap String.utf8EncodeChar

/-- Whether a byte continues a character. -/
def isContinuation (b : UInt8) : Bool :=
  b &&& 0xC0 == 0x80

section

variable {c d : Char} {cs cs' : List Char} {b : UInt8} {q : Char → Bool}

@[simp] theorem utf8_nil : utf8 [] = [] :=
  rfl

@[simp] theorem utf8_cons : utf8 (c :: cs) = String.utf8EncodeChar c ++ utf8 cs :=
  rfl

@[simp] theorem utf8_append : utf8 (cs ++ cs') = utf8 cs ++ utf8 cs' :=
  List.flatMap_append

/-- Characters take as many bytes as their encoded length. -/
theorem length_utf8 (cs : List Char) : (utf8 cs).length = String.utf8Len cs := by
  induction cs with
  | nil => rfl
  | cons c cs ih =>
      rw [utf8_cons, List.length_append, String.length_utf8EncodeChar, ih, String.utf8Len_cons,
        Nat.add_comm]

/-- The bytes of a source are those of its characters. -/
theorem bytes_eq_utf8 (source : String) : source.toUTF8.data.toList = utf8 source.toList := by
  conv_lhs => rw [String.toUTF8_eq_toByteArray, ← String.ofList_toList (s := source),
    String.toByteArray_ofList, List.utf8Encode, List.data_toByteArray]
  rfl

/-- An ASCII character is one byte. -/
theorem utf8EncodeChar_of_lt (hc : c.toNat < 128) : String.utf8EncodeChar c = [c.toUInt8] := by
  have hle : c.val.toNat ≤ 127 := Nat.le_of_lt_succ hc
  simp only [String.utf8EncodeChar, if_pos hle]
  rfl

/-- A byte read as a character has its code. -/
theorem toNat_ofUInt8 (b : UInt8) : (Char.ofUInt8 b).toNat = b.toNat :=
  UInt8.toNat_toUInt32 b

/-- A character of one byte is read back from it. -/
theorem ofUInt8_toUInt8 (hc : c.toNat < 128) : Char.ofUInt8 c.toUInt8 = c := by
  have hlt : c.val.toNat < 256 := Nat.lt_of_lt_of_le hc (by decide)
  apply Char.toNat_inj.mp
  show c.val.toUInt8.toUInt32.toNat = c.val.toNat
  rw [UInt8.toNat_toUInt32, UInt32.toNat_toUInt8, Nat.mod_eq_of_lt hlt]

/-- The bytes inside a character are those from 128 to 191. -/
theorem isContinuation_ofNat {n : Nat} (hn : n < 256) :
    isContinuation (.ofNat n) = decide (128 ≤ n ∧ n < 192) := by
  revert n
  decide +kernel

/-- Any other character is a byte that continues none and some that do. None of them is the byte
of an ASCII character. -/
theorem exists_utf8EncodeChar_of_le (hc : 128 ≤ c.toNat) :
    ∃ b bs, String.utf8EncodeChar c = b :: bs ∧
      (128 ≤ b.toNat ∧ isContinuation b = false) ∧
        ∀ d ∈ bs, 128 ≤ d.toNat ∧ isContinuation d = true := by
  have hlead {n : Nat} (hn : 192 ≤ n) (hn' : n < 256) :
      128 ≤ (UInt8.ofNat n).toNat ∧ isContinuation (.ofNat n) = false := by
    rw [isContinuation_ofNat hn', UInt8.toNat_ofNat_of_lt' hn']
    exact ⟨by omega, decide_eq_false (by omega)⟩
  have hmore (n : Nat) :
      128 ≤ (UInt8.ofNat (n % 64 + 128)).toNat ∧ isContinuation (.ofNat (n % 64 + 128)) = true := by
    have hn : n % 64 + 128 < 256 := by omega
    rw [isContinuation_ofNat hn, UInt8.toNat_ofNat_of_lt' hn]
    exact ⟨by omega, decide_eq_true (by omega)⟩
  have hlt : ¬ c.val.toNat ≤ 127 := Nat.not_le_of_lt hc
  simp only [String.utf8EncodeChar, if_neg hlt]
  split
  next =>
    exact ⟨_, _, rfl, hlead (by omega) (by omega), List.forall_mem_singleton.mpr (hmore _)⟩
  next =>
    split
    next =>
      exact ⟨_, _, rfl, hlead (by omega) (by omega), List.forall_mem_cons.mpr
        ⟨hmore _, List.forall_mem_singleton.mpr (hmore _)⟩⟩
    next =>
      exact ⟨_, _, rfl, hlead (by omega) (by omega), List.forall_mem_cons.mpr
        ⟨hmore _, List.forall_mem_cons.mpr ⟨hmore _, List.forall_mem_singleton.mpr (hmore _)⟩⟩⟩

/-! ### Classes of characters -/

/-- A class that does not tell apart the characters beyond ASCII. -/
def Uniform (q : Char → Bool) : Prop :=
  ∀ c d : Char, 128 ≤ c.toNat → 128 ≤ d.toNat → q c = q d

/-- Each byte of a character is in a class just when the character is. -/
theorem Uniform.byte (hq : Uniform q) (hb : b ∈ String.utf8EncodeChar c) :
    q (.ofUInt8 b) = q c := by
  rcases Nat.lt_or_ge c.toNat 128 with hc | hc
  · rw [utf8EncodeChar_of_lt hc] at hb
    rw [List.mem_singleton.mp hb, ofUInt8_toUInt8 hc]
  · obtain ⟨lead, more, hbytes, hlead, hmore⟩ := exists_utf8EncodeChar_of_le hc
    have hle : 128 ≤ b.toNat := by
      rw [hbytes, List.mem_cons] at hb
      rcases hb with rfl | hb
      · exact hlead.1
      · exact (hmore b hb).1
    exact hq _ _ (toNat_ofUInt8 b ▸ hle) hc

/-- A character begins with a byte that continues none. It is all of the character, or no byte of
the character is ASCII. -/
theorem exists_utf8EncodeChar (c : Char) :
    ∃ b bs, String.utf8EncodeChar c = b :: bs ∧
      (isContinuation b = false ∧ ∀ d ∈ bs, isContinuation d = true) ∧
        (bs = [] ∧ .ofUInt8 b = c ∨
          128 ≤ c.toNat ∧ ∀ d ∈ b :: bs, 128 ≤ (Char.ofUInt8 d).toNat) := by
  rcases Nat.lt_or_ge c.toNat 128 with hc | hc
  · have hb : isContinuation c.toUInt8 = false := by
      have hlt : c.val.toNat < 256 := Nat.lt_of_lt_of_le hc (by decide)
      have hof : c.toUInt8 = .ofNat c.val.toNat := rfl
      rw [hof, isContinuation_ofNat hlt]
      exact decide_eq_false fun h => Nat.not_le_of_lt hc h.1
    exact ⟨c.toUInt8, [], utf8EncodeChar_of_lt hc, ⟨hb, List.forall_mem_nil _⟩,
      .inl ⟨rfl, ofUInt8_toUInt8 hc⟩⟩
  · obtain ⟨b, bs, hbytes, hb, hbs⟩ := exists_utf8EncodeChar_of_le hc
    refine ⟨b, bs, hbytes, ⟨hb.2, fun d hd => (hbs d hd).2⟩, .inr ⟨hc, fun d hd => ?_⟩⟩
    rw [toNat_ofUInt8]
    rcases List.mem_cons.mp hd with rfl | hd
    · exact hb.1
    · exact (hbs d hd).1

/-- Skipping bytes that satisfy a uniform condition skips the characters that do. -/
theorem Uniform.dropWhile_utf8 (hq : Uniform q) (cs : List Char) :
    (utf8 cs).dropWhile (fun b => q (.ofUInt8 b)) = utf8 (cs.dropWhile q) := by
  induction cs with
  | nil => rfl
  | cons c cs ih =>
      by_cases hc : q c = true
      · rw [utf8_cons, List.dropWhile_append_of_pos fun b hb => (hq.byte hb).trans hc, ih,
          List.dropWhile_cons_of_pos hc]
      · obtain ⟨b, bs, hbytes, -⟩ := exists_utf8EncodeChar c
        have hb : ¬ q (.ofUInt8 b) = true := by rwa [hq.byte (hbytes ▸ List.mem_cons_self ..)]
        rw [List.dropWhile_cons_of_neg hc, utf8_cons, hbytes, List.cons_append]
        exact List.dropWhile_cons_of_neg hb

/-- The first byte of a text is in a class when the first character is. -/
theorem Uniform.any_head?_utf8 (hq : Uniform q) (cs : List Char) :
    (utf8 cs).head?.any (fun b => q (.ofUInt8 b)) = cs.head?.any q := by
  cases cs with
  | nil => rfl
  | cons c cs =>
      obtain ⟨b, bs, hbytes, -⟩ := exists_utf8EncodeChar c
      rw [utf8_cons, hbytes]
      exact hq.byte (hbytes ▸ List.mem_cons_self ..)

/-- No letter and no digit is beyond ASCII. -/
theorem not_word_of_le (hc : 128 ≤ c.toNat) : isWordStart c = false ∧ c.isDigit = false := by
  have hle : ∀ n : UInt32, n.toNat < 128 → ¬ c.val ≤ n := fun n hn hle =>
    Nat.not_le_of_lt hn (Nat.le_trans hc (UInt32.le_iff_toNat_le.mp hle))
  have hunderscore : c ≠ '_' := by
    rintro rfl
    exact absurd hc (by decide)
  constructor
  · simp [isWordStart, Char.isAlpha, Char.isUpper, Char.isLower, hle, hunderscore]
  · simp [Char.isDigit, hle]

/-- Whether a character can stand in a word shows on any of its bytes. -/
theorem uniform_isWordPart : Uniform isWordPart := by
  have hnone {c : Char} (hc : 128 ≤ c.toNat) : isWordPart c = false := by
    rw [isWordPart, (not_word_of_le hc).1, (not_word_of_le hc).2]
    rfl
  exact fun c d hc hd => (hnone hc).trans (hnone hd).symm

/-- Whether a character is a digit shows on any of its bytes. -/
theorem uniform_isDigit : Uniform Char.isDigit :=
  fun _ _ hc hd => (not_word_of_le hc).2.trans (not_word_of_le hd).2.symm

/-- A character of several bytes is none of one byte. -/
theorem ne_of_le (hd : d.toNat < 128) (hc : 128 ≤ c.toNat) : c ≠ d := by
  rintro rfl
  omega

/-- Whether a character is a given one of one byte shows on any of its bytes. -/
theorem uniform_beq (hd : d.toNat < 128) : Uniform (· == d) :=
  fun _ _ hc hc' => (beq_false_of_ne (ne_of_le hd hc)).trans (beq_false_of_ne (ne_of_le hd hc')).symm

/-- A character of several bytes is no blank. -/
theorem isBlank_of_le (hc : 128 ≤ c.toNat) : isBlank c = false := by
  have hne (d : Char) (hd : d.toNat < 128) : (c == d) = false := beq_false_of_ne (ne_of_le hd hc)
  rw [isBlank, hne ' ' (by decide), hne '\r' (by decide), hne '\t' (by decide)]
  rfl

end

end LoxBytecode
