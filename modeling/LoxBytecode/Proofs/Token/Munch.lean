import LoxBytecode.Proofs.Token.Gaps

/-!
# Where a Token Ends

A token goes on for as long as it can. In front of the end of the source, of a blank or of a
newline, no token goes on (`Parted`), so that it is cut off there whatever comes behind
(`Piece.Ends`).
-/

namespace LoxBytecode

/-- A text in front of which no token but a string goes on. -/
def Parted (after : List Char) : Prop :=
  ∀ c ∈ after.head?, c = '\n' ∨ isBlank c = true

/-- Behind a blank any piece begins on its own. -/
theorem parted_blank (after : List Char) : Parted (' ' :: after) := by
  rintro c ⟨⟩
  exact .inr rfl

/-- In front of the end of the source any piece has ended. -/
theorem parted_nil : Parted [] := by
  rintro c ⟨⟩

namespace Piece

variable {c d : Char} {cs ds after places : List Char} {shape : Except LexicalProblem TokenKind}

/-! ### Characters that go on -/

/-- A letter, a digit or an underscore is no blank. -/
theorem not_blank_of_isWordPart (h : isWordPart d = true) : d ≠ '\n' ∧ isBlank d = false := by
  refine ⟨?_, ?_⟩
  · rintro rfl
    cases h
  · by_contra hblank
    rw [Bool.not_eq_false, isBlank] at hblank
    simp only [Bool.or_eq_true, beq_iff_eq] at hblank
    rcases hblank with (rfl | rfl) | rfl <;> cases h

/-- Digits may stand in names. -/
theorem isWordPart_of_isDigit (h : d.isDigit = true) : isWordPart d = true := by
  rw [isWordPart, h, Bool.or_true]

/-- No name begins with a digit. -/
theorem not_isWordStart_of_isDigit (h : d.isDigit = true) : ¬ isWordStart d = true := by
  have hlt : d.val.toNat ≤ 57 := by
    rw [Char.isDigit, Bool.and_eq_true, decide_eq_true_eq, decide_eq_true_eq] at h
    exact UInt32.le_iff_toNat_le.mp h.2
  have hle (n : UInt32) (hn : 57 < n.toNat) : ¬ n ≤ d.val := fun hle =>
    Nat.not_le_of_lt hn (Nat.le_trans (UInt32.le_iff_toNat_le.mp hle) hlt)
  have hunderscore : d ≠ '_' := by
    rintro rfl
    cases h
  simp [isWordStart, Char.isAlpha, Char.isUpper, Char.isLower, hle, hunderscore]

/-- A run of characters of a class that holds no blank ends there. -/
theorem takeWhile_parted {p : Char → Bool} (hp : ∀ c, p c = true → c ≠ '\n' ∧ isBlank c = false)
    (hcs : ∀ d ∈ cs, p d = true) (h : Parted after) :
    (cs ++ after).takeWhile p = cs ∧ (cs ++ after).dropWhile p = after := by
  rw [List.takeWhile_append_of_pos hcs, List.dropWhile_append_of_pos hcs]
  cases after with
  | nil => simp
  | cons c after =>
      have hc : ¬ p c = true := fun hpc => (h c rfl).elim (hp c hpc).1 (by simp [(hp c hpc).2])
      rw [List.takeWhile_cons_of_neg hc, List.dropWhile_cons_of_neg hc, List.append_nil]
      exact ⟨rfl, rfl⟩

/-! ### Texts that are cut off -/

/-- Whatever is behind it, this text is cut off. -/
def Ends (shape : Except LexicalProblem TokenKind) (c : Char) (cs : List Char) : Prop :=
  ∀ after, Parted after → starting c (cs ++ after) = ⟨shape, c :: cs, after⟩

/-- A word ends where no part of a word follows. -/
theorem ends_word (hc : isWordStart c = true) (hcs : ∀ d ∈ cs, isWordPart d = true) :
    Ends (.ok ((TokenKind.keyword? (String.ofList (c :: cs))).getD .identifier)) c cs := by
  intro after hafter
  obtain ⟨htake, hdrop⟩ := takeWhile_parted (fun _ => not_blank_of_isWordPart) hcs hafter
  have hstarting : starting c (cs ++ after) = word c (cs ++ after) := if_pos hc
  rw [hstarting, word, htake, hdrop]

/-! ### Numbers -/

/-- Without a point there are no places. -/
theorem fraction_of_ne (hc : c ≠ '.') (cs : List Char) : fraction (c :: cs) = ([], c :: cs) := by
  rw [fraction.eq_def]
  split
  next heq => exact absurd (List.cons_eq_cons.mp heq).1 hc
  next => rfl

/-- A point only begins places if a digit follows. -/
theorem fraction_point (cs : List Char) :
    fraction ('.' :: cs) =
      if cs.head?.any Char.isDigit then ('.' :: cs.takeWhile Char.isDigit, cs.dropWhile Char.isDigit)
      else ([], '.' :: cs) := by
  cases cs <;> rfl

/-- Nothing that begins on its own is taken for places. -/
theorem fraction_parted (h : Parted after) : fraction after = ([], after) := by
  cases after with
  | nil => rfl
  | cons c after =>
      refine fraction_of_ne ?_ after
      rintro rfl
      rcases h '.' rfl with hblank | hblank <;> cases hblank

/-- What may follow the digits of a number: nothing, or a point and more digits. -/
def IsFraction (places : List Char) : Prop :=
  places = [] ∨ ∃ f fs, places = '.' :: f :: fs ∧ ∀ d ∈ f :: fs, d.isDigit = true

/-- What is cut off are places. -/
theorem isFraction_fraction (cs : List Char) : IsFraction (fraction cs).1 := by
  cases cs with
  | nil => exact .inl rfl
  | cons c cs =>
      by_cases hc : c = '.'
      · subst hc
        rw [fraction_point]
        split
        next hdigit =>
          obtain ⟨d, ds, rfl⟩ : ∃ d ds, cs = d :: ds := by
            cases cs with
            | nil => cases hdigit
            | cons d ds => exact ⟨d, ds, rfl⟩
          refine .inr ⟨d, ds.takeWhile Char.isDigit, ?_, ?_⟩
          · exact congrArg ('.' :: ·) (List.takeWhile_cons_of_pos hdigit)
          · exact List.forall_mem_cons.mpr ⟨hdigit, fun e he => List.mem_takeWhile_imp he⟩
        next => exact .inl rfl
      · rw [fraction_of_ne hc]
        exact .inl rfl

/-- Places are cut off whole. -/
theorem IsFraction.fraction_append (hplaces : IsFraction places) (h : Parted after) :
    fraction (places ++ after) = (places, after) := by
  rcases hplaces with rfl | ⟨f, fs, rfl, hdigits⟩
  · exact fraction_parted h
  · obtain ⟨htake, hdrop⟩ :=
      takeWhile_parted (fun _ hd => not_blank_of_isWordPart (isWordPart_of_isDigit hd)) hdigits h
    rw [List.cons_append, fraction_point, htake, hdrop]
    exact if_pos (List.forall_mem_cons.mp hdigits).1

/-- A number ends where neither a digit nor places follow. -/
theorem ends_number (hc : c.isDigit = true) (hds : ∀ d ∈ ds, d.isDigit = true)
    (hplaces : IsFraction places) : Ends (.ok .number) c (ds ++ places) := by
  intro after hafter
  have hstarting (cs : List Char) : starting c cs = number c cs :=
    (if_neg (not_isWordStart_of_isDigit hc)).trans (if_pos hc)
  have hstop : (places ++ after).takeWhile Char.isDigit = [] ∧
      (places ++ after).dropWhile Char.isDigit = places ++ after := by
    rcases hplaces with rfl | ⟨f, fs, rfl, -⟩
    · exact takeWhile_parted (fun _ hd => not_blank_of_isWordPart (isWordPart_of_isDigit hd))
        (List.forall_mem_nil _) hafter
    · exact ⟨List.takeWhile_cons_of_neg (by decide), List.dropWhile_cons_of_neg (by decide)⟩
  rw [hstarting, number, List.append_assoc, List.takeWhile_append_of_pos hds,
    List.dropWhile_append_of_pos hds, hstop.1, hstop.2, hplaces.fraction_append hafter,
    List.append_nil]

/-! ### Strings and punctuation -/

/-- A string ends with the first quote. -/
theorem ends_string (hbody : '"' ∉ cs) : Ends (.ok .string) '"' (cs ++ ['"']) := by
  intro after _
  have hgo : ∀ d ∈ cs, (d != '"') = true := fun d hd => by
    simpa using ne_of_mem_of_not_mem hd hbody
  have htake : (cs ++ '"' :: after).takeWhile (· != '"') = cs := by
    rw [List.takeWhile_append_of_pos hgo, List.takeWhile_cons_of_neg (by decide), List.append_nil]
  have hdrop : (cs ++ '"' :: after).dropWhile (· != '"') = '"' :: after := by
    rw [List.dropWhile_append_of_pos hgo, List.dropWhile_cons_of_neg (by decide)]
  have hstarting (cs : List Char) : starting '"' cs = string '"' cs := rfl
  rw [hstarting, List.append_assoc, List.singleton_append, string, htake, hdrop]

/-- A character that may have `=` behind it. -/
theorem ends_orEqual {alone withEqual : TokenKind}
    (hc : ∀ cs, starting c cs = orEqual alone withEqual c cs) :
    Ends (.ok alone) c [] ∧ Ends (.ok withEqual) c ['='] := by
  refine ⟨fun after hafter => ?_, fun after _ => hc _⟩
  rw [hc, List.nil_append, orEqual.eq_def]
  split
  next rest =>
    rcases hafter '=' rfl with hblank | hblank <;> cases hblank
  next => rfl

/-- A slash has nothing more in its text. -/
theorem eq_nil_of_ends_slash (h : Ends shape '/' cs) : cs = [] := by
  have htext := congrArg Piece.text (h [] parted_nil)
  exact (List.cons_eq_cons.mp htext).2.symm

end Piece

/-! ### Scans -/

/-- A scan goes on as what is behind the gap says. -/
theorem scanFrom_of_skipGap {found : List Token} {line line' : UInt32} {cs cs' : List Char}
    (h : skipGap line false cs = skipGap line' false cs') :
    scanFrom found line cs = scanFrom found line' cs' := by
  cases hgap : skipGap line' false cs' with
  | mk startLine rest =>
  rw [hgap] at h
  cases rest with
  | nil => rw [scanFrom, h, scanFrom, hgap]
  | cons c cs => rw [scanFrom, h, scanFrom, hgap]

/-- The text of a piece is cut off, and the scan goes on behind. -/
theorem scanFrom_ends {shape : Except LexicalProblem TokenKind} {c : Char} {cs after : List Char}
    (h : Piece.Ends shape c cs) (hc : c ≠ '\n' ∧ isBlank c = false) (hafter : Parted after)
    (found : List Token) (line : UInt32) :
    scanFrom found line (c :: (cs ++ after)) =
      scanFrom ((Piece.mk shape (c :: cs) []).token (lineAfter line ((c :: cs).count '\n')) :: found)
        (lineAfter line ((c :: cs).count '\n')) after := by
  have hcomment : ¬ (c = '/' ∧ (cs ++ after).head? = some '/') := by
    rintro ⟨rfl, hhead⟩
    rw [Piece.eq_nil_of_ends_slash h] at hhead
    rcases hafter '/' hhead with hblank | hblank <;> cases hblank
  have hgap : skipGap line false (c :: (cs ++ after)) = (line, c :: (cs ++ after)) := by
    rw [skipGap, if_neg hc.1, Bool.false_or, hc.2, if_neg Bool.false_ne_true, if_neg hcomment]
  rw [scanFrom, hgap]
  dsimp only
  rw [h after hafter]
  rfl

/-! ### The front of a source -/

/-- From a position on newlines are passed, and only these: so many lines on, behind that many
characters. -/
theorem passNewlines_eq {source : String} (n : Nat) (line : UInt32) {before after : List Char}
    (hsource : source = String.ofList (before ++ after)) :
    ∃ k rest, after = List.replicate k '\n' ++ rest ∧
      passNewlines source n line ⟨String.utf8Len before⟩ =
        (lineAfter line k, ⟨String.utf8Len (before ++ List.replicate k '\n')⟩) := by
  induction n generalizing line before after with
  | zero => exact ⟨0, after, rfl, by rw [lineAfter_zero]; simp [passNewlines]⟩
  | succ n ih =>
      have hget : (String.Pos.Raw.mk (String.utf8Len before)).get source = after.headD default :=
        hsource ▸ String.get_of_valid before after
      rw [passNewlines, hget]
      split
      next hnewline =>
        obtain ⟨after, rfl⟩ : ∃ cs, after = '\n' :: cs := by
          cases after with
          | nil => exact absurd hnewline (by decide)
          | cons c cs => exact ⟨cs, congrArg (· :: cs) hnewline⟩
        have hnext : (String.Pos.Raw.mk (String.utf8Len before)).next source =
            ⟨String.utf8Len (before ++ ['\n'])⟩ := by
          rw [hsource, String.next_of_valid, String.utf8Len_append]
          rfl
        obtain ⟨k, rest, rfl, hpass⟩ := @ih (line + 1) (before ++ ['\n']) after (by simpa using hsource)
        refine ⟨k + 1, rest, rfl, ?_⟩
        rw [hnext, hpass, lineAfter_succ, List.replicate_succ, List.append_assoc]
        rfl
      next => exact ⟨0, after, rfl, by rw [lineAfter_zero]; simp⟩

/-- The tokens of a source are found character by character from its first line on. -/
theorem TokenStream.ofSource_eq (source : String) :
    ofSource source = scanFrom [] 1 source.toList := by
  obtain ⟨k, rest, htext, hpass⟩ :=
    @passNewlines_eq source source.utf8ByteSize 1 [] source.toList String.ofList_toList.symm
  have hzero : (0 : String.Pos.Raw) = ⟨String.utf8Len []⟩ := rfl
  have hrest : (String.Pos.Raw.mk (String.utf8Len (List.replicate k '\n'))).extract source
      source.rawEndPos = String.ofList rest := by
    have hsource : source = String.ofList (List.replicate k '\n' ++ rest ++ []) := by
      rw [List.append_nil, ← htext, String.ofList_toList]
    have hend : source.rawEndPos =
        ⟨String.utf8Len (List.replicate k '\n') + String.utf8Len rest⟩ := by
      conv_lhs => rw [hsource]
      rw [String.rawEndPos_ofList, List.append_nil, String.utf8Len_append]
    rw [hend]
    conv_lhs => rw [hsource]
    exact String.extract_of_valid (List.replicate k '\n') rest []
  rw [ofSource, hzero, hpass, List.nil_append]
  dsimp only
  rw [hrest, String.toList_ofList, htext]
  exact scanFrom_of_skipGap (skipGap_newlines 1 k rest).symm

end LoxBytecode
