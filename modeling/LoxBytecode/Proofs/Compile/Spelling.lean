import Mathlib
import LoxBytecode.Proofs.Compile.Lexemes
import LoxBytecode.Proofs.Session.Naming
import LoxBytecode.Proofs.Session.Places
import LoxBytecode.Proofs.Token.Munch

/-!
# Sources under Other Names

Whatever the identifiers of a source are to be called, there is a source with these tokens
(`TokenStream.exists_rename`): the tokens are written one after the other with a blank behind
each, and with as many newlines in front as there were in the gap. With a blank behind it, a
piece is cut off where it ended before, and so is an identifier that is put in its place.
-/

namespace LoxBytecode

/-! ### Identifiers -/

namespace Piece

variable {c : Char} {cs : List Char} {kind : TokenKind}

/-- What begins with no letter is no identifier. -/
theorem ne_identifier (hc : ¬ isWordStart c = true) (h : (starting c cs).shape = .ok kind) :
    kind ≠ .identifier := by
  rintro rfl
  unfold starting at h
  rw [if_neg hc] at h
  split at h
  · cases h
  · split at h <;> first
      | cases h
      | (unfold orEqual at h; split at h <;> cases h)
      | (unfold string at h; split at h <;> cases h)

/-- A word is an identifier when it is not reserved. -/
theorem isIdentifier_word (hc : isWordStart c = true) :
    isIdentifier (String.ofList (word c cs).text) =
      (TokenKind.keyword? (String.ofList (word c cs).text)).isNone := by
  have hparts : (cs.takeWhile isWordPart).all isWordPart = true := List.all_takeWhile
  rw [isIdentifier, String.toList_ofList]
  show (isWordStart c && (cs.takeWhile isWordPart).all isWordPart && _) = _
  rw [hc, hparts]
  rfl

/-- A piece is spelled like an identifier if and only if it is one. -/
theorem isIdentifier_text (h : (starting c cs).shape = .ok kind) :
    isIdentifier (String.ofList (starting c cs).text) = true ↔ kind = .identifier := by
  by_cases hc : isWordStart c = true
  · have hword : starting c cs = word c cs := if_pos hc
    rw [hword] at h ⊢
    have hkind : (TokenKind.keyword? (String.ofList (word c cs).text)).getD .identifier = kind :=
      Except.ok.inj h
    rw [isIdentifier_word hc, ← hkind]
    cases hreserved : TokenKind.keyword? (String.ofList (word c cs).text) with
    | none => exact iff_of_true rfl rfl
    | some k =>
        obtain ⟨before, after, hwords, -⟩ := List.lookup_eq_some_iff.mp hreserved
        have hmem : (String.ofList (word c cs).text, k) ∈ TokenKind.keywords :=
          hwords ▸ List.mem_append_right _ (List.mem_cons_self ..)
        refine iff_of_false Bool.false_ne_true ?_
        rintro rfl
        simp [TokenKind.keywords] at hmem
  · refine iff_of_false ?_ (ne_identifier hc h)
    have hhead := head?_text c cs
    rw [isIdentifier, String.toList_ofList]
    cases htext : (starting c cs).text with
    | nil => exact Bool.false_ne_true
    | cons d ds =>
        rw [htext] at hhead
        obtain rfl : d = c := Option.some.inj hhead
        simp [hc]

end Piece

/-- Identifiers are told by their texts. -/
theorem TokenStream.named_of_mem_ofSource (source : String) :
    ∀ t ∈ (ofSource source).ahead, t.Named := by
  refine forall_mem_ofSource (fun c cs line => ?_) source
  rw [Piece.token]
  split
  next kind hkind => exact Piece.isIdentifier_text hkind
  next problem _ =>
    have hmessage : isIdentifier problem.message ≠ true := by
      cases problem <;> decide
    exact iff_of_false hmessage (by rintro ⟨⟩)

/-! ### Pieces with a blank behind them -/

namespace Piece

variable {c : Char} {cs : List Char} {shape : Except LexicalProblem TokenKind}

/-- With a blank behind it, this text is cut off. -/
def Cuts (shape : Except LexicalProblem TokenKind) (c : Char) (cs : List Char) : Prop :=
  ∀ after, starting c (cs ++ ' ' :: after) = ⟨shape, c :: cs, ' ' :: after⟩

/-- A text that ends as a piece of some shape is cut off as one of that shape. -/
theorem Ends.cuts (h : Ends shape c cs) : Cuts shape c cs :=
  fun after => h _ (parted_blank after)

/-- An operator is cut off alike whatever follows it. -/
theorem exists_cuts_orEqual {alone withEqual : TokenKind}
    (hc : ∀ cs, starting c cs = orEqual alone withEqual c cs) (cs : List Char) :
    ∃ ds, (orEqual alone withEqual c cs).text = c :: ds ∧
      Cuts (orEqual alone withEqual c cs).shape c ds := by
  obtain ⟨halone, hequal⟩ := ends_orEqual hc
  rw [orEqual.eq_def]
  split
  · exact ⟨['='], rfl, hequal.cuts⟩
  · exact ⟨[], rfl, halone.cuts⟩

/-- Unless a string is open, a blank can be put behind a piece. -/
theorem exists_cuts (c : Char) (cs : List Char)
    (h : (starting c cs).shape ≠ .error .unterminatedString) :
    ∃ ds, (starting c cs).text = c :: ds ∧ Cuts (starting c cs).shape c ds := by
  by_cases hword : isWordStart c = true
  · have hstarting : starting c cs = word c cs := if_pos hword
    rw [hstarting]
    exact ⟨_, rfl, (ends_word hword fun d hd => List.mem_takeWhile_imp hd).cuts⟩
  by_cases hdigit : c.isDigit = true
  · have hstarting : starting c cs = number c cs := (if_neg hword).trans (if_pos hdigit)
    rw [hstarting]
    exact ⟨_, rfl, (ends_number hdigit (fun d hd => List.mem_takeWhile_imp hd)
      (isFraction_fraction _)).cuts⟩
  rw [starting.eq_def, if_neg hword, if_neg hdigit] at h ⊢
  split at h
  case h_1 | h_2 | h_3 | h_4 | h_5 | h_6 | h_7 | h_8 | h_9 | h_10 | h_11 =>
    exact ⟨[], rfl, fun _ => rfl⟩
  case h_12 | h_13 | h_14 | h_15 => exact exists_cuts_orEqual (fun _ => rfl) cs
  case h_16 =>
    rw [string.eq_def] at h ⊢
    split at h
    · exact absurd rfl h
    next q rest hrest =>
      have hquote := List.head?_dropWhile_not (· != '"') cs
      rw [hrest] at hquote
      obtain rfl : q = '"' := by simpa using hquote
      refine ⟨_, rfl, (ends_string fun hmem => ?_).cuts⟩
      simpa using List.mem_takeWhile_imp (p := (· != '"')) hmem
  case h_17 =>
    refine ⟨[], rfl, fun after => ?_⟩
    rw [starting.eq_def, if_neg hword, if_neg hdigit]
    split <;> first | rfl | contradiction

/-- An open string goes on to the end of the source. -/
theorem rest_of_unterminated (h : (starting c cs).shape = .error .unterminatedString) :
    (starting c cs).rest = [] := by
  rw [starting.eq_def] at h ⊢
  split at h
  · cases h
  next hword =>
    rw [if_neg hword]
    split at h
    · cases h
    next hdigit =>
      rw [if_neg hdigit]
      split at h
      case h_16 =>
        rw [string.eq_def] at h ⊢
        split at h
        next => rfl
        next => cases h
      all_goals first
        | cases h
        | (rw [orEqual.eq_def] at h; split at h <;> cases h)

/-- A slash has nothing more in its text. -/
theorem eq_nil_of_cuts_slash (h : Cuts shape '/' cs) : cs = [] := by
  have htext := congrArg Piece.text (h [])
  exact (List.cons_eq_cons.mp htext).2.symm

/-- The identifier that is put in the place of a piece. -/
theorem exists_cuts_identifier {text : String} (h : isIdentifier text = true) :
    ∃ c cs, text = String.ofList (c :: cs) ∧ isWordStart c = true ∧
      (∀ d ∈ cs, isWordPart d = true) ∧ Cuts (.ok .identifier) c cs := by
  have htext : text = String.ofList text.toList := String.ofList_toList.symm
  rw [isIdentifier] at h
  split at h
  · cases h
  next c cs hcons =>
    rw [hcons] at htext
    simp only [Bool.and_eq_true, List.all_eq_true, Option.isNone_iff_eq_none] at h
    obtain ⟨⟨hc, hcs⟩, hreserved⟩ := h
    refine ⟨c, cs, htext, hc, hcs, ?_⟩
    have hcuts := (ends_word hc hcs).cuts
    rwa [← htext, hreserved] at hcuts

/-- A word has no line breaks. -/
theorem count_newline_word (hc : isWordStart c = true) (hcs : ∀ d ∈ cs, isWordPart d = true) :
    (c :: cs).count '\n' = 0 := by
  have hpart : isWordPart c = true := by
    rw [isWordPart, hc]
    rfl
  refine List.count_eq_zero.mpr fun hmem => ?_
  have hparts : ∀ d ∈ c :: cs, isWordPart d = true := List.forall_mem_cons.mpr ⟨hpart, hcs⟩
  exact (not_blank_of_isWordPart (hparts _ hmem)).1 rfl

/-- In the place of a piece comes the identifier with the other name, or the piece stays. -/
theorem exists_cuts_rename (ρ : Identifier ↪ Identifier)
    (h : (starting c cs).shape ≠ .error .unterminatedString) (hc : c ≠ '\n' ∧ isBlank c = false) :
    ∃ c' cs', Cuts (starting c cs).shape c' cs' ∧ (c' ≠ '\n' ∧ isBlank c' = false) ∧
      (c' :: cs').count '\n' = (starting c cs).text.count '\n' ∧
      ∀ line, (Piece.mk (starting c cs).shape (c' :: cs') []).token line =
        ((starting c cs).token line).rename ρ := by
  by_cases hident : (starting c cs).shape = .ok .identifier
  · have hold := (isIdentifier_text hident).mpr rfl
    obtain ⟨d, ds, htext, hd, hds, -⟩ := exists_cuts_identifier hold
    obtain ⟨d', ds', htext', hd', hds', hcuts⟩ :=
      exists_cuts_identifier (ρ ⟨String.ofList (starting c cs).text, hold⟩).2
    have hpart : isWordPart d' = true := by
      rw [isWordPart, hd']
      rfl
    have hcount : (starting c cs).text.count '\n' = 0 := by
      rw [String.ofList_injective htext]
      exact count_newline_word hd hds
    refine ⟨d', ds', hident ▸ hcuts, not_blank_of_isWordPart hpart,
      (count_newline_word hd' hds').trans hcount.symm, fun line => ?_⟩
    rw [token, token, hident, Token.rename, if_pos rfl, Identifier.rename, dif_pos hold, htext']
  · obtain ⟨ds, htext, hcuts⟩ := exists_cuts c cs h
    refine ⟨c, ds, hcuts, hc, by rw [htext], fun line => ?_⟩
    have hkind : ((starting c cs).token line).kind ≠ .identifier := by
      rw [token]
      split
      next kind hshape => exact fun hkind => hident (hkind ▸ hshape)
      next => rintro ⟨⟩
    rw [Token.rename, if_neg hkind, token, token, htext]

end Piece

/-! ### Scans -/

/-- The text of a piece with a blank behind it is cut off, and the scan goes on behind. -/
theorem scanFrom_cuts {shape : Except LexicalProblem TokenKind} {c : Char} {cs : List Char}
    (h : Piece.Cuts shape c cs) (hc : c ≠ '\n' ∧ isBlank c = false) (found : List Token)
    (line : UInt32) (after : List Char) :
    scanFrom found line (c :: (cs ++ ' ' :: after)) =
      scanFrom ((Piece.mk shape (c :: cs) []).token (lineAfter line ((c :: cs).count '\n')) :: found)
        (lineAfter line ((c :: cs).count '\n')) after := by
  have hcomment : ¬ (c = '/' ∧ (cs ++ ' ' :: after).head? = some '/') := by
    rintro ⟨rfl, hhead⟩
    rw [Piece.eq_nil_of_cuts_slash h] at hhead
    cases hhead
  have hgap : skipGap line false (c :: (cs ++ ' ' :: after)) =
      (line, c :: (cs ++ ' ' :: after)) := by
    rw [skipGap, if_neg hc.1, Bool.false_or, hc.2, if_neg Bool.false_ne_true, if_neg hcomment]
  rw [scanFrom, hgap]
  dsimp only
  rw [h after]
  exact scanFrom_of_skipGap rfl

/-- Where only a gap is left, there is nothing to rename. -/
theorem scanFrom_rename_of_end (ρ : Identifier ↪ Identifier) {line endLine : UInt32}
    {cs : List Char}
    (hgap : skipGap line false cs = (endLine, [])) (found : List Token) :
    scanFrom (found.map (Token.rename ρ)) line cs = (scanFrom found line cs).rename ρ := by
  rw [scanFrom, hgap, scanFrom, hgap]
  exact congrArg (TokenStream.mk · endLine.toNat) List.map_reverse.symm

/-- The rest of a source can be spelled with the names replaced, from any place on. -/
theorem exists_scanFrom_rename (ρ : Identifier ↪ Identifier) (found : List Token) (line : UInt32)
    (cs : List Char) : ∃ cs', ∀ found, scanFrom (found.map (Token.rename ρ)) line cs' =
      (scanFrom found line cs).rename ρ := by
  induction found, line, cs using scanFrom.induct with
  | case1 _ line cs endLine hgap => exact ⟨cs, scanFrom_rename_of_end ρ hgap⟩
  | case2 _ line cs startLine c rest hgap piece endLine ih =>
      have hscan (found : List Token) : scanFrom found line cs =
          scanFrom (piece.token endLine :: found) endLine piece.rest := by
        rw [scanFrom, hgap]
      by_cases hopen : piece.shape = .error .unterminatedString
      · refine ⟨cs, fun found => ?_⟩
        have htoken : piece.token endLine = (piece.token endLine).rename ρ := by
          rw [Piece.token, hopen]
          rfl
        rw [hscan, hscan, Piece.rest_of_unterminated hopen,
          ← scanFrom_rename_of_end ρ rfl, List.map_cons, ← htoken]
      · obtain ⟨cs', ih⟩ := ih
        obtain ⟨c', ds', hcuts, hc', hcount, htoken⟩ :=
          Piece.exists_cuts_rename ρ hopen (not_blank_of_skipGap hgap)
        refine ⟨List.replicate (startLine - line).toNat '\n' ++ c' :: (ds' ++ ' ' :: cs'),
          fun found => ?_⟩
        rw [scanFrom_of_skipGap (skipGap_newlines ..), lineAfter_sub, scanFrom_cuts hcuts hc', hcount, htoken, hscan, ← ih, List.map_cons]

/-- Whatever the identifiers of a source are to be called, there is a source with these tokens. -/
theorem TokenStream.exists_rename (ρ : Identifier ↪ Identifier) (source : String) :
    ∃ source', ofSource source' = (ofSource source).rename ρ := by
  obtain ⟨cs', h⟩ := exists_scanFrom_rename ρ [] 1 source.toList
  refine ⟨String.ofList cs', ?_⟩
  rw [ofSource_eq, ofSource_eq, String.toList_ofList]
  exact h []

end LoxBytecode
