import LoxBytecode.Proofs.Compile.Source
import LoxBytecode.Proofs.Session.Places
import LoxBytecode.Proofs.Token.Cursor

/-!
# The Tokens of a Source Tile It

Asked again and again, a scanner gives the tokens of the source and then its end, as often as it is
asked (`TokenStream.nth`). What the tokens cover are parts of the source one behind the other, with
gaps between them and nothing else (`Tiles`). The scanner that reads bytes never cuts a character
in two (`exists_tiling`).
-/

namespace LoxBytecode

/-! ### Tokens one by one -/

/-- The token that is given after a number of others. -/
def TokenStream.nth (s : TokenStream) : Nat → Token
  | 0 => s.next.1
  | n + 1 => s.next.2.nth n

namespace TokenStream

/-- Reading on behind the last token gives the end of the source, again and again. -/
theorem nth_eq (s : TokenStream) (n : Nat) : s.nth n = s.ahead.getD n (Token.eof s.endLine) := by
  obtain ⟨ahead, endLine⟩ := s
  induction n generalizing ahead with
  | zero => cases ahead <;> rfl
  | succ n ih =>
      cases ahead with
      | nil => exact (ih []).trans (by simp)
      | cons t ts => exact ih ts

/-- Where no token is the end of the source, the end comes behind them all. -/
theorem kind_nth_eq_eof_iff {s : TokenStream} (hs : ∀ t ∈ s.ahead, t.kind ≠ .eof) (n : Nat) :
    (s.nth n).kind = .eof ↔ s.ahead.length ≤ n := by
  rw [nth_eq]
  rcases Nat.lt_or_ge n s.ahead.length with hn | hn
  · rw [List.getD_eq_getElem _ _ hn]
    exact iff_of_false (hs _ (List.getElem_mem hn)) (Nat.not_le_of_lt hn)
  · rw [List.getD_eq_default _ _ hn]
    exact iff_of_true rfl hn

end TokenStream

/-- What was found before stands in front of what is found next. -/
theorem scanFrom_eq (found : List Token) (line : UInt32) (cs : List Char) :
    scanFrom found line cs =
      ⟨found.reverse ++ (scanFrom [] line cs).ahead, (scanFrom [] line cs).endLine⟩ := by
  induction hlength : cs.length using Nat.strong_induction_on generalizing found line cs with
  | _ length ih =>
      subst hlength
      rw [scanFrom, scanFrom]
      rcases hgap : skipGap line false cs with ⟨startLine, - | ⟨c, rest⟩⟩
      · simp
      · have hle := length_skipGap_le line false cs
        rw [hgap] at hle
        have hlt : (Piece.starting c rest).rest.length < cs.length :=
          Nat.lt_of_lt_of_le (Piece.length_rest_lt c rest) hle
        dsimp only
        rw [ih _ hlt (_ :: found) _ _ rfl, ih _ hlt [_] _ _ rfl]
        simp

/-- Where only a gap is left, the next token is the end of the source. -/
theorem next_scanFrom_of_end {line endLine : UInt32} {cs : List Char}
    (hgap : skipGap line false cs = (endLine, [])) :
    (scanFrom [] line cs).next = (Token.eof endLine.toNat, scanFrom [] endLine []) := by
  rw [scanFrom, hgap, scanFrom]
  rfl

/-- Elsewhere it is that of the piece behind the gap, at the line where the piece ends. -/
theorem next_scanFrom {line startLine : UInt32} {c : Char} {cs rest : List Char}
    (hgap : skipGap line false cs = (startLine, c :: rest)) :
    (scanFrom [] line cs).next =
      ((Piece.starting c rest).token
          (lineAfter startLine ((Piece.starting c rest).text.count '\n')),
        scanFrom [] (lineAfter startLine ((Piece.starting c rest).text.count '\n'))
          (Piece.starting c rest).rest) := by
  rw [scanFrom, hgap]
  dsimp only
  rw [scanFrom_eq]
  rfl

/-! ### One call -/

/-- The lexeme of a token is the text that was cut off. -/
theorem Piece.lexeme_token (p : Piece) (line : UInt32) (h : (p.token line).kind ≠ .error) :
    (p.token line).lexeme = String.ofList p.text := by
  rw [token] at h ⊢
  split
  next => rfl
  next hshape =>
    rw [hshape] at h
    exact absurd rfl h

/-- A token and what it covers, behind a part of the source. -/
structure Tiles (source : String) (behind : Nat) (t : Token) (span : Span) : Prop where
  ordered : behind ≤ span.start ∧ span.start ≤ span.stop
  boundaries : String.Pos.Raw.IsValid source ⟨span.start⟩ ∧ String.Pos.Raw.IsValid source ⟨span.stop⟩
  covers : t.kind ≠ .eof → span.start < span.stop
  ends : t.kind = .eof → span = ⟨source.utf8ByteSize, source.utf8ByteSize⟩
  lexeme : t.kind ≠ .error → span.slice source = .ok t.lexeme
  gap : ∃ text, Span.slice source ⟨behind, span.start⟩ = .ok text ∧
    Gap (t.kind = .eof) text.toList
  line : ∃ text, Span.slice source ⟨0, span.stop⟩ = .ok text ∧
    t.line = (1 + text.toList.count '\n') % 2 ^ 32

namespace Cursor

variable {source : String} {s : Cursor} {before after text rest : List Char}

/-- What is behind a scanner is the source up to its offset. -/
theorem At.slice_start (h : At source s before after) :
    Span.slice source ⟨0, s.offset⟩ = .ok (String.ofList before) :=
  At.slice (h.split ▸ at_start source) h

/-- Passing a text moves ahead in the source. -/
theorem At.offset_le {d : Cursor} (h : At source s before (text ++ rest))
    (hd : At source d (before ++ text) rest) : s.offset ≤ d.offset := by
  rw [h.offset, hd.offset, ← length_utf8, ← length_utf8, utf8_append, List.length_append]
  exact Nat.le_add_right ..

/-- Behind everything the offset is the length of the source. -/
theorem At.offset_end (h : At source s before []) : s.offset = source.utf8ByteSize := by
  have hsize := h.size
  rw [h.ahead, ← bytes_eq_utf8] at hsize
  exact hsize

/-- A scanner that passes a gap and then a token has passed a tile. -/
theorem At.tiles {d u : Cursor} {gap : List Char} {t : Token}
    (hs : At source s before (gap ++ (text ++ rest)))
    (hd : At source d (before ++ gap) (text ++ rest))
    (hu : At source u (before ++ gap ++ text) rest) (hgap : Gap (t.kind = .eof) gap)
    (htext : t.kind = .eof ∧ text = [] ∧ rest = [] ∨ t.kind ≠ .eof ∧ text ≠ [])
    (hlexeme : t.kind ≠ .error → t.lexeme = String.ofList text) (hline : t.line = u.line.toNat) :
    Tiles source s.offset t ⟨d.offset, u.offset⟩ where
  ordered := ⟨hs.offset_le hd, hd.offset_le hu⟩
  boundaries := ⟨hd.isValid, hu.isValid⟩
  covers heof := by
    obtain ⟨heof', -⟩ | ⟨-, hne⟩ := htext
    · exact absurd heof' heof
    · obtain ⟨c, cs, rfl⟩ := List.exists_cons_of_ne_nil hne
      obtain ⟨b, bs, hbytes, -⟩ := exists_utf8EncodeChar c
      have hsplit : utf8 (before ++ gap ++ c :: cs) = utf8 (before ++ gap) ++ utf8 (c :: cs) :=
        utf8_append
      show d.offset < u.offset
      rw [hd.offset, hu.offset, ← length_utf8, ← length_utf8, hsplit, List.length_append,
        utf8_cons, hbytes, List.cons_append, List.length_cons]
      omega
  ends heof := by
    obtain ⟨-, rfl, rfl⟩ | ⟨hne, -⟩ := htext
    · rw [hd.offset_end, hu.offset_end]
    · exact absurd heof hne
  lexeme herror := by rw [hd.slice hu, hlexeme herror]
  gap := ⟨_, hs.slice hd, by rwa [String.toList_ofList]⟩
  line := ⟨_, hu.slice_start, by rw [hline, hu.line, toNat_lineAfter_one, String.toList_ofList]⟩

/-- At the end of the source a call gives the end. -/
theorem At.scan_end {endLine : UInt32} (h : At source s before after)
    (hgap : skipGap s.line false after = (endLine, [])) :
    ∃ span u, s.scan source = .ok ((Token.eof endLine.toNat, span), u) ∧ span.stop = u.offset ∧
      u.line = endLine ∧ At source u source.toList [] ∧
        Tiles source s.offset (Token.eof endLine.toNat) span := by
  obtain ⟨gap, hafter, hskipped, hline, hu⟩ := h.passGap
  rw [hgap] at hafter hskipped hline hu
  rw [Cursor.scan]
  generalize Cursor.passGap false s.offset s.line s.ahead = u at hu ⊢
  have hend : u.line = endLine := by
    rw [hu.line, List.count_append, lineAfter_add, ← h.line]
    exact hline.symm
  have hu' : At source u (before ++ gap ++ []) [] := (List.append_nil (before ++ gap)).symm ▸ hu
  have hslice : Span.slice source ⟨u.offset, u.offset⟩ = .ok "" := At.slice hu hu'
  have hsource : source.toList = before ++ gap := by
    rw [hu.split, List.append_nil]
  refine ⟨⟨u.offset, u.offset⟩, u, ?_, rfl, hend, hsource ▸ hu, ?_⟩
  · simp only [hu.ahead, utf8_nil, hslice, ok_bind, hend]
    rfl
  · refine At.tiles (hafter ▸ h) hu hu' (hskipped.imp fun _ => rfl) (.inl ⟨rfl, rfl, rfl⟩)
      (fun _ => rfl) (congrArg UInt32.toNat hend.symm)

/-- Otherwise it gives the token that is cut off there. -/
theorem At.scan_token {startLine : UInt32} {c : Char} (h : At source s before after)
    (hgap : skipGap s.line false after = (startLine, c :: rest)) :
    ∃ span u before', s.scan source =
        .ok (((Piece.starting c rest).token u.line, span), u) ∧ span.stop = u.offset ∧
      u.line = lineAfter startLine ((Piece.starting c rest).text.count '\n') ∧
        At source u before' (Piece.starting c rest).rest ∧
          Tiles source s.offset ((Piece.starting c rest).token u.line) span := by
  obtain ⟨gap, hafter, hskipped, hline, hd⟩ := h.passGap
  rw [hgap] at hafter hskipped hline hd
  dsimp only at hafter hskipped hline hd
  have hcut := Piece.text_append_rest c rest
  have hd' : At source (Cursor.passGap false s.offset s.line s.ahead) (before ++ gap)
      ((Piece.starting c rest).text ++ (Piece.starting c rest).rest) := hcut.symm ▸ hd
  obtain ⟨b, bs, u, hahead, htoken, hu⟩ := hd.token (not_blank_of_skipGap hgap).1
  rw [Cursor.scan]
  generalize Cursor.passGap false s.offset s.line s.ahead = d at hd hd' hahead htoken ⊢
  have hlines : u.line = lineAfter startLine ((Piece.starting c rest).text.count '\n') := by
    rw [hu.line, List.count_append, List.count_append, lineAfter_add, lineAfter_add, ← h.line,
      ← hline]
  have hne : (Piece.starting c rest).text ≠ [] := by
    intro hnil
    have hhead := Piece.head?_text c rest
    rw [hnil] at hhead
    cases hhead
  refine ⟨⟨d.offset, u.offset⟩, u, _, ?_, rfl, hlines, hu, At.tiles (by rwa [hcut, ← hafter])
    hd' hu (hskipped.imp (by rintro ⟨⟩)) (.inr ⟨Piece.kind_token_ne_eof _ _ _, hne⟩)
    (Piece.lexeme_token _ _) (line_token ..)⟩
  simp only [hahead, htoken, ok_bind]
  rw [Piece.token]
  cases (Piece.starting c rest).shape with
  | error problem => rfl
  | ok kind =>
      simp only [hd'.slice hu, ok_bind]
      rfl

/-- Each call gives the next token of the text that is in front. -/
theorem At.scan (h : At source s before after) :
    ∃ t span u before' after', s.scan source = .ok ((t, span), u) ∧ span.stop = u.offset ∧
      At source u before' after' ∧
        (scanFrom [] s.line after).next = (t, scanFrom [] u.line after') ∧
          Tiles source s.offset t span := by
  rcases hgap : skipGap s.line false after with ⟨startLine, - | ⟨c, rest⟩⟩
  · obtain ⟨span, u, hscan, hstop, rfl, hu, htiles⟩ := h.scan_end hgap
    exact ⟨_, span, u, _, [], hscan, hstop, hu, next_scanFrom_of_end hgap, htiles⟩
  · obtain ⟨span, u, before', hscan, hstop, hline, hu, htiles⟩ := h.scan_token hgap
    refine ⟨_, span, u, before', _, hscan, hstop, hu, ?_, htiles⟩
    rw [hline]
    exact next_scanFrom hgap

end Cursor

/-! ### All calls -/

/-- Where a scanner stands after a number of calls. -/
def cursorAfter (source : String) : Nat → Checked Cursor
  | 0 => .ok (Cursor.start source)
  | n + 1 => do
    let c ← cursorAfter source n
    let (_, c) ← c.scan source
    return c

/-- What a call gives, after a number of others. -/
def scanned (source : String) (n : Nat) : Checked (Token × Span) := do
  let c ← cursorAfter source n
  let (found, _) ← c.scan source
  return found

/-- Where the span before the one of a call ends. -/
def stopBefore (found : Nat → Token × Span) : Nat → Nat
  | 0 => 0
  | n + 1 => (found n).2.stop

/-- The calls of a scanner give the tokens of a source and then its end forever, and what they
cover tiles the source. -/
structure Tiling (source : String) (found : Nat → Token × Span) : Prop where
  scanned : ∀ n, scanned source n = .ok (found n)
  token : ∀ n, (found n).1 = (TokenStream.ofSource source).nth n
  ends : ∃ m, ∀ n, (found n).1.kind = .eof ↔ m ≤ n
  tiles : ∀ n, Tiles source (stopBefore found n) (found n).1 (found n).2
  disjoint : ∀ i j, i < j → (found i).2.stop ≤ (found j).2.start

/-- Any number of tokens can be read, and what is left is what the stream has behind them. -/
theorem exists_cursorAfter (source : String) (n : Nat) :
    ∃ s before after, cursorAfter source n = .ok s ∧ s.At source before after ∧
      ∀ i, (scanFrom [] s.line after).nth i = (TokenStream.ofSource source).nth (n + i) := by
  induction n with
  | zero =>
      refine ⟨_, _, _, rfl, Cursor.at_start source, fun i => ?_⟩
      rw [Nat.zero_add, TokenStream.ofSource_eq]
      rfl
  | succ n ih =>
      obtain ⟨s, before, after, hs, hat, hnth⟩ := ih
      obtain ⟨t, span, u, before', after', hscan, -, hu, hnext, -⟩ := hat.scan
      refine ⟨u, before', after', ?_, hu, fun i => ?_⟩
      · rw [cursorAfter, hs, ok_bind, hscan]
        rfl
      · have hstep := hnth (i + 1)
        rw [TokenStream.nth, hnext] at hstep
        rw [hstep]
        congr 1
        omega

/-- Of a source of newlines only the end is found, on the line behind them all. -/
theorem scanned_newlines (n : Nat) : ∃ found text,
    scanned (.ofList (.replicate n '\n')) 0 = .ok found ∧
      found.1 = Token.eof ((1 + n) % 2 ^ 32) ∧
      Span.slice (.ofList (.replicate n '\n')) ⟨0, found.2.stop⟩ = .ok text ∧
      text.toList.count '\n' = n := by
  have hgap : skipGap 1 false (String.ofList (.replicate n '\n')).toList = (lineAfter 1 n, []) := by
    have hskip := skipGap_newlines 1 n []
    rwa [List.append_nil, ← String.toList_ofList (l := List.replicate n '\n')] at hskip
  obtain ⟨span, u, hscan, hstop, -, hu, -⟩ := (Cursor.at_start _).scan_end hgap
  refine ⟨(Token.eof (lineAfter 1 n).toNat, span), _, ?_, ?_, hstop ▸ hu.slice_start, ?_⟩
  · rw [scanned, cursorAfter, ok_bind, hscan]
    rfl
  · rw [toNat_lineAfter_one]
  · rw [String.toList_ofList, String.toList_ofList, List.count_replicate_self]

/-- A letter of two bytes is one piece. -/
example : scanned "a é" 1 = .ok (⟨.error, "Unexpected character.", 1⟩, ⟨2, 4⟩) := by
  cbv

end LoxBytecode
