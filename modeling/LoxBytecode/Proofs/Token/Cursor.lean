import LoxBytecode.Fault
import LoxBytecode.Proofs.Token.Bytes
import LoxBytecode.Proofs.Token.Munch

/-!
# Scanning Bytes

A source is held as bytes, and a scanner may as well read those: it steps from byte to byte, looks
one or two bytes ahead, and cuts what it has passed out of the source by byte offsets
(`Cursor.scan`). Inside a character of more than one byte such a cut is a fault (`Span.slice`).

It finds the tokens that are found character by character (`Cursor.At.scan`), since all that it
passes is whole characters (`Cursor.At`).
-/

namespace LoxBytecode

/-! ### The scanner -/

/-- A part of a source, by the offsets of its first byte and of the byte behind it. -/
structure Span where
  start : Nat
  stop : Nat
deriving DecidableEq, Repr

/-- The text of a span. Cutting a character in two is a fault. -/
def Span.slice (source : String) (span : Span) : Checked String :=
  if String.Pos.Raw.IsValid source ⟨span.start⟩ ∧ String.Pos.Raw.IsValid source ⟨span.stop⟩ ∧
      span.start ≤ span.stop then
    .ok (String.Pos.Raw.extract source ⟨span.start⟩ ⟨span.stop⟩)
  else .error .indexOutOfBounds

/-- How far a scanner has come: the number of bytes behind it, the line, and the bytes ahead. -/
structure Cursor where
  offset : Nat
  line : UInt32
  ahead : List UInt8
deriving DecidableEq, Repr

namespace Cursor

/-- In front of a source. -/
def start (source : String) : Cursor :=
  ⟨0, 1, source.toUTF8.data.toList⟩

/-- Pass the bytes at the front that are of a class. None of them is a newline. -/
def passWhile (p : UInt8 → Bool) (offset : Nat) (line : UInt32) : List UInt8 → Cursor
  | [] => ⟨offset, line, []⟩
  | b :: bs => if p b then passWhile p (offset + 1) line bs else ⟨offset, line, b :: bs⟩

/-- Pass a gap. -/
def passGap (inComment : Bool) (offset : Nat) (line : UInt32) : List UInt8 → Cursor
  | [] => ⟨offset, line, []⟩
  | b :: bs =>
    let c := Char.ofUInt8 b
    if c = '\n' then passGap false (offset + 1) (line + 1) bs
    else if inComment || isBlank c then passGap inComment (offset + 1) line bs
    else if c = '/' ∧ bs.head?.any (Char.ofUInt8 · == '/') then passGap true (offset + 1) line bs
    else ⟨offset, line, b :: bs⟩

/-- Pass the text of a string up to its quote. -/
def passBody (offset : Nat) (line : UInt32) : List UInt8 → Cursor
  | [] => ⟨offset, line, []⟩
  | b :: bs =>
    let c := Char.ofUInt8 b
    if c = '"' then ⟨offset, line, b :: bs⟩
    else passBody (offset + 1) (if c = '\n' then line + 1 else line) bs

/-- What a scanner has found once it has passed a token. -/
abbrev Found :=
  Except LexicalProblem TokenKind × Cursor

/-- Pass a word. What kind it is its text tells. -/
def word (source : String) (start : Nat) (c : Cursor) : Checked Found := do
  let d := passWhile (fun b => isWordPart (.ofUInt8 b)) c.offset c.line c.ahead
  let text ← Span.slice source ⟨start, d.offset⟩
  return (.ok ((TokenKind.keyword? text).getD .identifier), d)

/-- Pass a point with a digit behind it and the digits from there on. -/
def fraction (c : Cursor) : Cursor :=
  match c.ahead with
  | [] => c
  | b :: bs =>
    if Char.ofUInt8 b = '.' ∧ bs.head?.any fun d => (Char.ofUInt8 d).isDigit then
      passWhile (fun b => (Char.ofUInt8 b).isDigit) (c.offset + 1) c.line bs
    else c

/-- Pass a number. -/
def number (c : Cursor) : Found :=
  (.ok .number, (passWhile (fun b => (Char.ofUInt8 b).isDigit) c.offset c.line c.ahead).fraction)

/-- Pass a string. -/
def string (c : Cursor) : Found :=
  let d := passBody c.offset c.line c.ahead
  match d.ahead with
  | [] => (.error .unterminatedString, d)
  | _ :: bs => (.ok .string, ⟨d.offset + 1, d.line, bs⟩)

/-- Pass `=` if it is there. -/
def orEqual (alone withEqual : TokenKind) (c : Cursor) : Found :=
  match c.ahead with
  | [] => (.ok alone, c)
  | b :: bs =>
    if Char.ofUInt8 b = '=' then (.ok withEqual, ⟨c.offset + 1, c.line, bs⟩) else (.ok alone, c)

/-- Pass the rest of a token whose first byte has been passed. -/
def token (source : String) (start : Nat) (b : UInt8) (c : Cursor) : Checked Found :=
  let d := Char.ofUInt8 b
  if isWordStart d then word source start c
  else if d.isDigit then .ok c.number
  else match d with
    | '(' => .ok (.ok .leftParen, c)
    | ')' => .ok (.ok .rightParen, c)
    | '{' => .ok (.ok .leftBrace, c)
    | '}' => .ok (.ok .rightBrace, c)
    | ';' => .ok (.ok .semicolon, c)
    | ',' => .ok (.ok .comma, c)
    | '.' => .ok (.ok .dot, c)
    | '-' => .ok (.ok .minus, c)
    | '+' => .ok (.ok .plus, c)
    | '/' => .ok (.ok .slash, c)
    | '*' => .ok (.ok .star, c)
    | '!' => .ok (c.orEqual .bang .bangEqual)
    | '=' => .ok (c.orEqual .equal .equalEqual)
    | '<' => .ok (c.orEqual .less .lessEqual)
    | '>' => .ok (c.orEqual .greater .greaterEqual)
    | '"' => .ok c.string
    | _ => .ok (.error .unexpectedCharacter, passWhile isContinuation c.offset c.line c.ahead)

/-- The next token, what it covers, and where the scanner is then. At the end of the source there
is a token however often it is asked for. -/
def scan (source : String) (c : Cursor) : Checked ((Token × Span) × Cursor) := do
  let c := passGap false c.offset c.line c.ahead
  match c.ahead with
  | [] =>
    let span : Span := ⟨c.offset, c.offset⟩
    let text ← span.slice source
    return ((⟨.eof, text, c.line.toNat⟩, span), c)
  | b :: bs =>
    let (shape, d) ← token source c.offset b ⟨c.offset + 1, c.line, bs⟩
    let span : Span := ⟨c.offset, d.offset⟩
    match shape with
    | .ok kind =>
      let text ← span.slice source
      return ((⟨kind, text, d.line.toNat⟩, span), d)
    | .error problem => return ((⟨.error, problem.message, d.line.toNat⟩, span), d)

/-! ### Passing bytes -/

section

variable {p : UInt8 → Bool} {q : Char → Bool} {offset : Nat} {line : UInt32} {inComment : Bool}
  {bs rest : List UInt8} {cs : List Char}

/-- Passing bytes while they satisfy a condition passes the longest beginning that does. -/
theorem passWhile_eq (p : UInt8 → Bool) (offset : Nat) (line : UInt32) (bs : List UInt8) :
    passWhile p offset line bs =
      ⟨offset + (bs.takeWhile p).length, line, bs.dropWhile p⟩ := by
  induction bs generalizing offset with
  | nil => rfl
  | cons b bs ih =>
      rw [passWhile]
      split
      next hb =>
        rw [ih, List.takeWhile_cons_of_pos hb, List.dropWhile_cons_of_pos hb, List.length_cons]
        congr 1
        omega
      next hb =>
        rw [List.takeWhile_cons_of_neg hb, List.dropWhile_cons_of_neg hb]
        rfl

/-- Whatever is passed of a gap, the offset counts it. -/
theorem size_passGap (inComment : Bool) (offset : Nat) (line : UInt32) (bs : List UInt8) :
    (passGap inComment offset line bs).offset + (passGap inComment offset line bs).ahead.length =
      offset + bs.length := by
  induction bs generalizing inComment offset line with
  | nil => rfl
  | cons b bs ih =>
      have hlength : offset + (b :: bs).length = offset + 1 + bs.length := by
        rw [List.length_cons]
        omega
      rw [passGap, hlength]
      split
      · exact ih ..
      · split
        · exact ih ..
        · split
          · exact ih ..
          · exact hlength

/-- Passing the body of a string loses no byte. -/
theorem size_passBody (offset : Nat) (line : UInt32) (bs : List UInt8) :
    (passBody offset line bs).offset + (passBody offset line bs).ahead.length =
      offset + bs.length := by
  induction bs generalizing offset line with
  | nil => rfl
  | cons b bs ih =>
      have hlength : offset + (b :: bs).length = offset + 1 + bs.length := by
        rw [List.length_cons]
        omega
      rw [passBody, hlength]
      split
      · exact hlength
      · exact ih ..

/-- Bytes beyond ASCII are passed in a comment. -/
theorem passGap_comment (hbs : ∀ b ∈ bs, 128 ≤ (Char.ofUInt8 b).toNat) :
    passGap true offset line (bs ++ rest) = passGap true (offset + bs.length) line rest := by
  induction bs generalizing offset with
  | nil => rfl
  | cons b bs ih =>
      obtain ⟨hb, hbs⟩ := List.forall_mem_cons.mp hbs
      rw [List.cons_append, passGap, if_neg (ne_of_le (by decide) hb), Bool.true_or, if_pos rfl,
        ih hbs, List.length_cons]
      congr 1
      omega

/-- Bytes of a character of several are passed without being looked at. -/
theorem passBody_append (hbs : ∀ b ∈ bs, 128 ≤ (Char.ofUInt8 b).toNat) :
    passBody offset line (bs ++ rest) = passBody (offset + bs.length) line rest := by
  induction bs generalizing offset with
  | nil => rfl
  | cons b bs ih =>
      obtain ⟨hb, hbs⟩ := List.forall_mem_cons.mp hbs
      rw [List.cons_append, passBody, if_neg (ne_of_le (by decide) hb),
        if_neg (ne_of_le (by decide) hb), ih hbs, List.length_cons]
      congr 1
      omega

/-- A gap is passed byte by byte as it is skipped character by character. -/
theorem passGap_utf8 (inComment : Bool) (offset : Nat) (line : UInt32) (cs : List Char) :
    (passGap inComment offset line (utf8 cs)).line = (skipGap line inComment cs).1 ∧
      (passGap inComment offset line (utf8 cs)).ahead = utf8 (skipGap line inComment cs).2 := by
  induction cs generalizing inComment offset line with
  | nil => exact ⟨rfl, rfl⟩
  | cons c cs ih =>
      obtain ⟨b, bs, hbytes, -, ⟨rfl, hb⟩ | ⟨hc, hbs⟩⟩ := exists_utf8EncodeChar c
      · have hslash : (utf8 cs).head?.any (Char.ofUInt8 · == '/') = true ↔ cs.head? = some '/' := by
          rw [(uniform_beq (by decide)).any_head?_utf8]
          cases cs <;> simp
        rw [utf8_cons, hbytes, List.singleton_append, passGap, skipGap]
        simp only [hb, hslash]
        split
        · exact ih ..
        · split
          · exact ih ..
          · split
            · exact ih ..
            · rw [utf8_cons, hbytes]
              exact ⟨rfl, rfl⟩
      · have hnewline : c ≠ '\n' := ne_of_le (by decide) hc
        have hslash : c ≠ '/' := ne_of_le (by decide) hc
        rw [skipGap, if_neg hnewline, isBlank_of_le hc]
        cases inComment with
        | true =>
            rw [utf8_cons, hbytes, passGap_comment hbs]
            exact ih ..
        | false =>
            have hb := hbs b (List.mem_cons_self ..)
            rw [utf8_cons, hbytes, List.cons_append, passGap, if_neg (ne_of_le (by decide) hb),
              isBlank_of_le hb, Bool.or_self, if_neg Bool.false_ne_true, if_neg Bool.false_ne_true,
              if_neg fun h => ne_of_le (by decide) hb h.1, if_neg fun h => hslash h.1, utf8_cons,
              hbytes]
            exact ⟨rfl, rfl⟩

/-- The body of a string ends at its first quote, and its line breaks are counted. -/
theorem passBody_utf8 (offset : Nat) (line : UInt32) (cs : List Char) :
    (passBody offset line (utf8 cs)).line =
        lineAfter line ((cs.takeWhile (· != '"')).count '\n') ∧
      (passBody offset line (utf8 cs)).ahead = utf8 (cs.dropWhile (· != '"')) := by
  induction cs generalizing offset line with
  | nil => exact ⟨(lineAfter_zero line).symm, rfl⟩
  | cons c cs ih =>
      obtain ⟨b, bs, hbytes, -, ⟨rfl, hb⟩ | ⟨hc, hbs⟩⟩ := exists_utf8EncodeChar c
      · rw [utf8_cons, hbytes, List.singleton_append, passBody]
        simp only [hb]
        split
        next hquote =>
          have hstop : ¬ (c != '"') = true := by simp [hquote]
          rw [List.takeWhile_cons_of_neg (p := (· != '"')) hstop,
            List.dropWhile_cons_of_neg (p := (· != '"')) hstop, utf8_cons, hbytes]
          exact ⟨(lineAfter_zero line).symm, rfl⟩
        next hquote =>
          have hgo : (c != '"') = true := by simp [hquote]
          obtain ⟨hline, hahead⟩ := ih (offset + 1) (if c = '\n' then line + 1 else line)
          rw [List.takeWhile_cons_of_pos (p := (· != '"')) hgo,
            List.dropWhile_cons_of_pos (p := (· != '"')) hgo, hline, List.count_cons]
          refine ⟨?_, hahead⟩
          by_cases hnewline : c = '\n'
          · simp only [hnewline, if_true, beq_self_eq_true]
            rw [lineAfter_succ]
          · simp [hnewline]
      · have hgo : (c != '"') = true := by simpa using ne_of_le (by decide) hc
        have hnewline : c ≠ '\n' := ne_of_le (by decide) hc
        rw [utf8_cons, hbytes, passBody_append hbs,
          List.takeWhile_cons_of_pos (p := (· != '"')) hgo,
          List.dropWhile_cons_of_pos (p := (· != '"')) hgo, List.count_cons_of_ne hnewline]
        exact ih ..

end

/-! ### Where a scanner stands -/

/-- A scanner that has passed the characters `before` and has `after` in front of it. -/
structure At (source : String) (c : Cursor) (before after : List Char) : Prop where
  split : source.toList = before ++ after
  size : c.offset + c.ahead.length = (utf8 source.toList).length
  line : c.line = lineAfter 1 (before.count '\n')
  ahead : c.ahead = utf8 after

variable {source : String} {s d : Cursor} {before after text rest cs : List Char} {c : Char}

/-- At the start nothing has been passed. -/
theorem at_start (source : String) : At source (start source) [] source.toList where
  split := rfl
  size := by
    rw [start, bytes_eq_utf8]
    exact Nat.zero_add _
  line := rfl
  ahead := bytes_eq_utf8 source

/-- The offset is the length of what was passed. -/
theorem At.offset (h : At source s before after) : s.offset = String.utf8Len before := by
  have hsize := h.size
  rw [h.ahead, h.split, utf8_append, List.length_append] at hsize
  rw [← length_utf8]
  omega

/-- A place in a text lies between two characters. -/
theorem At.isValid (h : At source s before after) : String.Pos.Raw.IsValid source ⟨s.offset⟩ := by
  refine String.Pos.Raw.isValid_iff_exists_append.mpr
    ⟨String.ofList before, String.ofList after, ?_, ?_⟩
  · rw [← String.ofList_append, ← h.split, String.ofList_toList]
  · rw [h.offset]
    simp

/-- A scanner that has passed some text. -/
theorem At.pass (text rest : List Char) (h : At source s before (text ++ rest))
    (hsize : d.offset + d.ahead.length = s.offset + s.ahead.length)
    (hline : d.line = lineAfter s.line (text.count '\n')) (hahead : d.ahead = utf8 rest) :
    At source d (before ++ text) rest where
  split := by rw [h.split, List.append_assoc]
  size := hsize.trans h.size
  line := by rw [hline, h.line, List.count_append, lineAfter_add]
  ahead := hahead

/-- What it has passed it can cut out. -/
theorem At.slice (h : At source s before (text ++ rest)) (hd : At source d (before ++ text) rest) :
    Span.slice source ⟨s.offset, d.offset⟩ = .ok (String.ofList text) := by
  have hlen (cs cs' : List Char) :
      String.utf8Len (cs ++ cs') = String.utf8Len cs + String.utf8Len cs' := by
    simp [← length_utf8]
  have hle : s.offset ≤ d.offset := by
    rw [h.offset, hd.offset, hlen]
    exact Nat.le_add_right ..
  have hsource : source = String.ofList (before ++ text ++ rest) := by
    rw [← hd.split, String.ofList_toList]
  rw [Span.slice, if_pos ⟨h.isValid, hd.isValid, hle⟩, h.offset, hd.offset, hlen]
  conv_lhs => rw [hsource]
  exact congrArg Except.ok (String.extract_of_valid before text rest)

/-- A character other than a newline that is one byte. -/
theorem At.next {b : UInt8} (h : At source s before (c :: cs)) (hb : String.utf8EncodeChar c = [b])
    (hc : c ≠ '\n') : At source ⟨s.offset + 1, s.line, utf8 cs⟩ (before ++ [c]) cs := by
  have hahead := h.ahead
  rw [utf8_cons, hb] at hahead
  refine .pass [c] cs h ?_ ?_ rfl
  · rw [hahead, List.length_append, List.length_singleton]
    exact Nat.add_assoc ..
  · rw [List.count_singleton, beq_false_of_ne hc]
    exact (lineAfter_zero s.line).symm

/-- Passing bytes that satisfy a uniform condition passes the characters that do. -/
theorem At.passWhile {q : Char → Bool} (hq : Uniform q) (hnewline : q '\n' = false)
    (h : At source s before after) :
    At source (passWhile (fun b => q (.ofUInt8 b)) s.offset s.line s.ahead)
      (before ++ after.takeWhile q) (after.dropWhile q) := by
  have hcount : (after.takeWhile q).count '\n' = 0 := by
    refine List.count_eq_zero.mpr fun hmem => ?_
    rw [List.mem_takeWhile_imp hmem] at hnewline
    cases hnewline
  rw [passWhile_eq]
  refine .pass _ (after.dropWhile q) (by rwa [List.takeWhile_append_dropWhile]) ?_ ?_ ?_
  · have hlength := congrArg List.length
      (List.takeWhile_append_dropWhile (p := fun b => q (.ofUInt8 b)) (l := s.ahead))
    rw [List.length_append] at hlength
    dsimp only
    omega
  · rw [hcount, lineAfter_zero]
  · rw [h.ahead]
    exact hq.dropWhile_utf8 after

/-- Passing a gap passes the one that the scanner skips, with its line breaks. -/
theorem At.passGap (h : At source s before after) :
    ∃ gap, after = gap ++ (skipGap s.line false after).2 ∧
      Gap ((skipGap s.line false after).2 = []) gap ∧
        (skipGap s.line false after).1 = lineAfter s.line (gap.count '\n') ∧
          At source (passGap false s.offset s.line s.ahead) (before ++ gap)
            (skipGap s.line false after).2 := by
  obtain ⟨gap, hafter, hgap, hline⟩ := gap_of_skipGap s.line false after
  obtain ⟨hpassLine, hpassAhead⟩ := passGap_utf8 false s.offset s.line after
  rw [← h.ahead] at hpassLine hpassAhead
  exact ⟨gap, hafter, hgap, hline, .pass _ _ (hafter ▸ h) (size_passGap ..)
    (hpassLine.trans hline) hpassAhead⟩

/-! ### Tokens -/

/-- A word is cut off in bytes as it is in characters. -/
theorem At.word (hs : At source s before (c :: cs)) (h : At source d (before ++ [c]) cs) :
    ∃ u, Cursor.word source s.offset d = .ok ((Piece.word c cs).shape, u) ∧
      At source u (before ++ (Piece.word c cs).text) (Piece.word c cs).rest := by
  have hu := h.passWhile uniform_isWordPart (by decide)
  rw [List.append_assoc] at hu
  have htext : c :: cs = (c :: cs.takeWhile isWordPart) ++ cs.dropWhile isWordPart := by
    rw [List.cons_append, List.takeWhile_append_dropWhile]
  rw [Cursor.word, At.slice (htext ▸ hs) hu]
  exact ⟨_, rfl, hu⟩

/-- An ASCII character is known by its first byte. -/
theorem ofUInt8_eq_iff {b : UInt8} {bs : List UInt8} (hbytes : String.utf8EncodeChar c = b :: bs)
    {d : Char} (hd : d.toNat < 128) : Char.ofUInt8 b = d ↔ c = d := by
  have hb := (uniform_beq hd).byte (c := c) (hbytes ▸ List.mem_cons_self ..)
  rw [← beq_iff_eq, hb, beq_iff_eq]

/-- The cursor passes as many places of a number as the characters have. -/
theorem At.fraction (h : At source s before after) :
    At source s.fraction (before ++ (Piece.fraction after).1) (Piece.fraction after).2 := by
  have hahead := h.ahead
  cases after with
  | nil =>
      rw [Cursor.fraction, hahead]
      exact (List.append_nil before).symm ▸ h
  | cons c cs =>
      obtain ⟨b, bs, hbytes, -, -⟩ := exists_utf8EncodeChar c
      have hb := ofUInt8_eq_iff hbytes (d := '.') (by decide)
      rw [utf8_cons, hbytes, List.cons_append] at hahead
      rw [Cursor.fraction, hahead]
      simp only [hb]
      by_cases hpoint : c = '.'
      · subst hpoint
        obtain ⟨rfl, rfl⟩ := List.cons_eq_cons.mp (hbytes.symm.trans (utf8EncodeChar_of_lt (by decide)))
        rw [Piece.fraction_point, List.nil_append, uniform_isDigit.any_head?_utf8]
        simp only [true_and]
        split
        · have hu := (h.next hbytes (by decide)).passWhile uniform_isDigit (by decide)
          rwa [List.append_assoc] at hu
        · exact (List.append_nil before).symm ▸ h
      · rw [if_neg fun h => hpoint h.1, Piece.fraction_of_ne hpoint]
        exact (List.append_nil before).symm ▸ h

/-- The cursor scans a number as its characters say. -/
theorem At.number (h : At source d (before ++ [c]) cs) :
    ∃ u, d.number = ((Piece.number c cs).shape, u) ∧
      At source u (before ++ (Piece.number c cs).text) (Piece.number c cs).rest := by
  have hu := (h.passWhile uniform_isDigit (by decide)).fraction
  rw [List.append_assoc, List.append_assoc] at hu
  exact ⟨_, rfl, hu⟩

/-- The cursor scans a string as its characters say. -/
theorem At.string (h : At source d (before ++ [c]) cs) :
    ∃ u, d.string = ((Piece.string c cs).shape, u) ∧
      At source u (before ++ (Piece.string c cs).text) (Piece.string c cs).rest := by
  obtain ⟨hline, hahead⟩ := passBody_utf8 d.offset d.line cs
  rw [← h.ahead] at hline hahead
  have hbody : At source (passBody d.offset d.line d.ahead)
      (before ++ [c] ++ cs.takeWhile (· != '"')) (cs.dropWhile (· != '"')) :=
    .pass _ _ (by rwa [List.takeWhile_append_dropWhile]) (size_passBody ..) hline hahead
  rw [Cursor.string, Piece.string]
  cases hrest : cs.dropWhile (· != '"') with
  | nil =>
      rw [hrest] at hbody
      rw [List.append_assoc] at hbody
      simp only [hbody.ahead, utf8_nil]
      exact ⟨_, rfl, hbody⟩
  | cons q rest =>
      have hquote := List.head?_dropWhile_not (· != '"') cs
      rw [hrest] at hquote
      obtain rfl : q = '"' := by simpa using hquote
      rw [hrest] at hbody
      have hbytes : String.utf8EncodeChar '"' = ['"'.toUInt8] := rfl
      have hu := hbody.next hbytes (by decide)
      have hahead' := hbody.ahead
      rw [utf8_cons, hbytes, List.singleton_append] at hahead'
      rw [List.append_assoc, List.append_assoc] at hu
      simp only [hahead']
      exact ⟨_, rfl, hu⟩

/-- The cursor scans an operator that `=` may belong to as its characters say. -/
theorem At.orEqual (h : At source d (before ++ [c]) cs) (alone withEqual : TokenKind) :
    ∃ u, d.orEqual alone withEqual = ((Piece.orEqual alone withEqual c cs).shape, u) ∧
      At source u (before ++ (Piece.orEqual alone withEqual c cs).text)
        (Piece.orEqual alone withEqual c cs).rest := by
  have hahead := h.ahead
  cases cs with
  | nil =>
      rw [Cursor.orEqual, hahead]
      exact ⟨d, rfl, h⟩
  | cons e cs =>
      obtain ⟨b, bs, hbytes, -, -⟩ := exists_utf8EncodeChar e
      have hb := ofUInt8_eq_iff hbytes (d := '=') (by decide)
      rw [utf8_cons, hbytes, List.cons_append] at hahead
      rw [Cursor.orEqual, hahead]
      simp only [hb]
      by_cases hequal : e = '='
      · subst hequal
        obtain ⟨rfl, rfl⟩ := List.cons_eq_cons.mp (hbytes.symm.trans (utf8EncodeChar_of_lt (by decide)))
        have hu := h.next hbytes (by decide)
        rw [List.append_assoc] at hu
        exact ⟨_, if_pos rfl, hu⟩
      · have halone : Piece.orEqual alone withEqual c (e :: cs) = Piece.single alone c (e :: cs) := by
          rw [Piece.orEqual.eq_def]
          split
          next heq => exact absurd (List.cons_eq_cons.mp heq).1 hequal
          next => rfl
        rw [if_neg hequal, halone]
        exact ⟨d, rfl, h⟩

/-- Behind the first byte of a character, what continues it is passed. -/
theorem At.passContinuation {b : UInt8} {bs : List UInt8} (h : At source s before (c :: cs))
    (hbytes : String.utf8EncodeChar c = b :: bs) (hbs : ∀ d ∈ bs, isContinuation d = true)
    (hc : c ≠ '\n') :
    At source (Cursor.passWhile isContinuation (s.offset + 1) s.line (bs ++ utf8 cs))
      (before ++ [c]) cs := by
  have hstop : (utf8 cs).takeWhile isContinuation = [] ∧
      (utf8 cs).dropWhile isContinuation = utf8 cs := by
    cases cs with
    | nil => exact ⟨rfl, rfl⟩
    | cons e cs =>
        obtain ⟨f, fs, hbytes', ⟨hf, -⟩, -⟩ := exists_utf8EncodeChar e
        rw [utf8_cons, hbytes', List.cons_append]
        exact ⟨List.takeWhile_cons_of_neg (by simp [hf]), List.dropWhile_cons_of_neg (by simp [hf])⟩
  rw [passWhile_eq, List.takeWhile_append_of_pos hbs, List.dropWhile_append_of_pos hbs, hstop.1,
    hstop.2, List.append_nil]
  have hahead := h.ahead
  rw [utf8_cons, hbytes] at hahead
  refine .pass [c] cs h ?_ ?_ rfl
  · rw [hahead, List.length_append, List.length_cons]
    dsimp only
    omega
  · rw [List.count_singleton, beq_false_of_ne hc]
    exact (lineAfter_zero s.line).symm

/-- A character of several bytes is an error, and passed whole. -/
theorem token_of_le {b : UInt8} (hb : 128 ≤ (Char.ofUInt8 b).toNat) (start : Nat) (d : Cursor) :
    Cursor.token source start b d =
      .ok (.error .unexpectedCharacter,
        Cursor.passWhile isContinuation d.offset d.line d.ahead) := by
  rw [Cursor.token.eq_def]
  simp only [(not_word_of_le hb).1, (not_word_of_le hb).2, Bool.false_eq_true, if_false]
  split <;> first | rfl | (next heq => rw [heq] at hb; exact absurd hb (by decide))

/-- A character of several bytes is no piece that the scanner knows. -/
theorem starting_of_le (hc : 128 ≤ c.toNat) (cs : List Char) :
    Piece.starting c cs = ⟨.error .unexpectedCharacter, [c], cs⟩ := by
  rw [Piece.starting.eq_def]
  simp only [(not_word_of_le hc).1, (not_word_of_le hc).2, Bool.false_eq_true, if_false]
  split <;> first | rfl | exact absurd hc (by decide)

/-- On an ASCII character both scanners take the same branch. -/
theorem token_starting {b : UInt8} (hb : Char.ofUInt8 b = c) (start : Nat) (d : Cursor)
    (cs : List Char) :
    (Cursor.token source start b d = Cursor.word source start d ∧
      Piece.starting c cs = Piece.word c cs) ∨
    (Cursor.token source start b d = .ok d.number ∧ Piece.starting c cs = Piece.number c cs) ∨
    (∃ kind, Cursor.token source start b d = .ok (.ok kind, d) ∧
      Piece.starting c cs = Piece.single kind c cs) ∨
    (∃ alone withEqual, Cursor.token source start b d = .ok (d.orEqual alone withEqual) ∧
      Piece.starting c cs = Piece.orEqual alone withEqual c cs) ∨
    (Cursor.token source start b d = .ok d.string ∧ Piece.starting c cs = Piece.string c cs) ∨
    (Cursor.token source start b d = .ok (.error .unexpectedCharacter,
        Cursor.passWhile isContinuation d.offset d.line d.ahead) ∧
      Piece.starting c cs = ⟨.error .unexpectedCharacter, [c], cs⟩) := by
  rw [Cursor.token.eq_def]
  simp only [hb]
  split
  next hword => exact .inl ⟨rfl, if_pos hword⟩
  next hword =>
    split
    next hdigit => exact .inr (.inl ⟨rfl, (if_neg hword).trans (if_pos hdigit)⟩)
    next hdigit =>
      refine .inr (.inr ?_)
      split
      case h_12 | h_13 | h_14 | h_15 => exact .inr (.inl ⟨_, _, rfl, rfl⟩)
      case h_16 => exact .inr (.inr (.inl ⟨rfl, rfl⟩))
      case h_17 =>
        refine .inr (.inr (.inr ⟨rfl, ?_⟩))
        rw [Piece.starting, if_neg hword, if_neg hdigit] <;> assumption
      all_goals exact .inl ⟨_, rfl, rfl⟩

/-- A token is passed byte by byte as it is cut off character by character. -/
theorem At.token (h : At source s before (c :: cs)) (hc : c ≠ '\n') :
    ∃ b bs u, s.ahead = b :: bs ∧
      Cursor.token source s.offset b ⟨s.offset + 1, s.line, bs⟩ =
        .ok ((Piece.starting c cs).shape, u) ∧
      At source u (before ++ (Piece.starting c cs).text) (Piece.starting c cs).rest := by
  obtain ⟨b, bs, hbytes, ⟨-, hbs⟩, hcase⟩ := exists_utf8EncodeChar c
  have hahead := h.ahead
  rw [utf8_cons, hbytes, List.cons_append] at hahead
  have hpassed := h.passContinuation hbytes hbs hc
  refine ⟨b, bs ++ utf8 cs, ?_⟩
  rcases hcase with ⟨rfl, hb⟩ | ⟨hle, hle'⟩
  · have hd : At source ⟨s.offset + 1, s.line, utf8 cs⟩ (before ++ [c]) cs := h.next hbytes hc
    rw [List.nil_append] at hahead hpassed ⊢
    rcases @token_starting source c b hb s.offset ⟨s.offset + 1, s.line, utf8 cs⟩ cs with
      ⟨htoken, hp⟩ | ⟨htoken, hp⟩ | ⟨kind, htoken, hp⟩ | ⟨alone, withEqual, htoken, hp⟩ |
        ⟨htoken, hp⟩ | ⟨htoken, hp⟩
    all_goals rw [htoken, hp]
    · obtain ⟨u, hu, hat⟩ := h.word hd
      exact ⟨u, hahead, hu, hat⟩
    · obtain ⟨u, hu, hat⟩ := hd.number
      exact ⟨u, hahead, congrArg Except.ok hu, hat⟩
    · exact ⟨_, hahead, rfl, hd⟩
    · obtain ⟨u, hu, hat⟩ := hd.orEqual alone withEqual
      exact ⟨u, hahead, congrArg Except.ok hu, hat⟩
    · obtain ⟨u, hu, hat⟩ := hd.string
      exact ⟨u, hahead, congrArg Except.ok hu, hat⟩
    · exact ⟨_, hahead, rfl, hpassed⟩
  · rw [starting_of_le hle]
    exact ⟨_, hahead, token_of_le (hle' b (List.mem_cons_self ..)) .., hpassed⟩

end Cursor

end LoxBytecode
