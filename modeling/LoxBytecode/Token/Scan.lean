import LoxBytecode.Token

/-!
# Scanning

`TokenStream.ofSource` cuts a source text into tokens. Between tokens lies a gap of blanks and
of comments that run from `//` to the end of their line. `Piece.starting` recognises the token
that begins at a character by maximal munch: it takes a nonempty run of characters from the
front of the text, `text_append_rest`, which is also why scanning ends.
-/

namespace LoxBytecode

/-! ### Character classes -/

/-- Blanks other than a newline, which is a blank that also counts a line. -/
def isBlank (c : Char) : Bool :=
  c == ' ' || c == '\r' || c == '\t'

/-- The characters that begin a word: ASCII letters and the underscore. -/
def isWordStart (c : Char) : Bool :=
  c.isAlpha || c == '_'

/-- The characters that continue a word. -/
def isWordPart (c : Char) : Bool :=
  isWordStart c || c.isDigit

/-! ### Gaps -/

/-- The line behind a number of newlines. Lines are counted in 32 bits: behind the last one comes
line 0. -/
def lineAfter (line : UInt32) (newlines : Nat) : UInt32 :=
  line + .ofNat newlines

/-- Skip a gap, counting its newlines: the line after it and the text after it. `inComment`
holds from `//` to the end of the line. -/
def skipGap (line : UInt32) (inComment : Bool) : List Char → UInt32 × List Char
  | [] => (line, [])
  | c :: cs =>
    if c = '\n' then skipGap (line + 1) false cs
    else if inComment || isBlank c then skipGap line inComment cs
    else if c = '/' ∧ cs.head? = some '/' then skipGap line true cs
    else (line, c :: cs)

/-- Skipping a gap never lengthens the text. -/
theorem length_skipGap_le (line : UInt32) (inComment : Bool) (cs : List Char) :
    (skipGap line inComment cs).2.length ≤ cs.length := by
  induction cs generalizing line inComment with
  | nil => simp [skipGap]
  | cons c cs ih =>
    simp only [skipGap]
    split
    · exact Nat.le_succ_of_le (ih _ _)
    · split
      · exact Nat.le_succ_of_le (ih _ _)
      · split
        · exact Nat.le_succ_of_le (ih _ _)
        · exact Nat.le_refl _

/-! ### Pieces -/

/-- What can be wrong with a piece of text. -/
inductive LexicalProblem where
  | unexpectedCharacter
  | unterminatedString
deriving DecidableEq, Repr

/-- The message of a lexical problem. -/
def LexicalProblem.message : LexicalProblem → String
  | .unexpectedCharacter => "Unexpected character."
  | .unterminatedString => "Unterminated string."

/-- A token cut from the front of a text. -/
structure Piece where
  shape : Except LexicalProblem TokenKind
  /-- The characters that the token covers. -/
  text : List Char
  /-- The characters after it. -/
  rest : List Char

namespace Piece

/-- The token of a piece that ends on the given line. -/
def token (p : Piece) (line : UInt32) : Token :=
  match p.shape with
  | .ok kind => ⟨kind, String.ofList p.text, line.toNat⟩
  | .error problem => ⟨.error, problem.message, line.toNat⟩

/-- The token of one character. -/
def single (kind : TokenKind) (c : Char) (cs : List Char) : Piece :=
  ⟨.ok kind, [c], cs⟩

/-- A character that makes a token of its own, or another one with `=` behind it. -/
def orEqual (alone withEqual : TokenKind) (c : Char) (cs : List Char) : Piece :=
  match cs with
  | '=' :: rest => ⟨.ok withEqual, [c, '='], rest⟩
  | _ => single alone c cs

/-- A word: a reserved one, or an identifier. -/
def word (c : Char) (cs : List Char) : Piece :=
  let text := c :: cs.takeWhile isWordPart
  ⟨.ok ((TokenKind.keyword? (String.ofList text)).getD .identifier), text,
    cs.dropWhile isWordPart⟩

/-- The fraction at the front of a text and the text after it: a point with a digit behind it,
and the digits from there on. Without that digit there is no fraction. -/
def fraction : List Char → List Char × List Char
  | '.' :: d :: ds =>
    if d.isDigit then ('.' :: (d :: ds).takeWhile Char.isDigit, (d :: ds).dropWhile Char.isDigit)
    else ([], '.' :: d :: ds)
  | cs => ([], cs)

/-- A number: digits and an optional fraction. -/
def number (c : Char) (cs : List Char) : Piece :=
  let (places, rest) := fraction (cs.dropWhile Char.isDigit)
  ⟨.ok .number, c :: (cs.takeWhile Char.isDigit ++ places), rest⟩

/-- A string: everything up to the next quote, newlines included. Without one the rest of the
source is an unterminated string. -/
def string (c : Char) (cs : List Char) : Piece :=
  let body := cs.takeWhile (· != '"')
  match cs.dropWhile (· != '"') with
  | [] => ⟨.error .unterminatedString, c :: body, []⟩
  | q :: rest => ⟨.ok .string, c :: (body ++ [q]), rest⟩

/-- The piece that begins with `c`. -/
def starting (c : Char) (cs : List Char) : Piece :=
  if isWordStart c then word c cs
  else if c.isDigit then number c cs
  else match c with
    | '(' => single .leftParen c cs
    | ')' => single .rightParen c cs
    | '{' => single .leftBrace c cs
    | '}' => single .rightBrace c cs
    | ';' => single .semicolon c cs
    | ',' => single .comma c cs
    | '.' => single .dot c cs
    | '-' => single .minus c cs
    | '+' => single .plus c cs
    | '/' => single .slash c cs
    | '*' => single .star c cs
    | '!' => orEqual .bang .bangEqual c cs
    | '=' => orEqual .equal .equalEqual c cs
    | '<' => orEqual .less .lessEqual c cs
    | '>' => orEqual .greater .greaterEqual c cs
    | '"' => string c cs
    | _ => ⟨.error .unexpectedCharacter, [c], cs⟩

/-! ### A piece divides the text -/

/-- An operator that `=` may belong to is cut off and nothing is lost. -/
theorem text_append_rest_orEqual (alone withEqual : TokenKind) (c : Char) (cs : List Char) :
    (orEqual alone withEqual c cs).text ++ (orEqual alone withEqual c cs).rest = c :: cs := by
  unfold orEqual
  split <;> simp [single]

/-- A word is cut off and nothing is lost. -/
theorem text_append_rest_word (c : Char) (cs : List Char) :
    (word c cs).text ++ (word c cs).rest = c :: cs := by
  simp [word]

/-- The places of a number are cut off and nothing is lost. -/
theorem fst_append_snd_fraction (cs : List Char) : (fraction cs).1 ++ (fraction cs).2 = cs := by
  unfold fraction
  split
  · split
    · rw [List.cons_append, List.takeWhile_append_dropWhile]
    · rfl
  · rfl

/-- A number is cut off and nothing is lost. -/
theorem text_append_rest_number (c : Char) (cs : List Char) :
    (number c cs).text ++ (number c cs).rest = c :: cs := by
  simp only [number, List.cons_append, List.append_assoc, fst_append_snd_fraction,
    List.takeWhile_append_dropWhile]

/-- A string is cut off and nothing is lost, also when it does not end. -/
theorem text_append_rest_string (c : Char) (cs : List Char) :
    (string c cs).text ++ (string c cs).rest = c :: cs := by
  have whole := List.takeWhile_append_dropWhile (p := (· != '"')) (l := cs)
  unfold string
  split
  · next h =>
    rw [h, List.append_nil] at whole
    simp only [whole, List.append_nil]
  · next q rest h =>
    rw [h] at whole
    simp only [List.cons_append, List.append_assoc, List.nil_append, whole]

/-- A piece and the text after it make up the text that was cut. -/
theorem text_append_rest (c : Char) (cs : List Char) :
    (starting c cs).text ++ (starting c cs).rest = c :: cs := by
  unfold starting
  split
  · exact text_append_rest_word c cs
  · split
    · exact text_append_rest_number c cs
    · split <;>
        first
        | rfl
        | exact text_append_rest_orEqual _ _ _ _
        | exact text_append_rest_string _ _

/-- A piece covers at least the character that it begins with. -/
theorem head?_text (c : Char) (cs : List Char) : (starting c cs).text.head? = some c := by
  unfold starting
  split
  · rfl
  · split
    · rfl
    · split <;> first
        | rfl
        | (unfold orEqual; split <;> rfl)
        | (unfold string; split <;> rfl)

/-- Cutting a piece shortens the text. -/
theorem length_rest_lt (c : Char) (cs : List Char) :
    (starting c cs).rest.length < (c :: cs).length := by
  have whole := congrArg List.length (text_append_rest c cs)
  have covered : 0 < (starting c cs).text.length := by
    have := head?_text c cs
    cases h : (starting c cs).text with
    | nil => simp [h] at this
    | cons => simp
  rw [List.length_append] at whole
  omega

end Piece

/-! ### Sources -/

/-- The tokens of a text that begins on the given line, after those already found, which are
held newest first. -/
def scanFrom (found : List Token) (line : UInt32) (cs : List Char) : TokenStream :=
  match _gap : skipGap line false cs with
  | (endLine, []) => ⟨found.reverse, endLine.toNat⟩
  | (startLine, c :: rest) =>
    let piece := Piece.starting c rest
    let endLine := lineAfter startLine (piece.text.count '\n')
    scanFrom (piece.token endLine :: found) endLine piece.rest
termination_by cs.length
decreasing_by
  have shorter := length_skipGap_le line false cs
  rw [_gap] at shorter
  exact Nat.lt_of_lt_of_le (Piece.length_rest_lt c rest) shorter

/-- Pass the newlines from a position on, `n` of them at most: the line behind them, and where
they end. They are passed in the text itself, so that a long run of them is never held as a list
of characters. -/
def passNewlines (source : String) : Nat → UInt32 → String.Pos.Raw → UInt32 × String.Pos.Raw
  | 0, line, p => (line, p)
  | n + 1, line, p =>
    if p.get source = '\n' then passNewlines source n (line + 1) (p.next source) else (line, p)

/-- The tokens of a source. Lines are counted from one. -/
def TokenStream.ofSource (source : String) : TokenStream :=
  let (line, front) := passNewlines source source.utf8ByteSize 1 0
  scanFrom [] line (front.extract source source.rawEndPos).toList

end LoxBytecode
