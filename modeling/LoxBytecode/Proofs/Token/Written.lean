import LoxBytecode.Proofs.Token.Munch

/-!
# Tokens Written Out

What texts the tokens of a kind can have is said here without the scanner (`TokenKind.Spells`):
punctuation and reserved words have one each, names and numbers and strings have many. Tokens
written out with blanks between them are found again, whatever else stands in the gaps
(`Written.scan`).
-/

namespace LoxBytecode

/-! ### Texts of tokens -/

namespace TokenKind

/-- The tokens that are neither words nor literals. -/
def punctuation : List (String × TokenKind) :=
  [("(", .leftParen), (")", .rightParen), ("\x7b", .leftBrace), ("\x7d", .rightBrace), (",", .comma),
   (".", .dot), ("-", .minus), ("+", .plus), (";", .semicolon), ("/", .slash), ("*", .star),
   ("!", .bang), ("!=", .bangEqual), ("=", .equal), ("==", .equalEqual), (">", .greater),
   (">=", .greaterEqual), ("<", .less), ("<=", .lessEqual)]

/-- The texts of the tokens of a kind. -/
inductive Spells : TokenKind → String → Prop
  | punctuation {kind : TokenKind} {text : String} : (text, kind) ∈ punctuation → Spells kind text
  | keyword {kind : TokenKind} {text : String} : (text, kind) ∈ keywords → Spells kind text
  | identifier {c : Char} {cs : List Char} : isWordStart c = true →
      (∀ d ∈ cs, isWordPart d = true) → (∀ kind, (String.ofList (c :: cs), kind) ∉ keywords) →
        Spells .identifier (.ofList (c :: cs))
  | whole {d : Char} {ds : List Char} : (∀ e ∈ d :: ds, e.isDigit = true) →
      Spells .number (.ofList (d :: ds))
  | decimal {d f : Char} {ds fs : List Char} : (∀ e ∈ d :: ds, e.isDigit = true) →
      (∀ e ∈ f :: fs, e.isDigit = true) → Spells .number (.ofList (d :: (ds ++ '.' :: f :: fs)))
  | string {body : List Char} : '"' ∉ body → Spells .string (.ofList ('"' :: (body ++ ['"'])))

/-- A text that is cut off as a token of a kind, and that does not begin with a blank. -/
def CutsOff (kind : TokenKind) (text : String) : Prop :=
  ∃ c cs, text = .ofList (c :: cs) ∧ (c ≠ '\n' ∧ isBlank c = false) ∧ Piece.Ends (.ok kind) c cs

/-- All punctuation is cut off as what it stands for. -/
theorem cutsOff_punctuation : ∀ p ∈ punctuation, CutsOff p.2 p.1 := by
  have alone {c : Char} {kind : TokenKind} (hc : c ≠ '\n' ∧ isBlank c = false)
      (hstarting : ∀ cs, Piece.starting c cs = Piece.single kind c cs) :
      CutsOff kind (.ofList [c]) :=
    ⟨c, [], rfl, hc, fun _ _ => hstarting _⟩
  have pair {c : Char} {kind withEqual : TokenKind} (hc : c ≠ '\n' ∧ isBlank c = false)
      (hstarting : ∀ cs, Piece.starting c cs = Piece.orEqual kind withEqual c cs) :
      CutsOff kind (.ofList [c]) ∧ CutsOff withEqual (.ofList [c, '=']) :=
    ⟨⟨c, [], rfl, hc, (Piece.ends_orEqual hstarting).1⟩,
      ⟨c, ['='], rfl, hc, (Piece.ends_orEqual hstarting).2⟩⟩
  have bang := @pair '!' _ _ (by decide) fun _ => rfl
  have equal := @pair '=' _ _ (by decide) fun _ => rfl
  have greater := @pair '>' _ _ (by decide) fun _ => rfl
  have less := @pair '<' _ _ (by decide) fun _ => rfl
  simp only [punctuation, List.forall_mem_cons]
  exact ⟨@alone '(' _ (by decide) fun _ => rfl, @alone ')' _ (by decide) fun _ => rfl,
    @alone '{' _ (by decide) fun _ => rfl, @alone '}' _ (by decide) fun _ => rfl,
    @alone ',' _ (by decide) fun _ => rfl, @alone '.' _ (by decide) fun _ => rfl,
    @alone '-' _ (by decide) fun _ => rfl, @alone '+' _ (by decide) fun _ => rfl,
    @alone ';' _ (by decide) fun _ => rfl, @alone '/' _ (by decide) fun _ => rfl,
    @alone '*' _ (by decide) fun _ => rfl, bang.1, bang.2, equal.1, equal.2, greater.1, greater.2,
    less.1, less.2, List.forall_mem_nil _⟩

/-- Every word in the table is the keyword of its kind. -/
theorem keyword?_of_mem : ∀ p ∈ keywords, keyword? p.1 = some p.2 := by
  decide

/-- Every word in the table is spelled like a name. -/
theorem word_of_mem : ∀ p ∈ keywords, p.1.toList.head?.any isWordStart = true ∧
    p.1.toList.all isWordPart = true := by
  decide

/-- A text of a word is cut off as what it is. -/
theorem cutsOff_word {c : Char} {cs : List Char} (hc : isWordStart c = true)
    (hcs : ∀ d ∈ cs, isWordPart d = true) :
    CutsOff ((keyword? (.ofList (c :: cs))).getD .identifier) (.ofList (c :: cs)) := by
  have hpart : isWordPart c = true := by
    rw [isWordPart, hc]
    rfl
  exact ⟨c, cs, rfl, Piece.not_blank_of_isWordPart hpart, Piece.ends_word hc hcs⟩

/-- Digits with their places are cut off as a number. -/
theorem cutsOff_number {d : Char} {ds places : List Char}
    (hdigits : ∀ e ∈ d :: ds, e.isDigit = true) (hplaces : Piece.IsFraction places) :
    CutsOff .number (.ofList (d :: (ds ++ places))) := by
  obtain ⟨hd, hds⟩ := List.forall_mem_cons.mp hdigits
  exact ⟨d, _, rfl, Piece.not_blank_of_isWordPart (Piece.isWordPart_of_isDigit hd),
    Piece.ends_number hd hds hplaces⟩

/-- Whatever the kind, its texts are cut off. -/
theorem Spells.cutsOff {kind : TokenKind} {text : String} (h : Spells kind text) :
    CutsOff kind text := by
  cases h with
  | punctuation h => exact cutsOff_punctuation _ h
  | keyword h =>
      obtain ⟨hstart, hparts⟩ := word_of_mem _ h
      have hreserved := keyword?_of_mem _ h
      dsimp only at hstart hparts hreserved
      cases htext : text.toList with
      | nil =>
          rw [htext] at hstart
          cases hstart
      | cons c cs =>
          rw [htext] at hstart hparts
          rw [← String.ofList_toList (s := text), htext] at hreserved ⊢
          have hcuts := cutsOff_word hstart
            (List.forall_mem_cons.mp (List.all_eq_true.mp hparts)).2
          rwa [hreserved] at hcuts
  | @identifier c cs hc hcs hreserved =>
      have hnone : keyword? (.ofList (c :: cs)) = none :=
        List.lookup_eq_none_iff.mpr fun p hp => by
          obtain ⟨word, kind⟩ := p
          rw [bne_iff_ne]
          rintro rfl
          exact hreserved kind hp
      have hcuts := cutsOff_word hc hcs
      rwa [hnone] at hcuts
  | @whole d ds hdigits =>
      have hcuts := cutsOff_number hdigits (.inl rfl)
      rwa [List.append_nil] at hcuts
  | @decimal d f ds fs hdigits hplaces =>
      exact cutsOff_number hdigits (.inr ⟨f, fs, rfl, hplaces⟩)
  | @string body hbody => exact ⟨_, _, rfl, by decide, Piece.ends_string hbody⟩

end TokenKind

/-! ### Tokens one after the other -/

/-- A gap that begins with a blank or a newline, so that every token ends in front of it. -/
def Separator (gap : List Char) : Prop :=
  ∃ c cs, gap = c :: cs ∧ (c = '\n' ∨ isBlank c = true) ∧ Gap False cs

/-- Texts of tokens of the given kinds, one after the other, with separators behind them, which
the last one may lack. -/
inductive Written : List (TokenKind × String) → List Char → Prop
  | nil : Written [] []
  | last {kind : TokenKind} {text : String} : kind.Spells text →
      Written [(kind, text)] text.toList
  | cons {kind : TokenKind} {text : String} {lexemes : List (TokenKind × String)}
      {gap cs : List Char} : kind.Spells text → Separator gap → Written lexemes cs →
        Written ((kind, text) :: lexemes) (text.toList ++ (gap ++ cs))

/-- Behind a separator any piece begins on its own. -/
theorem Separator.parted {gap : List Char} (h : Separator gap) (cs : List Char) :
    Parted (gap ++ cs) := by
  obtain ⟨c, gap, rfl, hc, -⟩ := h
  rintro d ⟨⟩
  exact hc

/-- A separator is a gap that ends before the source does. -/
theorem Separator.gap {gap : List Char} (h : Separator gap) : Gap False gap := by
  obtain ⟨c, gap, rfl, hc, hgap⟩ := h
  exact .blank hc hgap

/-- The token of a text in front of which the scan stands. -/
theorem TokenKind.Spells.scanFrom {kind : TokenKind} {text : String} (h : kind.Spells text)
    {after : List Char} (hafter : Parted after) (found : List Token) (line : UInt32) :
    ∃ endLine, LoxBytecode.scanFrom found line (text.toList ++ after) =
      LoxBytecode.scanFrom (⟨kind, text, endLine.toNat⟩ :: found) endLine after := by
  obtain ⟨c, cs, rfl, hc, hends⟩ := h.cutsOff
  rw [String.toList_ofList, List.cons_append]
  exact ⟨_, scanFrom_ends hends hc hafter found line⟩

/-- Behind the tokens that a scan has found it finds those that are written there. -/
theorem Written.map_scanFrom {lexemes : List (TokenKind × String)} {cs : List Char}
    (h : Written lexemes cs) (found : List Token) (line : UInt32) :
    (scanFrom found line cs).toList.map (fun t => (t.kind, t.lexeme)) =
      found.reverse.map (fun t => (t.kind, t.lexeme)) ++ (lexemes ++ [(.eof, "")]) := by
  have hend (found : List Token) (line : UInt32) :
      (scanFrom found line []).toList.map (fun t => (t.kind, t.lexeme)) =
        found.reverse.map (fun t => (t.kind, t.lexeme)) ++ [(.eof, "")] := by
    rw [scanFrom]
    exact List.map_append
  induction h generalizing found line with
  | nil => exact hend found line
  | @last kind text hspells =>
      obtain ⟨endLine, hscan⟩ := hspells.scanFrom parted_nil found line
      rw [List.append_nil] at hscan
      rw [hscan, hend]
      simp
  | @cons kind text lexemes gap cs hspells hgap _ ih =>
      obtain ⟨endLine, hscan⟩ := hspells.scanFrom (hgap.parted cs) found line
      rw [hscan, scanFrom_of_skipGap (skipGap_append hgap.gap cs), ih]
      simp

/-- Tokens that are written out are found again. -/
theorem Written.scan_ofSource {lexemes : List (TokenKind × String)} {source : String}
    (h : Written lexemes source.toList) :
    (TokenStream.ofSource source).toList.map (fun t => (t.kind, t.lexeme)) =
      lexemes ++ [(.eof, "")] := by
  rw [TokenStream.ofSource_eq]
  exact h.map_scanFrom [] 1

/-- A declaration with a comment and other blanks in it scans to its five tokens, the end of the
source among them. -/
theorem scan_ofSource_declaration :
    Written [(.varWord, "var"), (.identifier, "or1"), (.equal, "="), (.number, "1.5")]
        "var or1\t= // half\n 1.5".toList ∧
      (TokenStream.ofSource "var or1\t= // half\n 1.5").toList.map
          (fun t => (t.kind, t.lexeme)) =
        [(.varWord, "var"), (.identifier, "or1"), (.equal, "="), (.number, "1.5")] ++
          [(.eof, "")] := by
  have hwritten : Written [(.varWord, "var"), (.identifier, "or1"), (.equal, "="),
      (.number, "1.5")] "var or1\t= // half\n 1.5".toList := by
    have hnumber : TokenKind.Spells .number "1.5" :=
      @TokenKind.Spells.decimal '1' '5' [] [] (List.forall_mem_singleton.mpr rfl)
        (List.forall_mem_singleton.mpr rfl)
    have hidentifier : TokenKind.Spells .identifier "or1" :=
      @TokenKind.Spells.identifier 'o' ['r', '1'] rfl
        (List.forall_mem_cons.mpr ⟨rfl, List.forall_mem_singleton.mpr rfl⟩)
        fun kind h => by simp [TokenKind.keywords] at h
    have hblank : Separator [' '] := ⟨_, _, rfl, .inr rfl, .nil⟩
    have htab : Separator ['\t'] := ⟨_, _, rfl, .inr rfl, .nil⟩
    have hcomment : Separator " // half\n ".toList :=
      ⟨' ', _, rfl, .inr rfl, @Gap.comment _ " half".toList [' '] (by decide)
        (.blank (.inr rfl) .nil)⟩
    exact .cons (.keyword (by decide)) hblank (.cons hidentifier htab
      (.cons (.punctuation (by decide)) hcomment (.last hnumber)))
  exact ⟨hwritten, hwritten.scan_ofSource⟩

end LoxBytecode
