import LoxBytecode.Proofs.Compile.Totality

/-!
# The Lexemes of a Source

The scanner cuts a token's text to the shape of its kind: a string has its quotes around it and
a number reads back. So compiling a source always ends (`exists_compile`), and no number of a
source is reported.
-/

namespace LoxBytecode

/-- The text of a token is one that its kind can have. -/
structure Token.Legible (t : Token) : Prop where
  quoted : t.Quoted
  number : t.kind = .number → ∃ x, Number.ofText? t.lexeme = some x

/-! ### Numbers -/

namespace Number

/-- Digits, and at most one point with digits behind it, read as a number. -/
theorem exists_decimalOf? {negative : Bool} {c : Char} {ds places : List Char}
    (hc : c.isDigit = true) (hds : ∀ d ∈ ds, d.isDigit = true)
    (hplaces : places = [] ∨ ∃ fs, places = '.' :: fs ∧ ∀ f ∈ fs, f.isDigit = true) :
    ∃ x, decimalOf? negative (c :: (ds ++ places)) = some x := by
  have hdigits : ∀ d ∈ c :: ds, d.isDigit = true := List.forall_mem_cons.mpr ⟨hc, hds⟩
  have hpoint : places.takeWhile Char.isDigit = [] ∧ places.dropWhile Char.isDigit = places := by
    rcases hplaces with rfl | ⟨fs, rfl, -⟩
    · exact ⟨rfl, rfl⟩
    · exact ⟨List.takeWhile_cons_of_neg (by decide), List.dropWhile_cons_of_neg (by decide)⟩
  have hwhole : (c :: (ds ++ places)).takeWhile Char.isDigit = c :: ds := by
    rw [← List.cons_append, List.takeWhile_append_of_pos hdigits, hpoint.1, List.append_nil]
  have hafter : (c :: (ds ++ places)).dropWhile Char.isDigit = places := by
    rw [← List.cons_append, List.dropWhile_append_of_pos hdigits, hpoint.2]
  simp only [decimalOf?, hwhole, hafter]
  rcases hplaces with rfl | ⟨fs, rfl, hfs⟩
  · exact ⟨_, rfl⟩
  · have hrest : fs.dropWhile Char.isDigit = [] := List.dropWhile_eq_nil_iff.mpr hfs
    simp only [hrest]
    exact ⟨_, rfl⟩

/-- Digits, with or without a point and digits behind it, are read as a number. -/
theorem exists_ofText? {c : Char} {ds places : List Char} (hc : c.isDigit = true)
    (hds : ∀ d ∈ ds, d.isDigit = true)
    (hplaces : places = [] ∨ ∃ fs, places = '.' :: fs ∧ ∀ f ∈ fs, f.isDigit = true) :
    ∃ x, ofText? (String.ofList (c :: (ds ++ places))) = some x := by
  have hunsigned : ∃ x, unsignedOf? false (c :: (ds ++ places)) = some x := by
    simp only [unsignedOf?]
    split
    · exact ⟨_, rfl⟩
    · split
      · exact ⟨_, rfl⟩
      · exact exists_decimalOf? hc hds hplaces
  rw [ofText?, String.toList_ofList]
  split
  next heq =>
    obtain ⟨rfl, -⟩ := List.cons_eq_cons.mp heq
    cases hc
  next heq =>
    obtain ⟨rfl, -⟩ := List.cons_eq_cons.mp heq
    cases hc
  next => exact hunsigned

end Number

/-! ### Pieces -/

namespace Piece

/-- A word is an identifier or a reserved word. -/
theorem kind_of_word {c : Char} {cs : List Char} {kind : TokenKind}
    (h : (word c cs).shape = .ok kind) :
    kind = .identifier ∨ ∃ w, (w, kind) ∈ TokenKind.keywords := by
  have hkind := Except.ok.inj h
  cases hword : TokenKind.keyword? (String.ofList (c :: cs.takeWhile isWordPart)) with
  | none =>
      rw [hword] at hkind
      exact Or.inl hkind.symm
  | some k =>
      rw [hword] at hkind
      obtain rfl : k = kind := hkind
      obtain ⟨before, after, hwords, -⟩ := List.lookup_eq_some_iff.mp hword
      exact Or.inr ⟨_, hwords ▸ List.mem_append_right _ (List.mem_cons_self ..)⟩

/-- Only digits begin a number. -/
theorem starting_number {c : Char} {cs : List Char} (h : (starting c cs).shape = .ok .number) :
    c.isDigit = true ∧ starting c cs = number c cs := by
  unfold starting at h ⊢
  split at h
  · rcases kind_of_word h with hkind | ⟨w, hw⟩
    · cases hkind
    · simp [TokenKind.keywords] at hw
  next hword =>
    rw [if_neg hword]
    split at h
    next hdigit => exact ⟨hdigit, if_pos hdigit⟩
    next => split at h <;> first
      | cases h
      | (unfold orEqual at h; split at h <;> cases h)
      | (unfold string at h; split at h <;> cases h)

/-- A string ends with the first quote behind the one that it begins with. -/
theorem text_string {c : Char} {cs : List Char} (h : (string c cs).shape = .ok .string) :
    ∃ body, (string c cs).text = c :: (body ++ ['"']) := by
  unfold string at h ⊢
  split at h
  next => cases h
  next q rest hrest =>
    have hquote := List.head?_dropWhile_not (· != '"') cs
    rw [hrest] at hquote
    obtain rfl : q = '"' := by simpa using hquote
    exact ⟨cs.takeWhile (· != '"'), rfl⟩

/-- Only quotes begin a string. -/
theorem text_of_string {c : Char} {cs : List Char} (h : (starting c cs).shape = .ok .string) :
    ∃ body, (starting c cs).text = '"' :: (body ++ ['"']) := by
  unfold starting at h ⊢
  split at h
  · rcases kind_of_word h with hkind | ⟨w, hw⟩
    · cases hkind
    · simp [TokenKind.keywords] at hw
  next hword =>
    rw [if_neg hword]
    split at h
    · cases h
    next hdigit =>
      rw [if_neg hdigit]
      split at h <;> first
        | cases h
        | (unfold orEqual at h; split at h <;> cases h)
        | exact text_string h

/-- A text between two quotes loses them. -/
theorem exists_unquote (body : List Char) :
    ∃ text, Session.unquote (String.ofList ('"' :: (body ++ ['"']))) = .ok text := by
  rw [Session.unquote, String.toList_ofList]
  cases body <;> exact ⟨_, rfl⟩

/-- The fraction of a number is empty, or a point and digits. -/
theorem fraction_digits (cs : List Char) :
    (fraction cs).1 = [] ∨ ∃ fs, (fraction cs).1 = '.' :: fs ∧ ∀ f ∈ fs, f.isDigit = true := by
  unfold fraction
  split
  · split
    · exact Or.inr ⟨_, rfl, fun f hf => List.mem_takeWhile_imp hf⟩
    · exact Or.inl rfl
  · exact Or.inl rfl

/-- What the scanner takes for a number is read as one. -/
theorem exists_ofText?_number {c : Char} (cs : List Char) (hc : c.isDigit = true) :
    ∃ x, Number.ofText? (String.ofList (number c cs).text) = some x :=
  Number.exists_ofText? hc (fun _ hd => List.mem_takeWhile_imp hd) (fraction_digits _)

/-- A piece of a text has the lexeme of its kind. -/
theorem legible_token (c : Char) (cs : List Char) (line : UInt32) :
    ((starting c cs).token line).Legible := by
  rw [token]
  split
  next kind hshape =>
    refine ⟨fun hkind => ?_, fun hkind => ?_⟩
    · obtain rfl : kind = .string := hkind
      obtain ⟨body, htext⟩ := text_of_string hshape
      rw [htext]
      exact exists_unquote body
    · obtain rfl : kind = .number := hkind
      obtain ⟨hdigit, hnumber⟩ := starting_number hshape
      rw [hnumber]
      exact exists_ofText?_number cs hdigit
  next => exact ⟨by rintro ⟨⟩, by rintro ⟨⟩⟩

end Piece

/-! ### Sources -/

/-- Every token that is scanned can be read as what its kind says. -/
theorem TokenStream.legible_of_mem_ofSource (source : String) :
    ∀ t ∈ (ofSource source).ahead, t.Legible :=
  forall_mem_ofSource Piece.legible_token source

/-- A source is compiled without a fault, into a script or into diagnostics. -/
theorem exists_compile (source : String) {h : Heap} (hw : h.Wf) (host : List Value) :
    ∃ c, compile source h host = .ok c :=
  exists_compileTokens hw (TokenStream.kind_of_mem_ofSource source) fun t ht =>
    (TokenStream.legible_of_mem_ofSource source t ht).quoted

end LoxBytecode
