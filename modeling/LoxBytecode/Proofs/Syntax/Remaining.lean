import LoxBytecode.Proofs.Syntax.Reading

/-!
# What Remains behind a Phrase

What remains behind a phrase that is read is a suffix of the tokens that it began with. What a
phrase is read as does not change when the end of the source is added behind all tokens.
-/

namespace LoxBytecode

variable {ts rest z : List Token} {e : Expr} {es : List Expr} {st : Stmt}

/-- What is left is left of something. -/
theorem ne_nil_of_suffix (hrest : rest ≠ []) (h : rest <:+ ts) : ts ≠ [] := by
  rintro rfl
  exact hrest (List.suffix_nil.mp h)

/-! ### Expressions -/

/-- All parts of an expression but the operators take a token. -/
theorem Reads.suffix_tail {part : ExprPart} (h : Reads part ts es rest) :
    match part with
    | .operators .. => rest <:+ ts
    | _ => rest <:+ ts.tail := by
  induction h with
  | expr _ _ ih₁ ih₂ => exact List.IsSuffix.trans ih₂ ih₁
  | grouping _ _ _ ih =>
      exact (List.suffix_cons _ _).trans (List.IsSuffix.trans ih (List.tail_suffix _))
  | literal | number | string | «variable» | stop => exact List.suffix_refl _
  | unary _ _ ih | binary _ _ ih | and _ _ ih | or _ _ ih =>
      exact List.IsSuffix.trans ih (List.tail_suffix _)
  | assign _ _ _ ih =>
      exact (List.IsSuffix.trans ih (List.tail_suffix _)).trans (List.suffix_cons _ _)
  | step _ _ _ ih₁ ih₂ =>
      exact List.IsSuffix.trans ih₂ (List.IsSuffix.trans ih₁ (List.tail_suffix _))
  | call _ _ _ ih =>
      exact (List.suffix_cons _ _).trans (List.IsSuffix.trans ih (List.tail_suffix _))
  | callNone | get => exact List.suffix_cons _ _
  | set _ _ _ _ ih =>
      exact ((List.IsSuffix.trans ih (List.tail_suffix _)).trans (List.suffix_cons _ _)).trans
        (List.suffix_cons _ _)
  | lastArgument _ _ ih => exact ih
  | argument _ _ _ ih₁ ih₂ =>
      refine List.IsSuffix.trans ih₂ ((List.tail_suffix _).trans ?_)
      exact (List.suffix_cons _ _).trans ih₁

/-- What is left behind an expression are the last tokens. -/
theorem Reads.suffix {part : ExprPart} (h : Reads part ts es rest) : rest <:+ ts := by
  have htail := h.suffix_tail
  cases part with
  | operators => exact htail
  | expr | start | behind | arguments => exact List.IsSuffix.trans htail (List.tail_suffix _)

/-- The end of the source behind some tokens does not change the kind of the first. -/
theorem kindOf_append (hz : kindOf z = .eof) (ts : List Token) :
    kindOf (ts ++ z) = kindOf ts := by
  cases ts with
  | nil => exact hz
  | cons => rfl

/-- An expression is read the same where more follows behind the end of the source. -/
theorem Reads.append {part : ExprPart} (h : Reads part ts es rest) (hz : kindOf z = .eof) :
    Reads part (ts ++ z) es (rest ++ z) := by
  have hkind := kindOf_append hz
  induction h with
  | expr _ _ ih₁ ih₂ => exact .expr ih₁ ih₂
  | grouping hopening _ hclosing ih => exact .grouping hopening ih hclosing
  | literal hl => exact .literal hl
  | number ht htext => exact .number ht htext
  | string ht htext => exact .string ht htext
  | unary ho _ ih => exact .unary ho ih
  | «variable» ht hequal => exact .variable ht (by rwa [List.append_eq, hkind])
  | assign ht hequal _ ih => exact .assign ht hequal ih
  | stop hstop => exact .stop (by rwa [hkind])
  | step hle _ _ ih₁ ih₂ => exact .step (by rwa [hkind]) ih₁ ih₂
  | binary ho _ ih => exact .binary ho ih
  | and ht _ ih => exact .and ht ih
  | or ht _ ih => exact .or ht ih
  | call hopening _ hclosing ih => exact .call hopening ih hclosing
  | callNone hopening hclosing => exact .callNone hopening hclosing
  | get hdot hname hequal => exact .get hdot hname (by rwa [List.append_eq, hkind])
  | set hdot hname hequal _ ih => exact .set hdot hname hequal ih
  | lastArgument _ hcomma ih => exact .lastArgument ih (by rwa [hkind])
  | argument _ hcomma _ ih₁ ih₂ => exact .argument ih₁ hcomma ih₂

/-! ### Clauses and declarations -/

variable {closing : TokenKind}

/-- What is left behind an expression up to a closing token are the last tokens. -/
theorem ReadsUpTo.suffix (h : ReadsUpTo closing ts e rest) : rest <:+ ts := by
  obtain ⟨hreads, -⟩ := h
  exact (List.suffix_cons _ _).trans hreads.suffix

/-- An expression up to a closing token is read the same where more follows. -/
theorem ReadsUpTo.append (h : ReadsUpTo closing ts e rest) (hz : kindOf z = .eof) :
    ReadsUpTo closing (ts ++ z) e (rest ++ z) := by
  obtain ⟨hreads, hkind⟩ := h
  exact ⟨hreads.append hz, hkind⟩

/-- What is left behind a clause are the last tokens. -/
theorem ReadsClause.suffix {e : Option Expr} (h : ReadsClause closing ts e rest) :
    rest <:+ ts := by
  cases h with
  | none => exact List.suffix_cons _ _
  | some _ hreads => exact hreads.suffix

/-- A clause is read the same where more follows. -/
theorem ReadsClause.append {e : Option Expr} (h : ReadsClause closing ts e rest)
    (hz : kindOf z = .eof) : ReadsClause closing (ts ++ z) e (rest ++ z) := by
  cases h with
  | none hkind => exact .none hkind
  | some hne hreads => exact .some (by rwa [kindOf_append hz]) (hreads.append hz)

/-- What is left behind a variable declaration are the last tokens. -/
theorem ReadsVar.suffix (h : ReadsVar ts st rest) : rest <:+ ts := by
  cases h with
  | none => exact (List.suffix_cons _ _).trans (List.suffix_cons _ _)
  | some _ _ hreads =>
      exact (hreads.suffix.trans (List.suffix_cons _ _)).trans (List.suffix_cons _ _)

/-- A variable declaration is read the same where more follows. -/
theorem ReadsVar.append (h : ReadsVar ts st rest) (hz : kindOf z = .eof) :
    ReadsVar (ts ++ z) st (rest ++ z) := by
  cases h with
  | none hname hsemicolon => exact .none hname hsemicolon
  | some hname hequal hreads => exact .some hname hequal (hreads.append hz)

/-- What is left behind parameters are the last tokens. -/
theorem ReadsParameters.suffix {names : List String} (h : ReadsParameters ts names rest) :
    rest <:+ ts := by
  induction h with
  | last => exact List.suffix_cons _ _
  | more _ _ _ ih => exact (ih.trans (List.suffix_cons _ _)).trans (List.suffix_cons _ _)

/-- Parameters are read the same where more follows. -/
theorem ReadsParameters.append {names : List String} (h : ReadsParameters ts names rest)
    (hz : kindOf z = .eof) : ReadsParameters (ts ++ z) names (rest ++ z) := by
  induction h with
  | last hname hcomma => exact .last hname (by rwa [List.append_eq, kindOf_append hz])
  | more hname hcomma _ ih => exact .more hname hcomma ih

/-- What is left behind a signature are the last tokens. -/
theorem ReadsSignature.suffix {names : List String} (h : ReadsSignature ts names rest) :
    rest <:+ ts := by
  cases h with
  | none => exact (List.suffix_cons _ _).trans (List.suffix_cons _ _)
  | some _ hreads =>
      exact ((List.suffix_cons _ _).trans hreads.suffix).trans (List.suffix_cons _ _)

/-- A signature is read the same where more follows. -/
theorem ReadsSignature.append {names : List String} (h : ReadsSignature ts names rest)
    (hz : kindOf z = .eof) : ReadsSignature (ts ++ z) names (rest ++ z) := by
  cases h with
  | none hopening hclosing => exact .none hopening hclosing
  | some hopening hreads hclosing => exact .some hopening (hreads.append hz) hclosing

/-! ### Statements -/

/-- What is left behind a statement are the last tokens. -/
theorem ReadsStmt.suffix {part : StmtPart} (h : ReadsStmt part ts st rest) : rest <:+ ts := by
  induction h with
  | print _ hreads => exact hreads.suffix.trans (List.suffix_cons _ _)
  | del =>
      simpa only [List.cons_append, List.nil_append] using List.suffix_append [_, _, _, _, _] _
  | ret _ hreads => exact hreads.suffix.trans (List.suffix_cons _ _)
  | branch _ _ hreads _ _ ih =>
      exact ((ih.trans hreads.suffix).trans (List.suffix_cons _ _)).trans (List.suffix_cons _ _)
  | branchElse _ _ hreads _ _ _ ih₁ ih₂ =>
      exact ((((ih₂.trans (List.suffix_cons _ _)).trans ih₁).trans hreads.suffix).trans
        (List.suffix_cons _ _)).trans (List.suffix_cons _ _)
  | whileLoop _ _ hreads _ ih =>
      exact ((ih.trans hreads.suffix).trans (List.suffix_cons _ _)).trans (List.suffix_cons _ _)
  | forLoop _ _ _ hc he _ ih₁ ih₂ =>
      exact ((((ih₂.trans he.suffix).trans hc.suffix).trans ih₁).trans
        (List.suffix_cons _ _)).trans (List.suffix_cons _ _)
  | block _ _ ih => exact ih.trans (List.suffix_cons _ _)
  | expression hreads | forExpression hreads => exact hreads.suffix
  | varDecl _ hreads | forVar _ hreads => exact hreads.suffix.trans (List.suffix_cons _ _)
  | classDecl =>
      simpa only [List.cons_append, List.nil_append] using List.suffix_append [_, _, _, _] _
  | funDecl _ _ hsignature _ _ ih =>
      exact (((ih.trans (List.suffix_cons _ _)).trans hsignature.suffix).trans
        (List.suffix_cons _ _)).trans (List.suffix_cons _ _)
  | statement _ ih => exact ih
  | forNone | blockEnd => exact List.suffix_cons _ _
  | blockMore _ _ _ ih₁ ih₂ | programMore _ _ _ ih₁ ih₂ => exact ih₂.trans ih₁
  | programEnd => exact List.suffix_refl _

/-- A statement is read the same where more follows; only a program has to be at the end. -/
theorem ReadsStmt.append {part : StmtPart} (h : ReadsStmt part ts st rest)
    (hpart : part ≠ .program) (hz : kindOf z = .eof) :
    ReadsStmt part (ts ++ z) st (rest ++ z) := by
  have hkind := kindOf_append hz
  induction h with
  | print ht hreads => exact .print ht (hreads.append hz)
  | del ht hobject hdot hproperty hsemicolon => exact .del ht hobject hdot hproperty hsemicolon
  | ret ht hreads => exact .ret ht (hreads.append hz)
  | branch ht hopening hreads _ helse ih =>
      exact .branch ht hopening (hreads.append hz) (ih (by decide)) (by rwa [hkind])
  | branchElse ht hopening hreads _ helse _ ih₁ ih₂ =>
      exact .branchElse ht hopening (hreads.append hz) (ih₁ (by decide)) helse (ih₂ (by decide))
  | whileLoop ht hopening hreads _ ih =>
      exact .whileLoop ht hopening (hreads.append hz) (ih (by decide))
  | forLoop ht hopening _ hc he _ ih₁ ih₂ =>
      exact .forLoop ht hopening (ih₁ (by decide)) (hc.append hz) (he.append hz) (ih₂ (by decide))
  | block ht _ ih => exact .block ht (ih (by decide))
  | expression hreads => exact .expression (hreads.append hz)
  | varDecl ht hreads => exact .varDecl ht (hreads.append hz)
  | classDecl ht hname hopening hclosing => exact .classDecl ht hname hopening hclosing
  | funDecl ht hname hsignature hopening _ ih =>
      exact .funDecl ht hname (hsignature.append hz) hopening (ih (by decide))
  | statement _ ih => exact .statement (ih (by decide))
  | forNone ht => exact .forNone ht
  | forVar ht hreads => exact .forVar ht (hreads.append hz)
  | forExpression hreads => exact .forExpression (hreads.append hz)
  | blockEnd ht => exact .blockEnd ht
  | blockMore hne _ _ ih₁ ih₂ =>
      exact .blockMore (by rwa [hkind]) (ih₁ (by decide)) (ih₂ (by decide))
  | programEnd | programMore => exact absurd rfl hpart

end LoxBytecode
