import LoxBytecode.Proofs.Syntax.Reading

/-!
# Reading Is Unique

Tokens are read as at most one program (`ReadsStmt.unique`). With one token of lookahead the
forms of the grammar exclude each other, since the token that a form begins with is the form's
own. Only an expression can begin in several ways, and never with the word of a statement
(`Reads.atStart`).
-/

namespace LoxBytecode

variable {ts rest rest' : List Token}

/-! ### Expressions -/

/-- A token that is a literal is no operator. -/
theorem UnaryOp.ofKind?_of_literal {k : TokenKind} {l : Literal}
    (h : Literal.ofKind? k = some l) : UnaryOp.ofKind? k = none := by
  cases k <;> first | rfl | cases h

/-- What an expression begins with is a token that can stand at its start. -/
theorem Reads.atStart {part : ExprPart} {es : List Expr} (h : Reads part ts es rest) :
    match part with
    | .expr _ | .start _ | .arguments => (kindOf ts).rule.atStart ≠ none
    | .operators .. | .behind .. => True := by
  induction h with
  | @literal _ _ t _ hl =>
      show t.kind.rule.atStart ≠ none
      cases hkind : t.kind <;> first | (rw [hkind] at hl; cases hl; done) | decide
  | @unary _ _ _ t _ _ ho =>
      show t.kind.rule.atStart ≠ none
      cases hkind : t.kind <;> first | (rw [hkind] at ho; cases ho; done) | decide
  | expr _ _ ih | lastArgument _ _ ih | argument _ _ _ ih => exact ih
  | grouping hkind | number hkind | string hkind | «variable» hkind | assign hkind =>
      simp [hkind, TokenKind.rule]
  | stop | step | binary | and | or | call | callNone | get | set => trivial

/-- Tokens are read as expressions in one way at most. -/
theorem Reads.unique {part : ExprPart} {es es' : List Expr} (h : Reads part ts es rest)
    (h' : Reads part ts es' rest') : es = es' ∧ rest = rest' := by
  induction h generalizing es' rest' <;> cases h'
  case literal.unary hl _ _ ho _ | unary.literal ho _ _ _ hl =>
    rw [UnaryOp.ofKind?_of_literal hl] at ho
    cases ho
  -- a parenthesis that closes a call begins no argument
  case call.callNone | callNone.call =>
    have hstart := Reads.atStart ‹Reads .arguments _ _ _›
    simp_all [TokenKind.rule]
  all_goals grind [Literal.ofKind?, UnaryOp.ofKind?, BinaryOp.ofKind?, kindOf]

/-! ### Clauses and declarations -/

/-- A token that a statement or one of its parts begins with, other than an expression. -/
def TokenKind.isLeading : TokenKind → Bool
  | .printWord | .delWord | .returnWord | .ifWord | .whileWord | .forWord | .leftBrace
  | .semicolon | .varWord | .classWord | .funWord => true
  | _ => false

/-- An expression does not begin with a word that begins a statement. -/
theorem ReadsUpTo.not_isLeading {closing : TokenKind} {t : Token} {e : Expr}
    (h : ReadsUpTo closing (t :: ts) e rest) : t.kind.isLeading = false := by
  obtain ⟨hreads, -⟩ := h
  have hstart : t.kind.rule.atStart ≠ none := hreads.atStart
  cases hkind : t.kind <;> first | rfl | exact absurd (hkind ▸ rfl) hstart

/-- Tokens are read in one way as an expression up to a closing token. -/
theorem ReadsUpTo.unique {closing : TokenKind} {e e' : Expr} (h : ReadsUpTo closing ts e rest)
    (h' : ReadsUpTo closing ts e' rest') : e = e' ∧ rest = rest' := by
  obtain ⟨hreads, -⟩ := h
  obtain ⟨hreads', -⟩ := h'
  obtain ⟨he, hrest⟩ := hreads.unique hreads'
  exact ⟨List.singleton_inj.mp he, (List.cons.inj hrest).2⟩

/-- Tokens are read in one way as a clause. -/
theorem ReadsClause.unique {closing : TokenKind} {e e' : Option Expr}
    (h : ReadsClause closing ts e rest) (h' : ReadsClause closing ts e' rest') :
    e = e' ∧ rest = rest' := by
  cases h with
  | none hkind =>
      cases h' with
      | none => exact ⟨rfl, rfl⟩
      | some hne => exact absurd hkind hne
  | some hne hreads =>
      cases h' with
      | none hkind => exact absurd hkind hne
      | some _ hreads' =>
          obtain ⟨rfl, hrest⟩ := hreads.unique hreads'
          exact ⟨rfl, hrest⟩

/-- Tokens are read in one way as a variable declaration. -/
theorem ReadsVar.unique {st st' : Stmt} (h : ReadsVar ts st rest) (h' : ReadsVar ts st' rest') :
    st = st' ∧ rest = rest' := by
  cases h <;> cases h' <;> grind [ReadsUpTo.unique]

/-- Tokens are read in one way as parameters. -/
theorem ReadsParameters.unique {names names' : List String} (h : ReadsParameters ts names rest)
    (h' : ReadsParameters ts names' rest') : names = names' ∧ rest = rest' := by
  induction h generalizing names' rest' <;> cases h' <;> grind [kindOf]

/-- Tokens are read in one way as a signature. -/
theorem ReadsSignature.unique {names names' : List String} (h : ReadsSignature ts names rest)
    (h' : ReadsSignature ts names' rest') : names = names' ∧ rest = rest' := by
  cases h <;> cases h' <;> grind [ReadsParameters.unique, ReadsParameters]

/-! ### Statements -/

/-- No statement begins with the word of a declaration. -/
theorem ReadsStmt.kind_ne {t : Token} {st : Stmt} (h : ReadsStmt .statement (t :: ts) st rest) :
    t.kind ≠ .varWord ∧ t.kind ≠ .classWord ∧ t.kind ≠ .funWord := by
  cases h with
  | expression he =>
      have hkind := he.not_isLeading
      refine ⟨?_, ?_, ?_⟩ <;> intro heq <;> rw [heq] at hkind <;> cases hkind
  | print hkind | del hkind | ret hkind | branch hkind | branchElse hkind | whileLoop hkind
  | forLoop hkind | block hkind => simp [hkind]

/-- No declaration begins with what ends one, or with the end of the source. -/
theorem ReadsStmt.kindOf_declaration {st : Stmt} (h : ReadsStmt .declaration ts st rest) :
    kindOf ts ≠ .elseWord ∧ kindOf ts ≠ .rightBrace ∧ kindOf ts ≠ .eof := by
  have hexpression {us : List Token} {closing : TokenKind} {e : Expr}
      (he : ReadsUpTo closing us e rest) :
      kindOf us ≠ .elseWord ∧ kindOf us ≠ .rightBrace ∧ kindOf us ≠ .eof := by
    obtain ⟨hreads, -⟩ := he
    have hstart : (kindOf us).rule.atStart ≠ none := hreads.atStart
    refine ⟨?_, ?_, ?_⟩ <;> intro hkind <;> exact hstart (by rw [hkind]; rfl)
  cases h with
  | varDecl hkind | classDecl hkind | funDecl hkind => simp [hkind]
  | statement h =>
      cases h with
      | expression he => exact hexpression he
      | print hkind | del hkind | ret hkind | branch hkind | branchElse hkind | whileLoop hkind
      | forLoop hkind | block hkind => simp [hkind]

/-- No declaration is read from no tokens. -/
theorem ReadsStmt.ne_nil {st : Stmt} (h : ReadsStmt .declaration ts st rest) : ts ≠ [] := by
  rintro rfl
  exact h.kindOf_declaration.2.2 rfl

/-- Tokens are read as statements in one way at most. -/
theorem ReadsStmt.unique {part : StmtPart} {st st' : Stmt} (h : ReadsStmt part ts st rest)
    (h' : ReadsStmt part ts st' rest') : st = st' ∧ rest = rest' := by
  induction h generalizing st' rest' <;> cases h'
  all_goals grind [kindOf, TokenKind.isLeading, ReadsUpTo.not_isLeading, ReadsStmt.kind_ne,
    ReadsUpTo.unique, ReadsClause.unique, ReadsVar.unique, ReadsSignature.unique]

end LoxBytecode
