import LoxBytecode.Proofs.Syntax.Reading
import LoxBytecode.Proofs.Syntax.Scoping

/-!
# Names in a Program

The variables that a program uses have the names of some of its tokens. What is true of the texts
of all tokens is therefore true of these names (`ReadsStmt.names`), such as that they are not
empty.
-/

namespace LoxBytecode

variable {P : String → Prop} {p : Place} {ts rest : List Token}

/-- The expression that is read already. -/
def ExprPart.left : ExprPart → List Expr
  | .operators _ l | .behind _ l => [l]
  | .expr _ | .start _ | .arguments => []

/-- Names that are read in an expression are lexemes of its tokens. -/
theorem Reads.names {part : ExprPart} {es : List Expr} (h : Reads part ts es rest)
    (hts : ∀ t ∈ ts, P t.lexeme) (hleft : ∀ r ∈ Expr.referencesAll p part.left, P r.name) :
    (∀ t ∈ rest, P t.lexeme) ∧ ∀ r ∈ Expr.referencesAll p es, P r.name := by
  induction h <;> simp [Expr.referencesAll, Expr.references, ExprPart.left] at * <;> grind

/-- Names that are read in an expression up to a closing token are lexemes of its tokens. -/
theorem ReadsUpTo.names {closing : TokenKind} {e : Expr} (h : ReadsUpTo closing ts e rest)
    (hts : ∀ t ∈ ts, P t.lexeme) :
    (∀ t ∈ rest, P t.lexeme) ∧ ∀ p, ∀ r ∈ e.references p, P r.name := by
  obtain ⟨hreads, -⟩ := h
  refine ⟨fun t ht => ?_, fun p r hr => ?_⟩
  · exact (hreads.names (p := .script) hts (by simp [ExprPart.left, Expr.referencesAll])).1 t
      (List.mem_cons_of_mem _ ht)
  · exact (hreads.names hts (by simp [ExprPart.left, Expr.referencesAll])).2 r
      (List.mem_append_left _ hr)

/-- Names that are read in a clause are lexemes of its tokens. -/
theorem ReadsClause.names {closing : TokenKind} {e : Option Expr}
    (h : ReadsClause closing ts e rest) (hts : ∀ t ∈ ts, P t.lexeme) :
    (∀ t ∈ rest, P t.lexeme) ∧ ∀ p, ∀ r ∈ Expr.referencesOf p e, P r.name := by
  cases h with
  | none => exact ⟨(List.forall_mem_cons.mp hts).2, fun _ => List.forall_mem_nil _⟩
  | some _ h => exact h.names hts

/-- Names that are read in a variable declaration are lexemes of its tokens. -/
theorem ReadsVar.names {st : Stmt} (h : ReadsVar ts st rest) (hts : ∀ t ∈ ts, P t.lexeme) :
    (∀ t ∈ rest, P t.lexeme) ∧ ∀ p, ∀ r ∈ st.references p, P r.name := by
  cases h with
  | none =>
      simp only [List.forall_mem_cons] at hts
      exact ⟨hts.2.2, fun _ => List.forall_mem_nil _⟩
  | some _ _ h =>
      simp only [List.forall_mem_cons] at hts
      exact h.names hts.2.2

/-- What holds of all lexemes holds of those behind the parameters. -/
theorem ReadsParameters.names {names : List String} (h : ReadsParameters ts names rest)
    (hts : ∀ t ∈ ts, P t.lexeme) : ∀ t ∈ rest, P t.lexeme := by
  induction h <;> simp_all

/-- What holds of all lexemes holds of those behind a signature. -/
theorem ReadsSignature.names {names : List String} (h : ReadsSignature ts names rest)
    (hts : ∀ t ∈ ts, P t.lexeme) : ∀ t ∈ rest, P t.lexeme := by
  cases h with
  | none => simp_all
  | some _ h _ =>
      exact (List.forall_mem_cons.mp (h.names (List.forall_mem_cons.mp hts).2)).2

/-- What is true of the texts of all tokens is true of the names of all variables. -/
theorem ReadsStmt.names {part : StmtPart} {st : Stmt} (h : ReadsStmt part ts st rest)
    (hts : ∀ t ∈ ts, P t.lexeme) :
    (∀ t ∈ rest, P t.lexeme) ∧ ∀ p, ∀ r ∈ st.references p, P r.name := by
  induction h with
  | print _ h | ret _ h | varDecl _ h | forVar _ h => exact h.names (List.forall_mem_cons.mp hts).2
  | expression h | forExpression h => exact h.names hts
  | statement _ ih => exact ih hts
  | block _ _ ih =>
      obtain ⟨hrest, hr⟩ := ih (List.forall_mem_cons.mp hts).2
      exact ⟨hrest, fun p => hr p.enter⟩
  | programEnd => exact ⟨hts, fun _ => List.forall_mem_nil _⟩
  | forNone | blockEnd => exact ⟨(List.forall_mem_cons.mp hts).2, fun _ => List.forall_mem_nil _⟩
  | del =>
      simp only [List.forall_mem_cons] at hts
      exact ⟨hts.2.2.2.2.2, fun p => List.forall_mem_singleton.mpr hts.2.1⟩
  | branch _ _ hc _ _ ih =>
      simp only [List.forall_mem_cons] at hts
      obtain ⟨hts, hc⟩ := hc.names hts.2.2
      obtain ⟨hts, hyes⟩ := ih hts
      exact ⟨hts, fun p => List.forall_mem_append.mpr
        ⟨hc p, List.forall_mem_append.mpr ⟨hyes p, List.forall_mem_nil _⟩⟩⟩
  | branchElse _ _ hc _ _ _ ihYes ihNo =>
      simp only [List.forall_mem_cons] at hts
      obtain ⟨hts, hc⟩ := hc.names hts.2.2
      obtain ⟨hts, hyes⟩ := ihYes hts
      obtain ⟨hts, hno⟩ := ihNo (List.forall_mem_cons.mp hts).2
      exact ⟨hts, fun p => List.forall_mem_append.mpr
        ⟨hc p, List.forall_mem_append.mpr ⟨hyes p, hno p⟩⟩⟩
  | whileLoop _ _ hc _ ih =>
      simp only [List.forall_mem_cons] at hts
      obtain ⟨hts, hc⟩ := hc.names hts.2.2
      obtain ⟨hts, hbody⟩ := ih hts
      exact ⟨hts, fun p => List.forall_mem_append.mpr ⟨hc p, hbody p⟩⟩
  | forLoop _ _ _ hc hstep _ ihFirst ihBody =>
      simp only [List.forall_mem_cons] at hts
      obtain ⟨hts, hfirst⟩ := ihFirst hts.2.2
      obtain ⟨hts, hc⟩ := hc.names hts
      obtain ⟨hts, hstep⟩ := hstep.names hts
      obtain ⟨hts, hbody⟩ := ihBody hts
      exact ⟨hts, fun p => List.forall_mem_append.mpr
        ⟨hfirst p.enter, List.forall_mem_append.mpr
          ⟨hc _, List.forall_mem_append.mpr ⟨hstep _, hbody _⟩⟩⟩⟩
  | classDecl =>
      simp only [List.forall_mem_cons] at hts
      exact ⟨hts.2.2.2.2, fun _ => List.forall_mem_nil _⟩
  | funDecl _ _ hsignature _ _ ih =>
      simp only [List.forall_mem_cons] at hts
      obtain ⟨hts, -⟩ := ih (List.forall_mem_cons.mp (hsignature.names hts.2.2)).2
      exact ⟨hts, fun _ => List.forall_mem_nil _⟩
  | blockMore _ _ _ ihFirst ihRest | programMore _ _ _ ihFirst ihRest =>
      obtain ⟨hts, hfirst⟩ := ihFirst hts
      obtain ⟨hts, hrest⟩ := ihRest hts
      exact ⟨hts, fun p => List.forall_mem_append.mpr ⟨hfirst p, hrest _⟩⟩

end LoxBytecode
