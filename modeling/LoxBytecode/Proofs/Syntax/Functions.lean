import Mathlib
import LoxBytecode.Proofs.Syntax.Reading
import LoxBytecode.Proofs.Syntax.Scoping

/-!
# Functions in a Program

A program declares one function for each `fun` among its tokens (`ReadsStmt.funCount_eq`).
No other form has that word in it: what is read of an expression, of a list of parameters or of the
first clause of a loop passes none.
-/

namespace LoxBytecode

/-- The number of functions that a statement declares, those in nested functions included. -/
def Stmt.functionCount : Stmt → Nat
  | .skip | .expression _ | .print _ | .del .. | .ret _ | .varDecl .. | .classDecl _ => 0
  | .seq first second => first.functionCount + second.functionCount
  | .branch _ yes no => yes.functionCount + no.functionCount
  | .whileLoop _ body | .block body => body.functionCount
  | .forLoop first _ _ body => first.functionCount + body.functionCount
  | .funDecl _ _ body => body.functionCount + 1

/-- They are the functions declared outside nested functions, each with those in its body. -/
theorem Stmt.functionCount_eq_sum (p : Place) (st : Stmt) : st.functionCount =
    ((st.nested p).map fun q => q.2.functionCount + 1).sum := by
  induction st generalizing p with
  | skip | expression | print | del | ret | varDecl | classDecl => rfl
  | seq first second ihFirst ihSecond =>
      rw [functionCount, nested, List.map_append, List.sum_append, ← ihFirst, ← ihSecond]
  | branch _ yes no ihYes ihNo =>
      rw [functionCount, nested, List.map_append, List.sum_append, ← ihYes, ← ihNo]
  | whileLoop _ body ih => exact ih p
  | block body ih => exact ih p.enter
  | forLoop first _ _ body ihFirst ihBody =>
      rw [functionCount, nested, List.map_append, List.sum_append, ← ihFirst, ← ihBody]
  | funDecl => rw [functionCount, nested, List.map_singleton, List.sum_singleton]

/-- The number of `fun` among some tokens. -/
def funCount (ts : List Token) : Nat :=
  ts.countP (·.kind == .funWord)

@[simp] theorem funCount_nil : funCount [] = 0 := rfl

/-- The word `fun` counts. -/
theorem funCount_fun {t : Token} (h : t.kind = .funWord) (ts : List Token) :
    funCount (t :: ts) = funCount ts + 1 := by
  rw [funCount, List.countP_cons, h]
  rfl

/-- No other token does. -/
theorem funCount_other {t : Token} {kind : TokenKind} (h : t.kind = kind) (ts : List Token)
    (hkind : kind ≠ .funWord) : funCount (t :: ts) = funCount ts := by
  rw [funCount, List.countP_cons, h, beq_eq_false_iff_ne.mpr hkind]
  rfl

section

variable {ts rest : List Token}

/-- No literal is the word `fun`. -/
theorem Literal.ne_fun {kind : TokenKind} {l : Literal} (h : ofKind? kind = some l) :
    kind ≠ .funWord := by
  rintro rfl
  cases h

/-- No operator in front of its operand is the word `fun`. -/
theorem UnaryOp.ne_fun {kind : TokenKind} {o : UnaryOp} (h : ofKind? kind = some o) :
    kind ≠ .funWord := by
  rintro rfl
  cases h

/-- No operator between its operands is the word `fun`. -/
theorem BinaryOp.ne_fun {kind : TokenKind} {o : BinaryOp} (h : ofKind? kind = some o) :
    kind ≠ .funWord := by
  rintro rfl
  cases h

/-- Expressions have no functions in them. -/
theorem Reads.funCount_eq {part : ExprPart} {es : List Expr} (h : Reads part ts es rest) :
    funCount ts = funCount rest := by
  induction h with
  | stop => rfl
  | expr _ _ ihFirst ihRest | step _ _ _ ihFirst ihRest => exact ihFirst.trans ihRest
  | literal hkind => exact funCount_other rfl _ (Literal.ne_fun hkind)
  | number hkind | string hkind | «variable» hkind => exact funCount_other hkind _ (by decide)
  | unary hkind _ ih => exact (funCount_other rfl _ (UnaryOp.ne_fun hkind)).trans ih
  | binary hkind _ ih => exact (funCount_other rfl _ (BinaryOp.ne_fun hkind)).trans ih
  | and hkind _ ih | or hkind _ ih => exact (funCount_other hkind _ (by decide)).trans ih
  | assign hname hequal _ ih =>
      rw [funCount_other hname _ (by decide), funCount_other hequal _ (by decide), ih]
  | grouping hopening _ hclosing ih | call hopening _ hclosing ih =>
      rw [funCount_other hopening _ (by decide), ih, funCount_other hclosing _ (by decide)]
  | callNone hopening hclosing =>
      rw [funCount_other hopening _ (by decide), funCount_other hclosing _ (by decide)]
  | get hdot hname =>
      rw [funCount_other hdot _ (by decide), funCount_other hname _ (by decide)]
  | set hdot hname hequal _ ih =>
      rw [funCount_other hdot _ (by decide), funCount_other hname _ (by decide),
        funCount_other hequal _ (by decide), ih]
  | lastArgument _ _ ih => exact ih
  | argument _ hcomma _ ihFirst ihRest =>
      rw [ihFirst, funCount_other hcomma _ (by decide), ihRest]

/-- Expressions up to a closing token have no functions in them. -/
theorem ReadsUpTo.funCount_eq {closing : TokenKind} {e : Expr} (h : ReadsUpTo closing ts e rest)
    (hclosing : closing ≠ .funWord) : funCount ts = funCount rest := by
  obtain ⟨hreads, hkind⟩ := h
  exact hreads.funCount_eq.trans (funCount_other hkind _ hclosing)

/-- Clauses have no functions in them. -/
theorem ReadsClause.funCount_eq {closing : TokenKind} {e : Option Expr}
    (h : ReadsClause closing ts e rest) (hclosing : closing ≠ .funWord) :
    funCount ts = funCount rest := by
  cases h with
  | none hkind => exact funCount_other hkind _ hclosing
  | some _ hreads => exact hreads.funCount_eq hclosing

/-- Variable declarations have no functions in them. -/
theorem ReadsVar.funCount_eq {st : Stmt} (h : ReadsVar ts st rest) :
    funCount ts = funCount rest ∧ st.functionCount = 0 := by
  cases h with
  | none hname hsemicolon =>
      refine ⟨?_, rfl⟩
      rw [funCount_other hname _ (by decide), funCount_other hsemicolon _ (by decide)]
  | some hname hequal hreads =>
      refine ⟨?_, rfl⟩
      rw [funCount_other hname _ (by decide), funCount_other hequal _ (by decide),
        hreads.funCount_eq (by decide)]

/-- Parameters have no functions in them. -/
theorem ReadsParameters.funCount_eq {names : List String} (h : ReadsParameters ts names rest) :
    funCount ts = funCount rest := by
  induction h with
  | last hname => exact funCount_other hname _ (by decide)
  | more hname hcomma _ ih =>
      rw [funCount_other hname _ (by decide), funCount_other hcomma _ (by decide), ih]

/-- Signatures have no functions in them. -/
theorem ReadsSignature.funCount_eq {names : List String} (h : ReadsSignature ts names rest) :
    funCount ts = funCount rest := by
  cases h with
  | none hopening hclosing =>
      rw [funCount_other hopening _ (by decide), funCount_other hclosing _ (by decide)]
  | some hopening hnames hclosing =>
      rw [funCount_other hopening _ (by decide), hnames.funCount_eq,
        funCount_other hclosing _ (by decide)]

/-- A statement declares as many functions as there are `fun` among the tokens that it is read
from. -/
theorem ReadsStmt.funCount_eq {part : StmtPart} {st : Stmt} (h : ReadsStmt part ts st rest) :
    funCount ts = st.functionCount + funCount rest := by
  induction h with
  | programEnd => rfl
  | statement _ ih => exact ih
  | print hkind hreads =>
      rw [funCount_other hkind _ (by decide), hreads.funCount_eq (by decide), Stmt.functionCount,
        Nat.zero_add]
  | ret hkind hreads =>
      rw [funCount_other hkind _ (by decide), hreads.funCount_eq (by decide), Stmt.functionCount,
        Nat.zero_add]
  | expression hreads | forExpression hreads =>
      rw [hreads.funCount_eq (by decide), Stmt.functionCount, Nat.zero_add]
  | varDecl hkind hreads | forVar hkind hreads =>
      rw [funCount_other hkind _ (by decide), hreads.funCount_eq.1, hreads.funCount_eq.2,
        Nat.zero_add]
  | forNone hkind | blockEnd hkind =>
      rw [funCount_other hkind _ (by decide), Stmt.functionCount, Nat.zero_add]
  | del hkind hobject hdot hproperty hsemicolon =>
      rw [funCount_other hkind _ (by decide), funCount_other hobject _ (by decide),
        funCount_other hdot _ (by decide), funCount_other hproperty _ (by decide),
        funCount_other hsemicolon _ (by decide), Stmt.functionCount, Nat.zero_add]
  | classDecl hkind hname hopening hclosing =>
      rw [funCount_other hkind _ (by decide), funCount_other hname _ (by decide),
        funCount_other hopening _ (by decide), funCount_other hclosing _ (by decide),
        Stmt.functionCount, Nat.zero_add]
  | block hkind _ ih =>
      rw [funCount_other hkind _ (by decide), ih, Stmt.functionCount]
  | branch hkind hopening hc _ _ ih =>
      rw [funCount_other hkind _ (by decide), funCount_other hopening _ (by decide),
        hc.funCount_eq (by decide), ih, Stmt.functionCount, Stmt.functionCount, Nat.add_zero]
  | branchElse hkind hopening hc _ hother _ ihYes ihNo =>
      rw [funCount_other hkind _ (by decide), funCount_other hopening _ (by decide),
        hc.funCount_eq (by decide), ihYes, funCount_other hother _ (by decide), ihNo,
        Stmt.functionCount, Nat.add_assoc]
  | whileLoop hkind hopening hc _ ih =>
      rw [funCount_other hkind _ (by decide), funCount_other hopening _ (by decide),
        hc.funCount_eq (by decide), ih, Stmt.functionCount]
  | forLoop hkind hopening _ hc hstep _ ihFirst ihBody =>
      rw [funCount_other hkind _ (by decide), funCount_other hopening _ (by decide), ihFirst,
        hc.funCount_eq (by decide), hstep.funCount_eq (by decide), ihBody, Stmt.functionCount,
        Nat.add_assoc]
  | funDecl hkind hname hsignature hopening _ ih =>
      rw [funCount_fun hkind, funCount_other hname _ (by decide), hsignature.funCount_eq,
        funCount_other hopening _ (by decide), ih, Stmt.functionCount]
      omega
  | blockMore _ _ _ ihFirst ihRest | programMore _ _ _ ihFirst ihRest =>
      rw [ihFirst, ihRest, Stmt.functionCount, Nat.add_assoc]

end

end LoxBytecode
