import LoxBytecode.Compile.Session
import LoxBytecode.Precedence
import LoxBytecode.Proofs.Syntax.Tree

/-!
# Reading a Program

How a sequence of tokens is read as a program, from left to right and with one token of
lookahead: `Reads` for expressions, by precedence climbing, and `ReadsStmt` for statements. Both
relate the tokens that are ahead before and after. This is the order in which the compiler goes
through its tokens, without anything that it writes.
-/

namespace LoxBytecode

/-- The kind of the next token. -/
def kindOf : List Token → TokenKind
  | [] => .eof
  | t :: _ => t.kind

@[simp] theorem kindOf_nil : kindOf [] = .eof := rfl

@[simp] theorem kindOf_cons (t : Token) (ts : List Token) : kindOf (t :: ts) = t.kind := rfl

/-! ### Expressions -/

/-- What of an expression is read. -/
inductive ExprPart where
  /-- An expression whose operators bind at least as tightly as a level. -/
  | expr (p : Precedence)
  /-- What begins one, where an assignment may stand or may not. -/
  | start (canAssign : Bool)
  /-- The operators behind one. -/
  | operators (p : Precedence) (left : Expr)
  /-- One operator with what belongs to it. -/
  | behind (canAssign : Bool) (left : Expr)
  /-- The arguments of a call that has some. -/
  | arguments

/-- Some expressions are read. All parts but the arguments of a call are one expression. -/
inductive Reads : ExprPart → List Token → List Expr → List Token → Prop
  | expr {p : Precedence} {l e : Expr} {ts ts₁ rest : List Token} :
      Reads (.start (decide (p ≤ .assignment))) ts [l] ts₁ →
        Reads (.operators p l) ts₁ [e] rest → Reads (.expr p) ts [e] rest
  | grouping {c : Bool} {e : Expr} {opening closing : Token} {ts rest : List Token} :
      opening.kind = .leftParen → Reads (.expr .assignment) ts [e] (closing :: rest) →
        closing.kind = .rightParen → Reads (.start c) (opening :: ts) [e] rest
  | literal {c : Bool} {l : Literal} {t : Token} {rest : List Token} :
      Literal.ofKind? t.kind = some l → Reads (.start c) (t :: rest) [.literal l] rest
  | number {c : Bool} {x : Number} {t : Token} {rest : List Token} :
      t.kind = .number → Number.ofText? t.lexeme = some x →
        Reads (.start c) (t :: rest) [.number x] rest
  | string {c : Bool} {text : String} {t : Token} {rest : List Token} :
      t.kind = .string → Session.unquote t.lexeme = .ok text →
        Reads (.start c) (t :: rest) [.string text] rest
  | unary {c : Bool} {o : UnaryOp} {e : Expr} {t : Token} {ts rest : List Token} :
      UnaryOp.ofKind? t.kind = some o → Reads (.expr .unary) ts [e] rest →
        Reads (.start c) (t :: ts) [.unary o e] rest
  | variable {c : Bool} {t : Token} {rest : List Token} :
      t.kind = .identifier → ¬ (c = true ∧ kindOf rest = .equal) →
        Reads (.start c) (t :: rest) [.variable t.lexeme] rest
  | assign {e : Expr} {t equal : Token} {ts rest : List Token} :
      t.kind = .identifier → equal.kind = .equal → Reads (.expr .assignment) ts [e] rest →
        Reads (.start true) (t :: equal :: ts) [.assign t.lexeme e] rest
  | stop {p : Precedence} {l : Expr} {rest : List Token} :
      ¬ p ≤ (kindOf rest).rule.precedence → Reads (.operators p l) rest [l] rest
  | step {p : Precedence} {l l' e : Expr} {ts ts₁ rest : List Token} :
      p ≤ (kindOf ts).rule.precedence →
        Reads (.behind (decide (p ≤ .assignment)) l) ts [l'] ts₁ →
          Reads (.operators p l') ts₁ [e] rest → Reads (.operators p l) ts [e] rest
  | binary {c : Bool} {o : BinaryOp} {l r : Expr} {t : Token} {ts rest : List Token} :
      BinaryOp.ofKind? t.kind = some o → Reads (.expr t.kind.rule.precedence.next) ts [r] rest →
        Reads (.behind c l) (t :: ts) [.binary o l r] rest
  | and {c : Bool} {l r : Expr} {t : Token} {ts rest : List Token} :
      t.kind = .andWord → Reads (.expr .and) ts [r] rest →
        Reads (.behind c l) (t :: ts) [.and l r] rest
  | or {c : Bool} {l r : Expr} {t : Token} {ts rest : List Token} :
      t.kind = .orWord → Reads (.expr .or) ts [r] rest →
        Reads (.behind c l) (t :: ts) [.or l r] rest
  | call {c : Bool} {l : Expr} {args : List Expr} {opening closing : Token}
      {ts rest : List Token} :
      opening.kind = .leftParen → Reads .arguments ts args (closing :: rest) →
        closing.kind = .rightParen → Reads (.behind c l) (opening :: ts) [.call l args] rest
  | callNone {c : Bool} {l : Expr} {opening closing : Token} {rest : List Token} :
      opening.kind = .leftParen → closing.kind = .rightParen →
        Reads (.behind c l) (opening :: closing :: rest) [.call l []] rest
  | get {c : Bool} {l : Expr} {dot name : Token} {rest : List Token} :
      dot.kind = .dot → name.kind = .identifier → ¬ (c = true ∧ kindOf rest = .equal) →
        Reads (.behind c l) (dot :: name :: rest) [.get l name.lexeme] rest
  | set {l v : Expr} {dot name equal : Token} {ts rest : List Token} :
      dot.kind = .dot → name.kind = .identifier → equal.kind = .equal →
        Reads (.expr .assignment) ts [v] rest →
          Reads (.behind true l) (dot :: name :: equal :: ts) [.set l name.lexeme v] rest
  | lastArgument {e : Expr} {ts rest : List Token} :
      Reads (.expr .assignment) ts [e] rest → kindOf rest ≠ .comma →
        Reads .arguments ts [e] rest
  | argument {e : Expr} {es : List Expr} {comma : Token} {ts ts₁ rest : List Token} :
      Reads (.expr .assignment) ts [e] (comma :: ts₁) → comma.kind = .comma →
        Reads .arguments ts₁ es rest → Reads .arguments ts (e :: es) rest

/-! ### Statements -/

/-- An expression up to a token of some kind. -/
inductive ReadsUpTo (closing : TokenKind) (ts : List Token) (e : Expr) (rest : List Token) : Prop
  | intro {t : Token} : Reads (.expr .assignment) ts [e] (t :: rest) → t.kind = closing →
      ReadsUpTo closing ts e rest

/-- An expression that may be left out, up to a token of some kind. -/
inductive ReadsClause (closing : TokenKind) : List Token → Option Expr → List Token → Prop
  | none {t : Token} {rest : List Token} : t.kind = closing →
      ReadsClause closing (t :: rest) none rest
  | some {ts : List Token} {e : Expr} {rest : List Token} : kindOf ts ≠ closing →
      ReadsUpTo closing ts e rest → ReadsClause closing ts (some e) rest

/-- The declaration of a variable, behind its first word. -/
inductive ReadsVar : List Token → Stmt → List Token → Prop
  | none {name semicolon : Token} {rest : List Token} : name.kind = .identifier →
      semicolon.kind = .semicolon →
        ReadsVar (name :: semicolon :: rest) (.varDecl name.lexeme none) rest
  | some {name equal : Token} {ts rest : List Token} {e : Expr} : name.kind = .identifier →
      equal.kind = .equal → ReadsUpTo .semicolon ts e rest →
        ReadsVar (name :: equal :: ts) (.varDecl name.lexeme (some e)) rest

/-- The names of the parameters of a function that has some. -/
inductive ReadsParameters : List Token → List String → List Token → Prop
  | last {name : Token} {rest : List Token} : name.kind = .identifier →
      kindOf rest ≠ .comma → ReadsParameters (name :: rest) [name.lexeme] rest
  | more {name comma : Token} {ts rest : List Token} {names : List String} :
      name.kind = .identifier → comma.kind = .comma → ReadsParameters ts names rest →
        ReadsParameters (name :: comma :: ts) (name.lexeme :: names) rest

/-- The parentheses behind the name of a function. -/
inductive ReadsSignature : List Token → List String → List Token → Prop
  | none {opening closing : Token} {rest : List Token} : opening.kind = .leftParen →
      closing.kind = .rightParen → ReadsSignature (opening :: closing :: rest) [] rest
  | some {opening closing : Token} {ts rest : List Token} {names : List String} :
      opening.kind = .leftParen → ReadsParameters ts names (closing :: rest) →
        closing.kind = .rightParen → ReadsSignature (opening :: ts) names rest

/-- What of a program is read. -/
inductive StmtPart where
  | statement
  | declaration
  /-- The first clause of a `for`. -/
  | forFirst
  /-- The declarations of a block, and the brace that closes it. -/
  | block
  /-- Declarations up to the end of the source. -/
  | program
deriving DecidableEq

/-- A statement is read. -/
inductive ReadsStmt : StmtPart → List Token → Stmt → List Token → Prop
  | print {t : Token} {ts rest : List Token} {e : Expr} : t.kind = .printWord →
      ReadsUpTo .semicolon ts e rest → ReadsStmt .statement (t :: ts) (.print e) rest
  | del {t object dot property semicolon : Token} {rest : List Token} : t.kind = .delWord →
      object.kind = .identifier → dot.kind = .dot → property.kind = .identifier →
        semicolon.kind = .semicolon →
          ReadsStmt .statement (t :: object :: dot :: property :: semicolon :: rest)
            (.del object.lexeme property.lexeme) rest
  | ret {t : Token} {ts rest : List Token} {value : Option Expr} : t.kind = .returnWord →
      ReadsClause .semicolon ts value rest → ReadsStmt .statement (t :: ts) (.ret value) rest
  | branch {t opening : Token} {ts ts₁ rest : List Token} {c : Expr} {yes : Stmt} :
      t.kind = .ifWord → opening.kind = .leftParen → ReadsUpTo .rightParen ts c ts₁ →
        ReadsStmt .statement ts₁ yes rest → kindOf rest ≠ .elseWord →
          ReadsStmt .statement (t :: opening :: ts) (.branch c yes .skip) rest
  | branchElse {t opening other : Token} {ts ts₁ ts₂ rest : List Token} {c : Expr}
      {yes no : Stmt} : t.kind = .ifWord → opening.kind = .leftParen →
      ReadsUpTo .rightParen ts c ts₁ → ReadsStmt .statement ts₁ yes (other :: ts₂) →
        other.kind = .elseWord → ReadsStmt .statement ts₂ no rest →
          ReadsStmt .statement (t :: opening :: ts) (.branch c yes no) rest
  | whileLoop {t opening : Token} {ts ts₁ rest : List Token} {c : Expr} {body : Stmt} :
      t.kind = .whileWord → opening.kind = .leftParen → ReadsUpTo .rightParen ts c ts₁ →
        ReadsStmt .statement ts₁ body rest →
          ReadsStmt .statement (t :: opening :: ts) (.whileLoop c body) rest
  | forLoop {t opening : Token} {ts ts₁ ts₂ ts₃ rest : List Token} {first body : Stmt}
      {c step : Option Expr} : t.kind = .forWord → opening.kind = .leftParen →
      ReadsStmt .forFirst ts first ts₁ → ReadsClause .semicolon ts₁ c ts₂ →
        ReadsClause .rightParen ts₂ step ts₃ → ReadsStmt .statement ts₃ body rest →
          ReadsStmt .statement (t :: opening :: ts) (.forLoop first c step body) rest
  | block {t : Token} {ts rest : List Token} {body : Stmt} : t.kind = .leftBrace →
      ReadsStmt .block ts body rest → ReadsStmt .statement (t :: ts) (.block body) rest
  | expression {ts rest : List Token} {e : Expr} : ReadsUpTo .semicolon ts e rest →
      ReadsStmt .statement ts (.expression e) rest
  | varDecl {t : Token} {ts rest : List Token} {st : Stmt} : t.kind = .varWord →
      ReadsVar ts st rest → ReadsStmt .declaration (t :: ts) st rest
  | classDecl {t name opening closing : Token} {rest : List Token} : t.kind = .classWord →
      name.kind = .identifier → opening.kind = .leftBrace → closing.kind = .rightBrace →
        ReadsStmt .declaration (t :: name :: opening :: closing :: rest)
          (.classDecl name.lexeme) rest
  | funDecl {t name opening : Token} {ts ts₁ rest : List Token} {names : List String}
      {body : Stmt} : t.kind = .funWord → name.kind = .identifier →
      ReadsSignature ts names (opening :: ts₁) → opening.kind = .leftBrace →
        ReadsStmt .block ts₁ body rest →
          ReadsStmt .declaration (t :: name :: ts) (.funDecl name.lexeme names body) rest
  | statement {ts rest : List Token} {st : Stmt} : ReadsStmt .statement ts st rest →
      ReadsStmt .declaration ts st rest
  | forNone {t : Token} {rest : List Token} : t.kind = .semicolon →
      ReadsStmt .forFirst (t :: rest) .skip rest
  | forVar {t : Token} {ts rest : List Token} {st : Stmt} : t.kind = .varWord →
      ReadsVar ts st rest → ReadsStmt .forFirst (t :: ts) st rest
  | forExpression {ts rest : List Token} {e : Expr} : ReadsUpTo .semicolon ts e rest →
      ReadsStmt .forFirst ts (.expression e) rest
  | blockEnd {t : Token} {rest : List Token} : t.kind = .rightBrace →
      ReadsStmt .block (t :: rest) .skip rest
  | blockMore {ts ts₁ rest : List Token} {st body : Stmt} : kindOf ts ≠ .rightBrace →
      ReadsStmt .declaration ts st ts₁ → ReadsStmt .block ts₁ body rest →
        ReadsStmt .block ts (.seq st body) rest
  | programEnd : ReadsStmt .program [] .skip []
  | programMore {ts ts₁ rest : List Token} {st body : Stmt} : ts ≠ [] →
      ReadsStmt .declaration ts st ts₁ → ReadsStmt .program ts₁ body rest →
        ReadsStmt .program ts (.seq st body) rest

end LoxBytecode
