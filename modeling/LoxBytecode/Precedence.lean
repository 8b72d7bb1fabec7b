import LoxBytecode.Token

/-!
# Precedence

Expressions are parsed by precedence climbing. Each kind of token has a rule: what it means at
the start of an expression, what it means behind one, and how tightly it binds there.
-/

namespace LoxBytecode

/-- How tightly an operator binds, the weakest first. -/
inductive Precedence where
  | none
  | assignment
  | or
  | and
  | equality
  | comparison
  | term
  | factor
  | unary
  | call
  | primary
deriving DecidableEq, Repr

namespace Precedence

/-- The levels, the weakest first. -/
def levels : List Precedence :=
  [.none, .assignment, .or, .and, .equality, .comparison, .term, .factor, .unary, .call,
   .primary]

/-- The place of a level among `levels`. -/
def rank (p : Precedence) : Nat :=
  p.ctorIdx

instance : LE Precedence where
  le p q := p.rank ≤ q.rank

instance (p q : Precedence) : Decidable (p ≤ q) :=
  inferInstanceAs (Decidable (p.rank ≤ q.rank))

/-- The next tighter level: that of the right operand of an operator that groups to the left.
The tightest level is its own. -/
def next : Precedence → Precedence
  | .none => .assignment
  | .assignment => .or
  | .or => .and
  | .and => .equality
  | .equality => .comparison
  | .comparison => .term
  | .term => .factor
  | .factor => .unary
  | .unary => .call
  | .call | .primary => .primary

end Precedence

/-- What a token means at the start of an expression. -/
inductive PrefixForm where
  | grouping
  | unary
  | identifier
  | string
  | number
  | literal
deriving DecidableEq, Repr

/-- What a token means behind an expression. -/
inductive InfixForm where
  | call
  | dot
  | binary
  | and
  | or
deriving DecidableEq, Repr

/-- The part that a kind of token plays in expressions. -/
structure ParseRule where
  atStart : Option PrefixForm
  behind : Option InfixForm
  precedence : Precedence
deriving DecidableEq, Repr

/-- The rule of a kind of token. A token that does not continue expressions has the lowest
precedence, below every one that is asked for. -/
def TokenKind.rule : TokenKind → ParseRule
  | .leftParen => ⟨some .grouping, some .call, .call⟩
  | .dot => ⟨none, some .dot, .call⟩
  | .minus => ⟨some .unary, some .binary, .term⟩
  | .plus => ⟨none, some .binary, .term⟩
  | .slash | .star => ⟨none, some .binary, .factor⟩
  | .bang => ⟨some .unary, none, .none⟩
  | .bangEqual | .equalEqual => ⟨none, some .binary, .equality⟩
  | .greater | .greaterEqual | .less | .lessEqual => ⟨none, some .binary, .comparison⟩
  | .identifier => ⟨some .identifier, none, .none⟩
  | .string => ⟨some .string, none, .none⟩
  | .number => ⟨some .number, none, .none⟩
  | .andWord => ⟨none, some .and, .and⟩
  | .orWord => ⟨none, some .or, .or⟩
  | .falseWord | .nilWord | .trueWord => ⟨some .literal, none, .none⟩
  | _ => ⟨none, none, .none⟩

end LoxBytecode
