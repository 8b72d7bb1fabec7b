import LoxBytecode.Number.Reading
import LoxBytecode.Opcode
import LoxBytecode.Token

/-!
# Syntax Trees

The programs of the language as trees. The compiler never builds one; they are the second side
of what is proved about it. Parentheses leave no trace in a tree. A sequence of statements is a
statement, built from `skip` and `seq`, and an `if` without `else` has `skip` there.
-/

namespace LoxBytecode

/-! ### Operators -/

/-- The words that stand for a value. -/
inductive Literal where
  | nil
  | true
  | false
deriving DecidableEq, Repr

/-- The operators in front of an operand. -/
inductive UnaryOp where
  | negate
  | not
deriving DecidableEq, Repr

/-- The operators between two operands that are both evaluated. -/
inductive BinaryOp where
  | equal | notEqual
  | greater | greaterEqual | less | lessEqual
  | add | subtract | multiply | divide
deriving DecidableEq, Repr

/-- The literal of a word. -/
def Literal.ofKind? : TokenKind → Option Literal
  | .nilWord => some .nil
  | .trueWord => some .true
  | .falseWord => some .false
  | _ => none

/-- The operator of a token in front of an operand. -/
def UnaryOp.ofKind? : TokenKind → Option UnaryOp
  | .minus => some .negate
  | .bang => some .not
  | _ => none

/-- The operator of a token between two operands. -/
def BinaryOp.ofKind? : TokenKind → Option BinaryOp
  | .equalEqual => some .equal
  | .bangEqual => some .notEqual
  | .greater => some .greater
  | .greaterEqual => some .greaterEqual
  | .less => some .less
  | .lessEqual => some .lessEqual
  | .plus => some .add
  | .minus => some .subtract
  | .star => some .multiply
  | .slash => some .divide
  | _ => none

/-- The instruction that pushes a literal. -/
def Literal.code : Literal → Opcode
  | .nil => .nil
  | .true => .true
  | .false => .false

/-- The instruction of a unary operator. -/
def UnaryOp.code : UnaryOp → Opcode
  | .negate => .negate
  | .not => .not

/-- The instructions of a binary operator. Three of the comparisons are negations. -/
def BinaryOp.code : BinaryOp → List Opcode
  | .equal => [.equal]
  | .notEqual => [.equal, .not]
  | .greater => [.greater]
  | .greaterEqual => [.less, .not]
  | .less => [.less]
  | .lessEqual => [.greater, .not]
  | .add => [.add]
  | .subtract => [.subtract]
  | .multiply => [.multiply]
  | .divide => [.divide]

/-! ### Expressions and statements -/

/-- Expressions. -/
inductive Expr where
  | literal (l : Literal)
  | number (x : Number)
  | string (text : String)
  | variable (name : String)
  | assign (name : String) (value : Expr)
  | unary (op : UnaryOp) (operand : Expr)
  | binary (op : BinaryOp) (left right : Expr)
  | and (left right : Expr)
  | or (left right : Expr)
  | call (callee : Expr) (arguments : List Expr)
  | get (object : Expr) (name : String)
  | set (object : Expr) (name : String) (value : Expr)

/-- Statements and declarations. -/
inductive Stmt where
  | skip
  | seq (first second : Stmt)
  | expression (e : Expr)
  | print (e : Expr)
  | del (object property : String)
  | ret (value : Option Expr)
  | branch (condition : Expr) (yes no : Stmt)
  | whileLoop (condition : Expr) (body : Stmt)
  | forLoop (first : Stmt) (condition step : Option Expr) (body : Stmt)
  | block (body : Stmt)
  | varDecl (name : String) (value : Option Expr)
  | classDecl (name : String)
  | funDecl (name : String) (parameters : List String) (body : Stmt)

end LoxBytecode
