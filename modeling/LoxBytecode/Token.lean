/-!
# Tokens

A token is a piece of source text with a kind and a line. A piece that is not valid becomes an
`error` token whose lexeme is the message, so that scanning never stops; the end of the source
is a token too.
-/

namespace LoxBytecode

/-- The kinds of token. -/
inductive TokenKind where
  | leftParen | rightParen | leftBrace | rightBrace
  | comma | dot | minus | plus | semicolon | slash | star
  | bang | bangEqual | equal | equalEqual | greater | greaterEqual | less | lessEqual
  | identifier | string | number
  | andWord | classWord | delWord | elseWord | falseWord | forWord | funWord | ifWord | nilWord
  | orWord | printWord | returnWord | superWord | thisWord | trueWord | varWord | whileWord
  | error
  | eof
deriving DecidableEq, Repr

namespace TokenKind

/-- The reserved words. -/
def keywords : List (String × TokenKind) :=
  [("and", .andWord), ("class", .classWord), ("del", .delWord), ("else", .elseWord),
   ("false", .falseWord), ("for", .forWord), ("fun", .funWord), ("if", .ifWord),
   ("nil", .nilWord), ("or", .orWord), ("print", .printWord), ("return", .returnWord),
   ("super", .superWord), ("this", .thisWord), ("true", .trueWord), ("var", .varWord),
   ("while", .whileWord)]

/-- The kind of a reserved word. -/
def keyword? (word : String) : Option TokenKind :=
  keywords.lookup word

/-- Whether a token of this kind begins a statement. Error recovery stops in front of one. -/
def startsStatement : TokenKind → Bool
  | .classWord | .funWord | .varWord | .forWord | .ifWord | .whileWord | .printWord
  | .returnWord => true
  | _ => false

end TokenKind

/-- A token. Its line is the one on which it ends. -/
structure Token where
  kind : TokenKind
  /-- The text of the token, or the message of an `error`. -/
  lexeme : String
  line : Nat
deriving DecidableEq, Repr

/-- The token that stands for the end of the source. -/
def Token.eof (line : Nat) : Token :=
  ⟨.eof, "", line⟩

/-! ### Streams -/

/-- The tokens of a source that are still to come. The end of the source follows the last one
however often it is asked for. -/
structure TokenStream where
  ahead : List Token
  /-- The line of the end of the source. -/
  endLine : Nat
deriving DecidableEq, Repr

namespace TokenStream

/-- The next token and the stream after it. -/
def next (s : TokenStream) : Token × TokenStream :=
  match s.ahead with
  | [] => (Token.eof s.endLine, s)
  | t :: ts => (t, { s with ahead := ts })

/-- All tokens of the stream, the first end of the source included. -/
def toList (s : TokenStream) : List Token :=
  s.ahead ++ [Token.eof s.endLine]

end TokenStream

end LoxBytecode
