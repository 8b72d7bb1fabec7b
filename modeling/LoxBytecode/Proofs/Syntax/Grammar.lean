import LoxBytecode.Precedence

/-!
# The Grammar

The context-free grammar of the language, as a table of rules. It is stratified: each level of
precedence is a phrase of its own, binary operators group to the left, and `and`, `or` and
assignments to the right. An `else` may belong to any `if` before it that has none yet; which
one it belongs to is not a matter of the grammar.

`Derives` says which kinds of tokens a sequence of symbols stands for. The compiler knows
nothing of this table. What it accepts and where it stops is compared with the grammar elsewhere.
-/

namespace LoxBytecode

/-! ### Phrases and rules -/

/-- The phrases of the language. -/
inductive Nonterminal where
  | program
  | declarations
  | declaration
  | varDeclaration
  | statement
  | block
  /-- The first clause of a `for`. -/
  | initializer
  /-- What stands between the parentheses of a function. -/
  | parameters
  | parameterList
  /-- What stands between the parentheses of a call. -/
  | arguments
  | argumentList
  /-- An expression that may be left out. -/
  | clause
  | expression
  /-- An expression whose operators bind at least as tightly as a level. -/
  | level (p : Precedence)
deriving DecidableEq, Repr

/-- What a rule is made of. -/
inductive GrammarSymbol where
  | token (k : TokenKind)
  | phrase (n : Nonterminal)
deriving DecidableEq, Repr

open GrammarSymbol

/-- The operators of a level whose operators stand between operands and group to the left. -/
def Precedence.binaryOperators : Precedence → List TokenKind
  | .equality => [.bangEqual, .equalEqual]
  | .comparison => [.greater, .greaterEqual, .less, .lessEqual]
  | .term => [.minus, .plus]
  | .factor => [.slash, .star]
  | _ => []

/-- What an expression of a level can be, besides one of the next level. -/
def Precedence.forms : Precedence → List (List GrammarSymbol)
  | .assignment =>
    [[token .identifier, token .equal, phrase (.level .assignment)],
     [phrase (.level .call), token .dot, token .identifier, token .equal,
      phrase (.level .assignment)]]
  | .or => [[phrase (.level .and), token .orWord, phrase (.level .or)]]
  | .and => [[phrase (.level .equality), token .andWord, phrase (.level .and)]]
  | .unary =>
    [[token .minus, phrase (.level .unary)],
     [token .bang, phrase (.level .unary)]]
  | .call =>
    [[phrase (.level .call), token .leftParen, phrase .arguments, token .rightParen],
     [phrase (.level .call), token .dot, token .identifier]]
  | .primary =>
    [[token .nilWord], [token .trueWord], [token .falseWord], [token .number], [token .string],
     [token .identifier],
     [token .leftParen, phrase .expression, token .rightParen]]
  | p => p.binaryOperators.map fun o => [phrase (.level p), token o, phrase (.level p.next)]

/-- What a phrase can be. -/
def Nonterminal.rules : Nonterminal → List (List GrammarSymbol)
  | .program => [[phrase .declarations, token .eof]]
  | .declarations => [[], [phrase .declaration, phrase .declarations]]
  | .declaration =>
    [[token .classWord, token .identifier, token .leftBrace, token .rightBrace],
     [token .funWord, token .identifier, token .leftParen, phrase .parameters,
      token .rightParen, phrase .block],
     [phrase .varDeclaration],
     [phrase .statement]]
  | .varDeclaration =>
    [[token .varWord, token .identifier, token .semicolon],
     [token .varWord, token .identifier, token .equal, phrase .expression, token .semicolon]]
  | .statement =>
    [[token .printWord, phrase .expression, token .semicolon],
     [token .delWord, token .identifier, token .dot, token .identifier, token .semicolon],
     [token .returnWord, phrase .clause, token .semicolon],
     [token .ifWord, token .leftParen, phrase .expression, token .rightParen, phrase .statement],
     [token .ifWord, token .leftParen, phrase .expression, token .rightParen, phrase .statement,
      token .elseWord, phrase .statement],
     [token .whileWord, token .leftParen, phrase .expression, token .rightParen,
      phrase .statement],
     [token .forWord, token .leftParen, phrase .initializer, phrase .clause, token .semicolon,
      phrase .clause, token .rightParen, phrase .statement],
     [phrase .block],
     [phrase .expression, token .semicolon]]
  | .block => [[token .leftBrace, phrase .declarations, token .rightBrace]]
  | .initializer =>
    [[token .semicolon], [phrase .varDeclaration], [phrase .expression, token .semicolon]]
  | .parameters => [[], [phrase .parameterList]]
  | .parameterList =>
    [[token .identifier], [token .identifier, token .comma, phrase .parameterList]]
  | .arguments => [[], [phrase .argumentList]]
  | .argumentList =>
    [[phrase .expression], [phrase .expression, token .comma, phrase .argumentList]]
  | .clause => [[], [phrase .expression]]
  | .expression => [[phrase (.level .assignment)]]
  | .level p => p.forms ++ [[phrase (.level p.next)]]

/-! ### Derivations -/

/-- Some symbols stand for tokens of some kinds. -/
inductive Derives : List GrammarSymbol → List TokenKind → Prop
  | nil : Derives [] []
  | token {k : TokenKind} {σ : List GrammarSymbol} {ks : List TokenKind} :
      Derives σ ks → Derives (token k :: σ) (k :: ks)
  | phrase {n : Nonterminal} {ρ σ : List GrammarSymbol} {ks ls : List TokenKind} :
      ρ ∈ n.rules → Derives ρ ks → Derives σ ls → Derives (phrase n :: σ) (ks ++ ls)

/-- Tokens of some kinds stand at the beginning of a program. -/
def Begins (ks : List TokenKind) : Prop :=
  ∃ ls, Derives [phrase .program] (ks ++ ls)

variable {ρ σ σ' : List GrammarSymbol} {ks ls : List TokenKind}

/-- Words of two rows of symbols make a word of both. -/
theorem Derives.append (hσ : Derives σ ks) (hσ' : Derives σ' ls) :
    Derives (σ ++ σ') (ks ++ ls) := by
  induction hσ with
  | nil => exact hσ'
  | token _ ih => exact .token ih
  | phrase hrule hρ _ _ ih =>
      rw [List.append_assoc]
      exact .phrase hrule hρ ih

/-- What a rule of a phrase stands for, the phrase stands for. -/
theorem Derives.rule {n : Nonterminal} (hrule : ρ ∈ n.rules) (h : Derives ρ ks) :
    Derives [GrammarSymbol.phrase n] ks := by
  simpa using Derives.phrase hrule h .nil

/-- A word of two rows of symbols splits into one of each. -/
theorem Derives.exists_of_append (h : Derives (σ ++ σ') ks) :
    ∃ ks₁ ks₂, ks = ks₁ ++ ks₂ ∧ Derives σ ks₁ ∧ Derives σ' ks₂ := by
  induction σ generalizing ks with
  | nil => exact ⟨[], ks, rfl, .nil, h⟩
  | cons symbol σ ih =>
      cases h with
      | token h =>
          obtain ⟨ks₁, ks₂, rfl, h₁, h₂⟩ := ih h
          exact ⟨_ :: ks₁, ks₂, rfl, .token h₁, h₂⟩
      | phrase hrule hρ h =>
          obtain ⟨ks₁, ks₂, rfl, h₁, h₂⟩ := ih h
          exact ⟨_ ++ ks₁, ks₂, (List.append_assoc ..).symm, .phrase hrule hρ h₁, h₂⟩

/-- One token is a program's beginning with those before it, or none of them is one. -/
theorem Begins.of_append (h : Begins (ks ++ ls)) : Begins ks := by
  obtain ⟨rest, hrest⟩ := h
  exact ⟨ls ++ rest, by rwa [← List.append_assoc]⟩

/-! ### Levels -/

/-- Between a level and the next tighter one there is no other. -/
theorem Precedence.next_le {p q : Precedence} (h : p ≤ q) (hne : p ≠ q) : p.next ≤ q := by
  cases p <;> cases q <;> first | exact absurd rfl hne | exact absurd h (by decide) | decide

/-- The levels are numbered without gaps. -/
theorem Precedence.rank_next {p : Precedence} (h : p ≠ .primary) : p.next.rank = p.rank + 1 := by
  cases p <;> first | rfl | exact absurd rfl h

/-- An expression of a tighter level is one of a weaker level. -/
theorem Derives.of_le {p q : Precedence} (hle : p ≤ q)
    (h : Derives [GrammarSymbol.phrase (.level q)] ks) :
    Derives [GrammarSymbol.phrase (.level p)] ks := by
  by_cases heq : p = q
  · rwa [heq]
  · have hprimary : p ≠ .primary := by
      rintro rfl
      cases q <;> first | exact absurd rfl heq | exact absurd hle (by decide)
    have hrank := Precedence.rank_next hprimary
    have hnext : p.next.rank ≤ q.rank := Precedence.next_le hle heq
    exact .rule (List.mem_append_right _ (List.mem_singleton.mpr rfl))
      (Derives.of_le (Precedence.next_le hle heq) h)
termination_by q.rank - p.rank

/-! ### Every phrase can be completed -/

/-- Every phrase has a word. -/
theorem exists_derives_phrase (n : Nonterminal) :
    ∃ ks, Derives [GrammarSymbol.phrase n] ks := by
  have hlevel (p : Precedence) : Derives [GrammarSymbol.phrase (.level p)] [.nilWord] :=
    .of_le (q := .primary) (by cases p <;> decide)
      (.rule (List.mem_append_left _ (List.mem_cons_self ..)) (.token .nil))
  have hempty {n : Nonterminal} (h : [] ∈ n.rules) : Derives [GrammarSymbol.phrase n] [] :=
    .rule h .nil
  have hexpression : Derives [GrammarSymbol.phrase .expression] [.nilWord] :=
    .rule (List.mem_cons_self ..) (hlevel _)
  have hdeclarations : Derives [GrammarSymbol.phrase .declarations] [] :=
    hempty (List.mem_cons_self ..)
  have hblock : Derives [GrammarSymbol.phrase .block] [.leftBrace, .rightBrace] :=
    .rule (List.mem_cons_self ..) (.token (hdeclarations.append (.token .nil)))
  have hstatement : Derives [GrammarSymbol.phrase .statement] [.leftBrace, .rightBrace] :=
    .rule (by decide) hblock
  cases n with
  | program =>
      exact ⟨_, .rule (List.mem_cons_self ..) (hdeclarations.append (.token .nil))⟩
  | declarations => exact ⟨_, hdeclarations⟩
  | declaration => exact ⟨_, .rule (by decide) hstatement⟩
  | varDeclaration =>
      exact ⟨_, .rule (List.mem_cons_self ..) (.token (.token (.token .nil)))⟩
  | statement => exact ⟨_, hstatement⟩
  | block => exact ⟨_, hblock⟩
  | initializer => exact ⟨_, .rule (List.mem_cons_self ..) (.token .nil)⟩
  | parameters | arguments | clause => exact ⟨_, hempty (List.mem_cons_self ..)⟩
  | parameterList => exact ⟨_, .rule (List.mem_cons_self ..) (.token .nil)⟩
  | argumentList => exact ⟨_, .rule (List.mem_cons_self ..) hexpression⟩
  | expression => exact ⟨_, hexpression⟩
  | level p => exact ⟨_, hlevel p⟩

/-- Whatever symbols are still to come, tokens can be found for them. -/
theorem exists_derives (σ : List GrammarSymbol) : ∃ ks, Derives σ ks := by
  induction σ with
  | nil => exact ⟨[], .nil⟩
  | cons symbol σ ih =>
      obtain ⟨ks, hks⟩ := ih
      cases symbol with
      | token k => exact ⟨k :: ks, .token hks⟩
      | phrase n =>
          obtain ⟨ls, hls⟩ := exists_derives_phrase n
          exact ⟨ls ++ ks, hls.append hks⟩

end LoxBytecode
