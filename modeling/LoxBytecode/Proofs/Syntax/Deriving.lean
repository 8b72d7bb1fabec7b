import LoxBytecode.Proofs.Compile.Lexemes
import LoxBytecode.Proofs.Syntax.Climbing
import LoxBytecode.Proofs.Syntax.Grammar
import LoxBytecode.Proofs.Syntax.Unique

/-!
# Reading What the Grammar Derives

Every sequence of tokens that the grammar derives as a program is read as one
(`exists_readsStmt_of_derives`). For each phrase it is said how its tokens are read in front of
others (`Nonterminal.Covers`), and each rule of the grammar keeps to that.

The grammar leaves open to which `if` an `else` belongs, and reading gives it to the nearest
one. A statement can end in several `if`s that wait for an `else` each; what follows it decides
how many of them get one (`Pending`), whatever the derivation had in mind.
-/

namespace LoxBytecode

open GrammarSymbol

variable {ts us vs rest : List Token} {t : Token} {e : Expr}

/-! ### Clauses -/

/-- A token that ends an expression. -/
def TokenKind.isClosing (k : TokenKind) : Bool :=
  k == .semicolon || k == .rightParen

/-- A closing token neither continues nor begins an expression. -/
theorem TokenKind.isClosing_spec {k : TokenKind} (h : k.isClosing = true) :
    k.rule.precedence = .none ∧ k ≠ .equal ∧ k.rule.atStart = none := by
  cases k <;> first | exact ⟨rfl, by decide, rfl⟩ | cases h

/-- What leads an assignment is read as an expression up to a closing token. -/
theorem Leads.readsUpTo (h : Leads .assignment us e) {k : TokenKind} (ht : t.kind = k)
    (hk : k.isClosing = true) (rest : List Token) : ReadsUpTo k (us ++ t :: rest) e rest := by
  subst ht
  obtain ⟨hprecedence, hequal, -⟩ := TokenKind.isClosing_spec hk
  exact .intro (h.reads_of_none (t :: rest) (Nat.le_refl _) hprecedence hequal) rfl

/-- What leads an assignment is read as a clause up to a closing token. -/
theorem Leads.readsClause (h : Leads .assignment us e) {k : TokenKind} (ht : t.kind = k)
    (hk : k.isClosing = true) (rest : List Token) :
    ReadsClause k (us ++ t :: rest) (some e) rest := by
  have hreads := h.readsUpTo ht hk rest
  refine .some (fun hkind => ?_) hreads
  obtain ⟨hreads, -⟩ := hreads
  exact hreads.atStart (hkind ▸ (TokenKind.isClosing_spec hk).2.2)

/-! ### Waiting for an `else` -/

/-- A number of `if`s wait for an `else`, the innermost first: what is left of some tokens when
each of them has got what it can. -/
inductive Pending : Nat → List Token → List Token → Prop
  | nil {ts : List Token} : Pending 0 ts ts
  | none {n : Nat} {ts rest : List Token} : kindOf ts ≠ .elseWord → Pending n ts rest →
      Pending (n + 1) ts rest
  | some {n : Nat} {t : Token} {ts us rest : List Token} {st : Stmt} : t.kind = .elseWord →
      ReadsStmt .statement ts st us → Pending n us rest → Pending (n + 1) (t :: ts) rest

/-- Where no `else` follows, every `if` that waits for one goes without. -/
theorem Pending.of_ne (h : kindOf ts ≠ .elseWord) : (n : Nat) → Pending n ts ts
  | 0 => .nil
  | n + 1 => .none h (of_ne h n)

/-- The outer ones go on with what the inner ones leave. -/
theorem Pending.exists_of_add {m n : Nat} (h : Pending (m + n) ts rest) :
    ∃ us, Pending m ts us ∧ Pending n us rest := by
  induction m generalizing ts with
  | zero => exact ⟨ts, .nil, by rwa [Nat.zero_add] at h⟩
  | succ m ih =>
      rw [Nat.succ_add] at h
      cases h with
      | none hkind h =>
          obtain ⟨us, hinner, houter⟩ := ih h
          exact ⟨us, .none hkind hinner, houter⟩
      | some hkind hreads h =>
          obtain ⟨us, hinner, houter⟩ := ih h
          exact ⟨us, .some hkind hreads hinner, houter⟩

/-- An `if` gets its `else` when the statement in it is read. -/
theorem Pending.readsStmt {opening : Token} {yes : Stmt} {c : Expr} (ht : t.kind = .ifWord)
    (hopening : opening.kind = .leftParen) (hc : ReadsUpTo .rightParen ts c us)
    (hyes : ReadsStmt .statement us yes vs) (h : Pending 1 vs rest) :
    ∃ st, ReadsStmt .statement (t :: opening :: ts) st rest := by
  cases h with
  | none hkind h =>
      cases h
      exact ⟨_, .branch ht hopening hc hyes hkind⟩
  | some hkind hno h =>
      cases h
      exact ⟨_, .branchElse ht hopening hc hyes hkind hno⟩

/-! ### How phrases are read -/

/-- How the tokens of a phrase are read in front of others. -/
def Nonterminal.Covers : Nonterminal → List Token → Prop
  | .program, ts => ∃ us t st, ts = us ++ [t] ∧ t.kind = .eof ∧ ReadsStmt .program us st []
  | .declarations, ts =>
    (∃ st, ReadsStmt .program ts st []) ∧
      ∀ {t} rest, t.kind = .rightBrace → ∃ st, ReadsStmt .block (ts ++ t :: rest) st rest
  | .declaration, ts =>
    ∀ {rest}, kindOf rest ≠ .elseWord → ∃ st, ReadsStmt .declaration (ts ++ rest) st rest
  | .varDeclaration, ts =>
    ∃ t us, ts = t :: us ∧ t.kind = .varWord ∧ ∀ rest, ∃ st, ReadsVar (us ++ rest) st rest
  | .statement, ts =>
    ∃ n, ∀ us {rest}, Pending n us rest → ∃ st, ReadsStmt .statement (ts ++ us) st rest
  | .block, ts =>
    ∃ t us, ts = t :: us ∧ t.kind = .leftBrace ∧
      ∀ rest, ∃ st, ReadsStmt .block (us ++ rest) st rest
  | .initializer, ts => ∀ rest, ∃ st, ReadsStmt .forFirst (ts ++ rest) st rest
  | .parameters, ts =>
    ∀ {opening closing} rest, opening.kind = .leftParen → closing.kind = .rightParen →
      ∃ names, ReadsSignature (opening :: (ts ++ closing :: rest)) names rest
  | .parameterList, ts =>
    ∀ rest, kindOf rest = .rightParen → ∃ names, ReadsParameters (ts ++ rest) names rest
  | .arguments, ts => ts = [] ∨ ∃ es, LeadsArguments ts es
  | .argumentList, ts => ∃ es, LeadsArguments ts es
  | .clause, ts =>
    ∀ {t k} rest, t.kind = k → k.isClosing = true → ∃ v, ReadsClause k (ts ++ t :: rest) v rest
  | .expression, ts => ∃ e, Leads .assignment ts e
  | .level p, ts => ∃ e, Leads p ts e

/-- Tokens are cut into pieces that the symbols of a rule cover. -/
def Segments : List GrammarSymbol → List Token → Prop
  | [], ts => ts = []
  | token k :: σ, ts => ∃ t us, ts = t :: us ∧ t.kind = k ∧ t.Legible ∧ Segments σ us
  | phrase n :: σ, ts => ∃ us vs, ts = us ++ vs ∧ n.Covers us ∧ Segments σ vs

/-! ### Expressions -/

/-- Operators between operands of their levels are read as they are derived. -/
theorem covers_binary {p : Precedence} {k : TokenKind} (hk : k ∈ p.binaryOperators)
    (h : Segments [phrase (.level p), token k, phrase (.level p.next)] ts) :
    (Nonterminal.level p).Covers ts := by
  obtain ⟨us, _, rfl, ⟨l, hl⟩, t, _, rfl, rfl, -, vs, _, rfl, ⟨r, hr⟩, rfl⟩ := h
  obtain ⟨rfl, o, ho⟩ : p = t.kind.rule.precedence ∧ ∃ o, BinaryOp.ofKind? t.kind = some o := by
    generalize t.kind = kind at hk
    cases p <;> simp only [Precedence.binaryOperators, List.mem_cons, List.not_mem_nil,
      or_false] at hk
    all_goals rcases hk with rfl | rfl | rfl | rfl <;> exact ⟨rfl, _, rfl⟩
  rw [List.append_nil]
  exact ⟨_, leads_binary ho hl hr⟩

/-- Assignments are read as they are derived. -/
theorem covers_assignment {σ : List GrammarSymbol} (hσ : σ ∈ Precedence.assignment.forms)
    (h : Segments σ ts) : (Nonterminal.level .assignment).Covers ts := by
  rcases List.mem_pair.mp hσ with rfl | rfl
  · obtain ⟨t, _, rfl, ht, -, equal, _, rfl, hequal, -, us, _, rfl, ⟨e, he⟩, rfl⟩ := h
    rw [List.append_nil]
    exact ⟨_, leads_assign ht hequal he⟩
  · obtain ⟨us, _, rfl, ⟨l, hl⟩, dot, _, rfl, hdot, -, name, _, rfl, hname, -, equal, _, rfl,
      hequal, -, vs, _, rfl, ⟨v, hv⟩, rfl⟩ := h
    rw [List.append_nil]
    exact ⟨_, leads_set hl hdot hname hequal hv⟩

/-- Operators in front of an operand are read as they are derived. -/
theorem covers_unary {σ : List GrammarSymbol} (hσ : σ ∈ Precedence.unary.forms)
    (h : Segments σ ts) : (Nonterminal.level .unary).Covers ts := by
  rcases List.mem_pair.mp hσ with rfl | rfl
  all_goals
    obtain ⟨t, _, rfl, ht, -, us, _, rfl, ⟨e, he⟩, rfl⟩ := h
    rw [List.append_nil]
    exact ⟨_, leads_unary (by rw [ht]; rfl) he⟩

/-- Calls and properties are read as they are derived. -/
theorem covers_call {σ : List GrammarSymbol} (hσ : σ ∈ Precedence.call.forms)
    (h : Segments σ ts) : (Nonterminal.level .call).Covers ts := by
  rcases List.mem_pair.mp hσ with rfl | rfl
  · obtain ⟨us, _, rfl, ⟨l, hl⟩, opening, _, rfl, hopening, -, vs, _, rfl, hargs, closing, _, rfl,
      hclosing, -, rfl⟩ := h
    rcases hargs with rfl | ⟨es, hes⟩
    · exact ⟨_, leads_callNone hl hopening hclosing⟩
    · have hcall := leads_call hl hopening hes hclosing
      rw [List.append_assoc] at hcall
      exact ⟨_, hcall⟩
  · obtain ⟨us, _, rfl, ⟨l, hl⟩, dot, _, rfl, hdot, -, name, _, rfl, hname, -, rfl⟩ := h
    exact ⟨_, leads_get hl hdot hname⟩

/-- The expressions that no operator is in are read as they are derived. -/
theorem covers_primary {σ : List GrammarSymbol} (hσ : σ ∈ Precedence.primary.forms)
    (h : Segments σ ts) : (Nonterminal.level .primary).Covers ts := by
  simp only [Precedence.forms, List.mem_cons, List.not_mem_nil, or_false] at hσ
  rcases hσ with rfl | rfl | rfl | rfl | rfl | rfl | rfl
  · obtain ⟨t, _, rfl, ht, -, rfl⟩ := h
    exact ⟨_, leads_of_start fun _ => .literal (l := .nil) (by rw [ht]; rfl)⟩
  · obtain ⟨t, _, rfl, ht, -, rfl⟩ := h
    exact ⟨_, leads_of_start fun _ => .literal (l := .true) (by rw [ht]; rfl)⟩
  · obtain ⟨t, _, rfl, ht, -, rfl⟩ := h
    exact ⟨_, leads_of_start fun _ => .literal (l := .false) (by rw [ht]; rfl)⟩
  · obtain ⟨t, _, rfl, ht, hlegible, rfl⟩ := h
    obtain ⟨x, hx⟩ := hlegible.number ht
    exact ⟨_, leads_of_start fun _ => .number ht hx⟩
  · obtain ⟨t, _, rfl, ht, hlegible, rfl⟩ := h
    obtain ⟨text, htext⟩ := hlegible.quoted ht
    exact ⟨_, leads_of_start fun _ => .string ht htext⟩
  · obtain ⟨t, _, rfl, ht, -, rfl⟩ := h
    exact ⟨_, leads_of_start fun hequal => .variable ht fun h => hequal h.2⟩
  · obtain ⟨opening, _, rfl, hopening, -, us, _, rfl, ⟨e, he⟩, closing, _, rfl, hclosing, -,
      rfl⟩ := h
    exact ⟨_, leads_grouping hopening he hclosing⟩

/-- Every form of a level is read as it is derived. -/
theorem covers_forms {p : Precedence} {σ : List GrammarSymbol} (hσ : σ ∈ p.forms)
    (h : Segments σ ts) : (Nonterminal.level p).Covers ts := by
  cases p with
  | assignment => exact covers_assignment hσ h
  | or =>
      obtain rfl := List.mem_singleton.mp hσ
      obtain ⟨us, _, rfl, ⟨l, hl⟩, t, _, rfl, ht, -, vs, _, rfl, ⟨r, hr⟩, rfl⟩ := h
      rw [List.append_nil]
      exact ⟨_, leads_or ht hl hr⟩
  | and =>
      obtain rfl := List.mem_singleton.mp hσ
      obtain ⟨us, _, rfl, ⟨l, hl⟩, t, _, rfl, ht, -, vs, _, rfl, ⟨r, hr⟩, rfl⟩ := h
      rw [List.append_nil]
      exact ⟨_, leads_and ht hl hr⟩
  | unary => exact covers_unary hσ h
  | call => exact covers_call hσ h
  | primary => exact covers_primary hσ h
  | none | equality | comparison | term | factor =>
      obtain ⟨k, hk, rfl⟩ := List.mem_map.mp hσ
      exact covers_binary hk h

/-- An expression of a level is read as it is derived. -/
theorem covers_level {p : Precedence} {σ : List GrammarSymbol}
    (hσ : σ ∈ (Nonterminal.level p).rules) (h : Segments σ ts) :
    (Nonterminal.level p).Covers ts := by
  rcases List.mem_append.mp hσ with hσ | hσ
  · exact covers_forms hσ h
  · obtain rfl := List.mem_singleton.mp hσ
    obtain ⟨us, _, rfl, ⟨e, he⟩, rfl⟩ := h
    rw [List.append_nil]
    exact ⟨e, he.of_le (Precedence.le_next p)⟩

/-- Arguments are read as they are derived. -/
theorem covers_arguments {σ : List GrammarSymbol} (hσ : σ ∈ Nonterminal.argumentList.rules)
    (h : Segments σ ts) : Nonterminal.argumentList.Covers ts := by
  rcases List.mem_pair.mp hσ with rfl | rfl
  · obtain ⟨us, _, rfl, ⟨e, he⟩, rfl⟩ := h
    rw [List.append_nil]
    exact ⟨_, leadsArguments_last he⟩
  · obtain ⟨us, _, rfl, ⟨e, he⟩, comma, _, rfl, hcomma, -, vs, _, rfl, ⟨es, hes⟩, rfl⟩ := h
    rw [List.append_nil]
    exact ⟨_, leadsArguments_cons he hcomma hes⟩

/-! ### Declarations -/

/-- Variable declarations are read as they are derived. -/
theorem covers_varDeclaration {σ : List GrammarSymbol}
    (hσ : σ ∈ Nonterminal.varDeclaration.rules) (h : Segments σ ts) :
    Nonterminal.varDeclaration.Covers ts := by
  rcases List.mem_pair.mp hσ with rfl | rfl
  · obtain ⟨t, _, rfl, ht, -, name, _, rfl, hname, -, semicolon, _, rfl, hsemicolon, -, rfl⟩ := h
    exact ⟨t, _, rfl, ht, fun _ => ⟨_, .none hname hsemicolon⟩⟩
  · obtain ⟨t, _, rfl, ht, -, name, _, rfl, hname, -, equal, _, rfl, hequal, -, us, _, rfl,
      ⟨e, he⟩, semicolon, _, rfl, hsemicolon, -, rfl⟩ := h
    refine ⟨t, _, rfl, ht, fun rest => ⟨_, .some (e := e) hname hequal ?_⟩⟩
    simpa using he.readsUpTo hsemicolon rfl rest

/-- Lists of parameters are read as they are derived. -/
theorem covers_parameterList {σ : List GrammarSymbol}
    (hσ : σ ∈ Nonterminal.parameterList.rules) (h : Segments σ ts) :
    Nonterminal.parameterList.Covers ts := by
  intro rest hrest
  rcases List.mem_pair.mp hσ with rfl | rfl
  · obtain ⟨t, _, rfl, ht, -, rfl⟩ := h
    have hcomma : kindOf rest ≠ .comma := by
      rw [hrest]
      decide
    exact ⟨_, .last ht hcomma⟩
  · obtain ⟨t, _, rfl, ht, -, comma, _, rfl, hcomma, -, us, _, rfl, hus, rfl⟩ := h
    obtain ⟨names, hnames⟩ := hus rest hrest
    rw [List.append_nil]
    exact ⟨_, .more ht hcomma hnames⟩

/-- Parameters, of which there may be none, are read as they are derived. -/
theorem covers_parameters {σ : List GrammarSymbol} (hσ : σ ∈ Nonterminal.parameters.rules)
    (h : Segments σ ts) : Nonterminal.parameters.Covers ts := by
  intro opening closing rest hopening hclosing
  rcases List.mem_pair.mp hσ with rfl | rfl
  · cases h
    exact ⟨_, .none hopening hclosing⟩
  · obtain ⟨us, _, rfl, hus, rfl⟩ := h
    obtain ⟨names, hnames⟩ := hus (closing :: rest) hclosing
    rw [List.append_nil]
    exact ⟨_, .some hopening hnames hclosing⟩

/-- Declarations are read as they are derived. -/
theorem covers_declaration {σ : List GrammarSymbol} (hσ : σ ∈ Nonterminal.declaration.rules)
    (h : Segments σ ts) : Nonterminal.declaration.Covers ts := by
  intro rest hrest
  simp only [Nonterminal.rules, List.mem_cons, List.not_mem_nil, or_false] at hσ
  rcases hσ with rfl | rfl | rfl | rfl
  · obtain ⟨t, _, rfl, ht, -, name, _, rfl, hname, -, opening, _, rfl, hopening, -, closing, _,
      rfl, hclosing, -, rfl⟩ := h
    exact ⟨_, .classDecl ht hname hopening hclosing⟩
  · obtain ⟨t, _, rfl, ht, -, name, _, rfl, hname, -, opening, _, rfl, hopening, -, us, _, rfl,
      hus, closing, _, rfl, hclosing, -, _, _, rfl, ⟨brace, vs, rfl, hbrace, hvs⟩, rfl⟩ := h
    obtain ⟨names, hnames⟩ := hus (brace :: (vs ++ rest)) hopening hclosing
    obtain ⟨body, hbody⟩ := hvs rest
    have hsignature : ReadsSignature (opening :: (us ++ closing :: (brace :: vs)) ++ rest) names
        (brace :: (vs ++ rest)) := by
      simpa using hnames
    exact ⟨_, .funDecl ht hname (by simpa using hsignature) hbrace hbody⟩
  · obtain ⟨_, _, rfl, ⟨t, us, rfl, ht, hus⟩, rfl⟩ := h
    obtain ⟨st, hst⟩ := hus rest
    rw [List.append_nil]
    exact ⟨_, .varDecl ht hst⟩
  · obtain ⟨us, _, rfl, ⟨n, hus⟩, rfl⟩ := h
    obtain ⟨st, hst⟩ := hus rest (.of_ne hrest n)
    rw [List.append_nil]
    exact ⟨_, .statement hst⟩

/-- What can follow a declaration among others does not begin with `else`. -/
theorem ReadsStmt.kindOf_ne_else {part : StmtPart} {st : Stmt} (h : ReadsStmt part ts st rest)
    (hpart : part = .program ∨ part = .block) : kindOf ts ≠ .elseWord := by
  cases h with
  | blockEnd hkind => simp [hkind]
  | blockMore _ h _ | programMore _ h _ => exact h.kindOf_declaration.1
  | programEnd => decide
  | _ => simp at hpart

/-- Several declarations in a program or a block are read as they are derived. -/
theorem covers_declarations {σ : List GrammarSymbol} (hσ : σ ∈ Nonterminal.declarations.rules)
    (h : Segments σ ts) : Nonterminal.declarations.Covers ts := by
  rcases List.mem_pair.mp hσ with rfl | rfl
  · cases h
    exact ⟨⟨_, .programEnd⟩, fun _ ht => ⟨_, .blockEnd ht⟩⟩
  · obtain ⟨us, _, rfl, hus, vs, _, rfl, ⟨⟨body, hbody⟩, hblock⟩, rfl⟩ := h
    rw [List.append_nil]
    refine ⟨?_, fun {t} rest ht => ?_⟩
    · obtain ⟨st, hst⟩ := hus (hbody.kindOf_ne_else (Or.inl rfl))
      exact ⟨_, .programMore hst.ne_nil hst hbody⟩
    · obtain ⟨body, hbody⟩ := hblock rest ht
      obtain ⟨st, hst⟩ := hus (hbody.kindOf_ne_else (Or.inr rfl))
      rw [List.append_assoc]
      exact ⟨_, .blockMore hst.kindOf_declaration.2.1 hst hbody⟩

/-! ### Statements -/

/-- Blocks are read as they are derived. -/
theorem covers_block {σ : List GrammarSymbol} (hσ : σ ∈ Nonterminal.block.rules)
    (h : Segments σ ts) : Nonterminal.block.Covers ts := by
  obtain rfl := List.mem_singleton.mp hσ
  obtain ⟨t, _, rfl, ht, -, us, _, rfl, ⟨-, hus⟩, closing, _, rfl, hclosing, -, rfl⟩ := h
  refine ⟨t, _, rfl, ht, fun rest => ?_⟩
  rw [List.append_assoc]
  exact hus rest hclosing

/-- The first clauses of for loops are read as they are derived. -/
theorem covers_initializer {σ : List GrammarSymbol} (hσ : σ ∈ Nonterminal.initializer.rules)
    (h : Segments σ ts) : Nonterminal.initializer.Covers ts := by
  intro rest
  simp only [Nonterminal.rules, List.mem_cons, List.not_mem_nil, or_false] at hσ
  rcases hσ with rfl | rfl | rfl
  · obtain ⟨t, _, rfl, ht, -, rfl⟩ := h
    exact ⟨_, .forNone ht⟩
  · obtain ⟨_, _, rfl, ⟨t, us, rfl, ht, hus⟩, rfl⟩ := h
    obtain ⟨st, hst⟩ := hus rest
    rw [List.append_nil]
    exact ⟨_, .forVar ht hst⟩
  · obtain ⟨us, _, rfl, ⟨e, he⟩, t, _, rfl, ht, -, rfl⟩ := h
    rw [List.append_assoc]
    exact ⟨_, .forExpression (he.readsUpTo ht rfl rest)⟩

/-- An `if` without an `else` of its own waits for one, outside all that wait in it. -/
theorem covers_if {c : Expr} {n : Nat} {opening closing : Token} (ht : t.kind = .ifWord)
    (hopening : opening.kind = .leftParen) (hc : Leads .assignment us c)
    (hclosing : closing.kind = .rightParen)
    (hyes : ∀ ts {rest}, Pending n ts rest → ∃ st, ReadsStmt .statement (vs ++ ts) st rest)
    {rest' : List Token} (h : Pending (n + 1) ts rest') :
    ∃ st, ReadsStmt .statement (t :: opening :: (us ++ closing :: (vs ++ ts))) st rest' := by
  obtain ⟨mid, hinner, houter⟩ := h.exists_of_add
  obtain ⟨yes, hyes⟩ := hyes ts hinner
  exact houter.readsStmt ht hopening (hc.readsUpTo hclosing rfl (vs ++ ts)) hyes

/-- An `else` goes to the nearest `if` that waits for one, which need not be the one that it was
derived with. -/
theorem covers_ifElse {c : Expr} {m n : Nat} {opening closing other : Token}
    {ws : List Token} (ht : t.kind = .ifWord) (hopening : opening.kind = .leftParen)
    (hc : Leads .assignment us c) (hclosing : closing.kind = .rightParen)
    (hyes : ∀ ts {rest}, Pending m ts rest → ∃ st, ReadsStmt .statement (vs ++ ts) st rest)
    (hother : other.kind = .elseWord)
    (hno : ∀ ts {rest}, Pending n ts rest → ∃ st, ReadsStmt .statement (ws ++ ts) st rest)
    {rest' : List Token} (h : Pending (n + m) ts rest') :
    ∃ st, ReadsStmt .statement
      (t :: opening :: (us ++ closing :: (vs ++ other :: (ws ++ ts)))) st rest' := by
  obtain ⟨mid, hinner, houter⟩ := h.exists_of_add
  obtain ⟨no, hno⟩ := hno ts hinner
  have hcond := hc.readsUpTo hclosing rfl (vs ++ other :: (ws ++ ts))
  cases m with
  | zero =>
      cases houter
      obtain ⟨yes, hyes⟩ := hyes (other :: (ws ++ ts)) .nil
      exact ⟨_, .branchElse ht hopening hcond hyes hother hno⟩
  | succ m =>
      obtain ⟨last, hrest, houter⟩ := houter.exists_of_add
      obtain ⟨yes, hyes⟩ := hyes _ (.some hother hno hrest)
      exact houter.readsStmt ht hopening hcond hyes

/-- Statements are read as they are derived, but for an `else`, which belongs to the last `if`. -/
theorem covers_statement {σ : List GrammarSymbol} (hσ : σ ∈ Nonterminal.statement.rules)
    (h : Segments σ ts) : Nonterminal.statement.Covers ts := by
  simp only [Nonterminal.rules, List.mem_cons, List.not_mem_nil, or_false] at hσ
  rcases hσ with rfl | rfl | rfl | rfl | rfl | rfl | rfl | rfl | rfl
  · obtain ⟨t, _, rfl, ht, -, us, _, rfl, ⟨e, he⟩, semicolon, _, rfl, hsemicolon, -, rfl⟩ := h
    refine ⟨0, fun ts {rest} hpending => ?_⟩
    cases hpending
    rw [List.cons_append, List.append_assoc]
    exact ⟨_, .print ht (he.readsUpTo hsemicolon rfl ts)⟩
  · obtain ⟨t, _, rfl, ht, -, object, _, rfl, hobject, -, dot, _, rfl, hdot, -, property, _, rfl,
      hproperty, -, semicolon, _, rfl, hsemicolon, -, rfl⟩ := h
    refine ⟨0, fun ts {rest} hpending => ?_⟩
    cases hpending
    exact ⟨_, .del ht hobject hdot hproperty hsemicolon⟩
  · obtain ⟨t, _, rfl, ht, -, us, _, rfl, hus, semicolon, _, rfl, hsemicolon, -, rfl⟩ := h
    refine ⟨0, fun ts {rest} hpending => ?_⟩
    cases hpending
    obtain ⟨v, hv⟩ := hus ts hsemicolon rfl
    rw [List.cons_append, List.append_assoc]
    exact ⟨_, .ret ht hv⟩
  · obtain ⟨t, _, rfl, ht, -, opening, _, rfl, hopening, -, us, _, rfl, ⟨c, hc⟩, closing, _, rfl,
      hclosing, -, vs, _, rfl, ⟨n, hvs⟩, rfl⟩ := h
    refine ⟨n + 1, fun ts {rest} hpending => ?_⟩
    simpa using covers_if ht hopening hc hclosing hvs hpending
  · obtain ⟨t, _, rfl, ht, -, opening, _, rfl, hopening, -, us, _, rfl, ⟨c, hc⟩, closing, _, rfl,
      hclosing, -, vs, _, rfl, ⟨m, hvs⟩, other, _, rfl, hother, -, ws, _, rfl, ⟨n, hws⟩, rfl⟩ := h
    refine ⟨n + m, fun ts {rest} hpending => ?_⟩
    simpa using covers_ifElse ht hopening hc hclosing hvs hother hws hpending
  · obtain ⟨t, _, rfl, ht, -, opening, _, rfl, hopening, -, us, _, rfl, ⟨c, hc⟩, closing, _, rfl,
      hclosing, -, vs, _, rfl, ⟨n, hvs⟩, rfl⟩ := h
    refine ⟨n, fun ts {rest} hpending => ?_⟩
    obtain ⟨body, hbody⟩ := hvs ts hpending
    have hcond := hc.readsUpTo hclosing rfl (vs ++ ts)
    exact ⟨_, by simpa using ReadsStmt.whileLoop ht hopening hcond hbody⟩
  · obtain ⟨t, _, rfl, ht, -, opening, _, rfl, hopening, -, us, _, rfl, hus, cs, _, rfl, hcs,
      semicolon, _, rfl, hsemicolon, -, ds, _, rfl, hds, closing, _, rfl, hclosing, -, vs, _, rfl,
      ⟨n, hvs⟩, rfl⟩ := h
    refine ⟨n, fun ts {rest} hpending => ?_⟩
    obtain ⟨body, hbody⟩ := hvs ts hpending
    obtain ⟨step, hstep⟩ := hds (vs ++ ts) hclosing rfl
    obtain ⟨c, hc⟩ := hcs (ds ++ closing :: (vs ++ ts)) hsemicolon rfl
    obtain ⟨first, hfirst⟩ := hus (cs ++ semicolon :: (ds ++ closing :: (vs ++ ts)))
    exact ⟨_, by simpa using ReadsStmt.forLoop ht hopening hfirst hc hstep hbody⟩
  · obtain ⟨_, _, rfl, ⟨t, us, rfl, ht, hus⟩, rfl⟩ := h
    refine ⟨0, fun ts {rest} hpending => ?_⟩
    cases hpending
    obtain ⟨body, hbody⟩ := hus ts
    rw [List.append_nil]
    exact ⟨_, .block ht hbody⟩
  · obtain ⟨us, _, rfl, ⟨e, he⟩, semicolon, _, rfl, hsemicolon, -, rfl⟩ := h
    refine ⟨0, fun ts {rest} hpending => ?_⟩
    cases hpending
    rw [List.append_assoc]
    exact ⟨_, .expression (he.readsUpTo hsemicolon rfl ts)⟩

/-! ### Derivations -/

/-- What the pieces of a rule cover, its phrase covers. -/
theorem Nonterminal.covers {n : Nonterminal} {σ : List GrammarSymbol} (hσ : σ ∈ n.rules)
    (h : Segments σ ts) : n.Covers ts := by
  cases n with
  | program =>
      obtain rfl := List.mem_singleton.mp hσ
      obtain ⟨us, _, rfl, ⟨⟨st, hst⟩, -⟩, t, _, rfl, ht, -, rfl⟩ := h
      exact ⟨us, t, st, rfl, ht, hst⟩
  | declarations => exact covers_declarations hσ h
  | declaration => exact covers_declaration hσ h
  | varDeclaration => exact covers_varDeclaration hσ h
  | statement => exact covers_statement hσ h
  | block => exact covers_block hσ h
  | initializer => exact covers_initializer hσ h
  | parameters => exact covers_parameters hσ h
  | parameterList => exact covers_parameterList hσ h
  | arguments =>
      rcases List.mem_pair.mp hσ with rfl | rfl
      · exact Or.inl h
      · obtain ⟨us, _, rfl, hus, rfl⟩ := h
        rw [List.append_nil]
        exact Or.inr hus
  | argumentList => exact covers_arguments hσ h
  | clause =>
      intro t k rest ht hk
      rcases List.mem_pair.mp hσ with rfl | rfl
      · cases h
        exact ⟨_, .none ht⟩
      · obtain ⟨us, _, rfl, ⟨e, he⟩, rfl⟩ := h
        rw [List.append_nil]
        exact ⟨_, he.readsClause ht hk rest⟩
  | expression =>
      obtain rfl := List.mem_singleton.mp hσ
      obtain ⟨us, _, rfl, hus, rfl⟩ := h
      rwa [List.append_nil]
  | level p => exact covers_level hσ h

/-- Tokens whose kinds are derived split into the phrases that they are derived from. -/
theorem Derives.segments {σ : List GrammarSymbol} {ks : List TokenKind} (h : Derives σ ks)
    (hts : ts.map Token.kind = ks) (hlegible : ∀ t ∈ ts, t.Legible) : Segments σ ts := by
  induction h generalizing ts with
  | nil => exact List.map_eq_nil_iff.mp hts
  | token _ ih =>
      obtain ⟨t, us, rfl, ht, hus⟩ := List.map_eq_cons_iff.mp hts
      obtain ⟨hhead, htail⟩ := List.forall_mem_cons.mp hlegible
      exact ⟨t, us, rfl, ht, hhead, ih hus htail⟩
  | phrase hrule _ _ ihRule ih =>
      obtain ⟨us, vs, rfl, hus, hvs⟩ := List.map_eq_append_iff.mp hts
      obtain ⟨hleft, hright⟩ := List.forall_mem_append.mp hlegible
      exact ⟨us, vs, rfl, Nonterminal.covers hrule (ihRule hus hleft), ih hvs hright⟩

/-- Tokens that the grammar derives as a program are read as one, up to the end of the source. -/
theorem exists_readsStmt_of_derives
    (h : Derives [phrase .program] (ts.map Token.kind)) (hlegible : ∀ t ∈ ts, t.Legible) :
    ∃ us t program, ts = us ++ [t] ∧ t.kind = .eof ∧ ReadsStmt .program us program [] := by
  obtain ⟨us, _, rfl, hcovers, rfl⟩ := h.segments rfl hlegible
  rwa [List.append_nil]

end LoxBytecode
