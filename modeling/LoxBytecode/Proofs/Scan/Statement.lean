import LoxBytecode.Proofs.Scan.Expression

/-!
# Compiling Statements Scans Their Rules

Each kind of statement scans what the rules of the grammar for it say, without the word that it
begins with. The statements inside it are scanned if they are, so that all are by induction on the
budget (`parses_statement`, `parses_declaration`). Nothing is skipped: a compilation is followed
up to the first problem only.
-/

namespace LoxBytecode

namespace CompileM

open GrammarSymbol

variable {m : CompileM Unit} {budget : Nat}

attribute [local simp] Action.Quiet Problem.IsSyntactic

/-! ### Simple statements -/

/-- A print statement is scanned as its rule says. -/
theorem parses_printStatement (budget : Nat) :
    Parses (printStatement budget) (words [phrase .expression, token .semicolon]) :=
  .phrase (parses_expression budget) fun _ => .token (by decide) (parses_last trivial)

/-- An expression statement is scanned as its rule says. -/
theorem parses_expressionStatement (budget : Nat) :
    Parses (expressionStatement budget) (words [phrase .expression, token .semicolon]) :=
  .phrase (parses_expression budget) fun _ => .token (by decide) (parses_last trivial)

/-- Reading a variable passes nothing more than its name. -/
theorem parses_namedVariable (parse : Precedence → CompileM Unit) :
    Parses (namedVariable parse false) 1 :=
  fun _ hA => .quiet (by simp) hA fun _ _ hB _ =>
    .acceptIf hB (by decide) (by rintro ⟨⟩) fun _ => .of_quiet trivial hB Language.nil_mem_one

/-- A deletion is scanned as its rule says. -/
theorem parses_delStatement (budget : Nat) : Parses (delStatement budget)
    (words [token .identifier, token .dot, token .identifier, token .semicolon]) := by
  refine .token (by decide) ((parses_namedVariable _).one_bind fun _ => ?_)
  refine .token (by decide) (.token (by decide) (.quiet trivial fun _ => ?_))
  refine .quiet trivial fun _ => ?_
  exact parses_expect (by decide)

/-- A clause that may be left out, up to a token. -/
theorem parses_clause {α : Type} {k : TokenKind} {yes no : CompileM α} (hk : k ≠ .eof)
    (hyes : Parses yes 1) (hno : Parses no (words [phrase .expression, token k])) :
    Parses (accept k >>= fun b => if b = true then yes else no)
      (words [phrase .clause, token k]) := by
  refine .accept hk hyes ?_ (hno.mono ?_)
  · rw [mul_one]
    exact words_append_le [] _ (List.mem_cons_self ..)
  · exact words_append_le [phrase .expression] _ (by decide)

/-- A return is scanned as its rule says. -/
theorem parses_returnStatement (budget : Nat) :
    Parses (returnStatement budget) (words [phrase .clause, token .semicolon]) := by
  have hvalue (b : Unit) : Parses (accept .semicolon >>= fun semicolon =>
      if semicolon = true then emitReturn
      else do
        expression budget
        expect .semicolon "';' after return value"
        emit .ret []) (words [phrase .clause, token .semicolon]) :=
    parses_clause (by decide) (parses_quiet (by simp)) <|
      .phrase (parses_expression budget) fun _ => .token (by decide) (parses_last trivial)
  refine .ask fun kind => ?_
  dsimp only
  split
  · exact .quiet id hvalue
  · exact hvalue ()

/-- The name of a variable that is declared. -/
theorem parses_parseVariable (what : String) :
    Parses (parseVariable what) (words [token .identifier]) := by
  refine (parses_expect (by decide)).bind_one fun _ => parses_quiet ?_
  simp

/-- A variable declaration is scanned as its rule says, with and without a value. -/
theorem parses_varDeclaration (budget : Nat) : Parses (varDeclaration budget)
    (words [token .identifier] * (words [token .semicolon] +
      words [token .equal, phrase .expression, token .semicolon])) := by
  refine (parses_parseVariable _).bind fun global => ?_
  have hend (b : Unit) : Parses (expect .semicolon "';' after variable declaration" >>= fun _ =>
      defineVariable global) (words [token .semicolon]) :=
    .token (by decide) (parses_last (by simp))
  refine .accept (by decide) (.phrase (parses_expression budget) hend) ?_ ?_
  · rw [words_mul]
    exact le_add_self
  · refine Parses.mono ?_ le_self_add
    exact .quiet trivial hend

/-- Both are words of variable declarations. -/
theorem words_varDeclaration_le : words [token .varWord] * (words [token .identifier] *
    (words [token .semicolon] + words [token .equal, phrase .expression, token .semicolon])) ≤
      words [phrase .varDeclaration] := by
  rw [mul_add, mul_add, words_mul, words_mul, words_mul, words_mul]
  exact add_le (words_le (List.mem_cons_self ..)) (words_le (by decide))

/-- A class declaration is scanned as its rule says. -/
theorem parses_classDeclaration :
    Parses classDeclaration (words [token .identifier, token .leftBrace, token .rightBrace]) := by
  refine .token (by decide) (.quiet trivial fun _ => .quiet (by simp) fun _ => ?_)
  refine .quiet trivial fun _ => .quiet (by simp) fun _ => ?_
  exact .token (by decide) (parses_expect (by decide))

/-! ### Branches and loops -/

/-- A branch is scanned as one of its rules says, with or without an `else`. -/
theorem parses_ifStatement (hm : Parses m (words [phrase .statement])) (budget : Nat) :
    Parses (ifStatement m budget)
      (words [token .leftParen, phrase .expression, token .rightParen, phrase .statement] *
        (1 + words [token .elseWord, phrase .statement])) := by
  have hrest : Parses (ifStatement m budget) (words [token .leftParen] *
      (words [phrase .expression] * (words [token .rightParen] * (words [phrase .statement] *
        (1 + words [token .elseWord, phrase .statement]))))) := by
    refine (parses_expect (by decide)).bind fun _ => (parses_expression budget).bind fun _ => ?_
    refine (parses_expect (by decide)).bind fun _ => .quiet (by simp) fun _ => ?_
    refine .quiet trivial fun _ => hm.bind fun _ => .quiet (by simp) fun _ => ?_
    refine .quiet trivial fun _ => .quiet trivial fun _ => ?_
    refine .accept (K := words [phrase .statement]) (by decide) ?_ ?_ ?_
    · exact hm.bind_one fun _ => parses_quiet trivial
    · rw [words_mul]
      exact le_add_self
    · refine Parses.mono ?_ le_self_add
      exact parses_quiet trivial
  rw [← mul_assoc, ← mul_assoc, ← mul_assoc, words_mul, words_mul, words_mul] at hrest
  exact hrest

/-- Both are words of statements. -/
theorem words_if_le : words [token .ifWord] * (words [token .leftParen, phrase .expression,
    token .rightParen, phrase .statement] * (1 + words [token .elseWord, phrase .statement])) ≤
      words [phrase .statement] := by
  rw [mul_add, mul_add, mul_one, words_mul, words_mul, words_mul]
  exact add_le (words_le (by decide)) (words_le (by decide))

/-- A while loop is scanned as its rule says. -/
theorem parses_whileStatement (hm : Parses m (words [phrase .statement])) (budget : Nat) :
    Parses (whileStatement m budget)
      (words [token .leftParen, phrase .expression, token .rightParen, phrase .statement]) := by
  refine .quiet trivial fun _ => .token (by decide) (.phrase (parses_expression budget) fun _ => ?_)
  refine .token (by decide) (.quiet (by simp) fun _ => .quiet trivial fun _ => ?_)
  refine .phrase hm fun _ => parses_last (by simp)

/-- The first clause of a for loop is scanned as its rule says. -/
theorem parses_forInitializer (budget : Nat) :
    Parses (forInitializer budget) (words [phrase .initializer]) := by
  refine .accept (by decide) (parses_pure ()) ?_ ?_
  · rw [mul_one]
    exact words_le (List.mem_cons_self ..)
  refine .accept (by decide) (parses_varDeclaration _) ?_ ?_
  · exact words_varDeclaration_le.trans (words_le (n := .initializer) (by decide))
  · exact (parses_expressionStatement budget).mono (words_le (by decide))

/-- The second clause of a for loop is scanned as its rule says. -/
theorem parses_forCondition (budget : Nat) :
    Parses (forCondition budget) (words [phrase .clause, token .semicolon]) := by
  refine parses_clause (by decide) (parses_pure _) (.phrase (parses_expression budget) fun _ => ?_)
  exact .token (by decide) (parses_last (by simp))

/-- The last clause of a for loop is scanned as its rule says. -/
theorem parses_forIncrement (budget start : Nat) :
    Parses (forIncrement budget start) (words [phrase .clause, token .rightParen]) := by
  refine parses_clause (by decide) (parses_pure _) (.quiet (by simp) fun _ => ?_)
  refine .quiet trivial fun _ => .phrase (parses_expression budget) fun _ => ?_
  refine .quiet trivial fun _ => .token (by decide) (parses_last ?_)
  simp

/-- A for loop is scanned as its rule says. -/
theorem parses_forStatement (hm : Parses m (words [phrase .statement])) (budget : Nat) :
    Parses (forStatement m budget)
      (words [token .leftParen, phrase .initializer, phrase .clause, token .semicolon,
        phrase .clause, token .rightParen, phrase .statement]) := by
  refine .quiet trivial fun _ => .token (by decide) (.phrase (parses_forInitializer _) fun _ => ?_)
  refine .quiet trivial fun start => ?_
  have hwords : words [phrase .clause, token .semicolon, phrase .clause, token .rightParen,
      phrase .statement] = words [phrase .clause, token .semicolon] *
        (words [phrase .clause, token .rightParen] * words [phrase .statement]) := by
    rw [words_mul, words_mul]
    rfl
  rw [hwords]
  refine (parses_forCondition budget).bind fun exitJump => ?_
  refine (parses_forIncrement budget start).bind fun target => ?_
  refine hm.bind_one fun _ => parses_quiet ⟨by simp, fun _ => ?_⟩
  cases exitJump with
  | none => simp
  | some exitJump => simp

/-! ### Blocks -/

/-- The declarations of a block are scanned as their rule says, up to the brace. -/
theorem parses_block (hm : Parses m (words [phrase .declaration])) (budget : Nat) :
    Parses (block m budget) (words [phrase .declarations, token .rightBrace]) := by
  have hend : words [token .rightBrace] ≤ words [phrase .declarations, token .rightBrace] :=
    words_append_le [] _ (List.mem_cons_self ..)
  induction budget with
  | zero =>
      obtain ⟨us, hus⟩ := exists_derives [phrase .declarations, token .rightBrace]
      exact parses_fault hus
  | succ budget ih =>
      refine .ask fun kind => ?_
      split
      · exact (parses_expect (by decide)).mono hend
      · refine Parses.mono (.phrase hm fun _ => ih) ?_
        exact words_append_le [phrase .declaration, phrase .declarations] _
          (List.mem_cons_of_mem _ (List.mem_cons_self ..))

/-- A block as a statement is scanned as its rule says. -/
theorem parses_blockStatement (hm : Parses m (words [phrase .declaration])) (budget : Nat) :
    Parses (blockStatement m budget) (words [phrase .declarations, token .rightBrace]) :=
  .quiet trivial fun _ => (parses_block hm budget).bind_one fun _ => parses_quiet (by simp)

/-! ### Functions -/

/-- A parameter is a name. -/
theorem parses_parameter : Parses parameter (words [token .identifier]) := by
  have hname (b : Unit) : Parses (parseVariable "parameter name" >>= defineVariable)
      (words [token .identifier]) :=
    (parses_parseVariable _).bind_one fun _ => parses_quiet (by simp)
  refine .quiet trivial fun _ => .ask fun arity => ?_
  dsimp only
  split
  · exact .quiet id hname
  · exact hname ()

/-- Parameters are names with commas between them. -/
theorem parses_parameters (budget : Nat) :
    Parses (parameters budget) (words [phrase .parameterList]) := by
  induction budget with
  | zero =>
      obtain ⟨us, hus⟩ := exists_derives_phrase .parameterList
      exact parses_fault hus
  | succ budget ih =>
      have hlist : words [token .identifier] * (1 + words [token .comma, phrase .parameterList]) ≤
          words [phrase .parameterList] := by
        rw [mul_add, mul_one, words_mul]
        exact add_le (words_le (by decide)) (words_le (by decide))
      refine Parses.mono (parses_parameter.bind fun _ => ?_) hlist
      refine .accept (by decide) ih ?_ ((parses_pure ()).mono le_self_add)
      rw [words_mul]
      exact le_add_self

/-- A function is its parameters and its block. -/
theorem parses_function (hm : Parses m (words [phrase .declaration])) (budget : Nat) :
    Parses (function m budget)
      (words [token .leftParen, phrase .parameters, token .rightParen, phrase .block]) := by
  have hbody (b : Unit) : Parses (do
      expect .rightParen "')' after parameters"
      expect .leftBrace "'\x7b' before function body"
      block m budget
      emitReturn
      let ended ← act .endFunction
      emit .closure (ended.1 :: (← captureBytes ended.2)))
        (words [token .rightParen, phrase .block]) := by
    refine .token (by decide) (Parses.mono ?_ (words_le (n := .block) (List.mem_cons_self ..)))
    refine .token (by decide) ((parses_block hm budget).bind_one fun _ => parses_quiet ?_)
    simp
  refine .quiet trivial fun _ => .quiet trivial fun _ => .quiet trivial fun _ => ?_
  refine .token (by decide) (.nextIs ?_ ?_)
  · exact (hbody ()).mono (words_append_le [] _ (List.mem_cons_self ..))
  · refine Parses.mono ?_ (words_append_le [phrase .parameterList] _ (by decide))
    exact .phrase (parses_parameters budget) hbody

/-- A function declaration is a name in front of a function. -/
theorem parses_funDeclaration (hm : Parses m (words [phrase .declaration])) (budget : Nat) :
    Parses (funDeclaration m budget) (words [token .identifier, token .leftParen,
      phrase .parameters, token .rightParen, phrase .block]) := by
  have hrest : Parses (funDeclaration m budget) (words [token .identifier] *
      words [token .leftParen, phrase .parameters, token .rightParen, phrase .block]) := by
    refine (parses_parseVariable _).bind fun _ => .quiet trivial fun _ => ?_
    exact (parses_function hm budget).bind_one fun _ => parses_quiet (by simp)
  rwa [words_mul] at hrest

/-! ### Statements -/

/-- A word that begins a statement, and a kind of statement that goes on from there. -/
theorem Parses.acceptRule {k : TokenKind} {n : Nonterminal} {σ : List GrammarSymbol}
    {yes no : CompileM Unit} (hk : k ≠ .eof) (hσ : GrammarSymbol.token k :: σ ∈ n.rules)
    (hyes : Parses yes (words σ)) (hno : Parses no (words [.phrase n])) :
    Parses (CompileM.accept k >>= fun b => if b = true then yes else no) (words [.phrase n]) :=
  .accept hk hyes ((words_mul [.token k] σ).le.trans (words_le hσ)) hno

/-- A statement is scanned as its rules say, if those inside are. -/
theorem parses_statement_succ (hstatement : Parses (statement budget) (words [phrase .statement]))
    (hdeclaration : Parses (declaration budget) (words [phrase .declaration])) :
    Parses (statement (budget + 1)) (words [phrase .statement]) := by
  rw [statement]
  refine .part (.acceptRule (by decide) (by decide) (parses_printStatement _) ?_)
  refine .acceptRule (by decide) (by decide) (parses_delStatement _) ?_
  refine .acceptRule (by decide) (by decide) (parses_returnStatement _) ?_
  refine .accept (by decide) (parses_ifStatement hstatement _) words_if_le ?_
  refine .acceptRule (by decide) (by decide) (parses_whileStatement hstatement _) ?_
  refine .acceptRule (by decide) (by decide) (parses_forStatement hstatement _) ?_
  refine .accept (by decide) (parses_blockStatement hdeclaration _) ?_ ?_
  · rw [words_mul]
    exact (words_le (n := .block) (by decide)).trans (words_le (by decide))
  · exact (parses_expressionStatement _).mono (words_le (by decide))

/-- Nothing is reported as long as a compilation is followed, so that there is nothing to recover
from. -/
theorem parses_recover (budget : Nat) : Parses (isRecovering >>= fun recovering =>
    if recovering = true then synchronize budget else pure ()) 1 :=
  fun _ hA => .ask (parses_pure () hA)

/-- A declaration is scanned as its rule says, if what is inside it is. -/
theorem parses_declaration_succ
    (hstatement : Parses (statement budget) (words [phrase .statement]))
    (hdeclaration : Parses (declaration budget) (words [phrase .declaration])) :
    Parses (declaration (budget + 1)) (words [phrase .declaration]) := by
  rw [declaration]
  have hrecover {m : CompileM Unit} {L : Language TokenKind} (hm : Parses m L) :
      Parses (m >>= fun _ => isRecovering >>= fun recovering =>
        if recovering = true then synchronize budget else pure ()) L :=
    hm.bind_one fun _ => parses_recover budget
  refine .part (.accept (by decide) (hrecover parses_classDeclaration) ?_ ?_)
  · rw [words_mul]
    exact words_le (List.mem_cons_self ..)
  refine .accept (by decide) (hrecover (parses_funDeclaration hdeclaration budget)) ?_ ?_
  · rw [words_mul]
    exact words_le (by decide)
  refine .accept (by decide) (hrecover (parses_varDeclaration budget)) ?_ ?_
  · exact words_varDeclaration_le.trans (words_le (by decide))
  · exact (hrecover hstatement).mono (words_le (by decide))

/-- Statements and declarations are scanned as their rules say, by induction on the budget. -/
theorem parses_statements (budget : Nat) : Parses (statement budget) (words [phrase .statement]) ∧
    Parses (declaration budget) (words [phrase .declaration]) := by
  induction budget with
  | zero =>
      obtain ⟨us, hus⟩ := exists_derives_phrase .statement
      obtain ⟨vs, hvs⟩ := exists_derives_phrase .declaration
      exact ⟨parses_fault hus, parses_fault hvs⟩
  | succ budget ih =>
      exact ⟨parses_statement_succ ih.1 ih.2, parses_declaration_succ ih.1 ih.2⟩

/-! ### Programs -/

/-- A declaration in front of declarations makes more of them. -/
theorem words_more_le : words [phrase .declaration] * words [phrase .declarations, token .eof] ≤
    words [phrase .declarations, token .eof] := by
  rw [words_mul]
  exact words_append_le [phrase .declaration, phrase .declarations] _ (by decide)

/-- Where the source does not end, one more declaration is followed. -/
theorem follow_loop_of_ne {n : Nat} {A : Stage} (h : kindOf A.tokens ≠ .eof) :
    (declarations.loop budget (n + 1)).follow A =
      (declaration budget >>= fun _ => declarations.loop budget n).follow A := by
  rw [declarations.loop, follow_bind_of_ok (follow_accept_false h)]
  rfl

/-- The end of the source is passed. -/
theorem follow_loop_of_eof {n : Nat} {A : Stage} {t : Token} {ts : List Token}
    (hA : A.tokens = t :: ts) (ht : t.kind = .eof) : (declarations.loop budget (n + 1)).follow A =
      .ok ((), { A with previous := t, tokens := ts }) := by
  have hkind : kindOf A.tokens = .eof := by rw [hA, kindOf_cons, ht]
  have hadvance : A.advance = .ok { A with previous := t, tokens := ts } := by
    rw [Stage.advance, hA]
    cases ts with
    | nil => exact if_pos ht
    | cons => rfl
  rw [declarations.loop, follow_bind, follow_accept hkind, advance, follow_act, Action.applyAt,
    hadvance]
  rfl

/-- The declarations of a program are followed up to the end of the source. -/
theorem derives_of_follow_loop {A B : Stage} (hA : A.tokens ≠ []) {n : Nat}
    (h : (declarations.loop budget n).follow A = .ok ((), B)) :
    ∃ us t, A.tokens = us ++ t :: B.tokens ∧ t.kind = .eof ∧
      us.map Token.kind ++ [.eof] ∈ words [phrase .declarations, token .eof] := by
  induction n generalizing A with
  | zero => cases h
  | succ n ih =>
      obtain ⟨t, ts, htokens⟩ := List.exists_cons_of_ne_nil hA
      by_cases ht : t.kind = .eof
      · rw [follow_loop_of_eof htokens ht] at h
        cases h
        exact ⟨[], t, htokens, ht, .phrase (List.mem_cons_self ..) .nil (.token .nil)⟩
      · rw [follow_loop_of_ne (by rwa [htokens, kindOf_cons]), follow_bind] at h
        cases hfirst : (declaration budget).follow A with
        | error stop =>
            rw [hfirst] at h
            cases h
        | ok result =>
            obtain ⟨⟨⟩, C⟩ := result
            rw [hfirst] at h
            obtain ⟨hC, us, husC, hus⟩ := ((parses_statements budget).2 hA).ends hfirst
            obtain ⟨vs, e, hvsB, he, hvs⟩ := ih hC h
            refine ⟨us ++ vs, e, by rw [husC, hvsB, List.append_assoc], he, ?_⟩
            rw [List.map_append, List.append_assoc]
            exact words_more_le (Language.append_mem_mul hus hvs)

/-- Where the declarations of a script stop, those of a program have begun. -/
theorem stops_loop {A : Stage} (hA : A.tokens ≠ []) (n : Nat) : Stops A
    (declarations.loop budget n) fun _ => words [phrase .declarations, token .eof] := by
  induction n generalizing A with
  | zero => exact fun _ _ h => nomatch h
  | succ n ih =>
      obtain ⟨t, ts, htokens⟩ := List.exists_cons_of_ne_nil hA
      by_cases ht : t.kind = .eof
      · intro p ts h
        rw [follow_loop_of_eof htokens ht] at h
        cases h
      · refine Stops.congr (m := declaration budget >>= fun _ => declarations.loop budget n)
          (.bind ((parses_statements budget).2 hA) (fun k us hus => ?_) fun _ B us hB hus => ?_)
          fun ts' hts' => follow_loop_of_ne ?_
        · obtain ⟨vs, hvs⟩ := exists_derives [phrase .declarations, token .eof]
          exact ⟨k, vs, words_more_le (Language.append_mem_mul hus hvs)⟩
        · exact (ih hB).mono fun k vs hvs => words_more_le (Language.append_mem_mul hus hvs)
        · rwa [Stage.tokens_withTokens, kindOf_of_head? hts', htokens, kindOf_cons]

end CompileM

end LoxBytecode
