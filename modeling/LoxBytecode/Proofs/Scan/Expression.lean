import LoxBytecode.Proofs.Scan.Rules
import LoxBytecode.Proofs.Syntax.Climbing

/-!
# Compiling Expressions Scans Their Levels

An expression is compiled by precedence climbing, where the grammar is stratified. What is
compiled at a level is an expression of that level, up to a token that does not continue it
(`expressions`). Before it is known where the expression ends, what has been passed is one of
some level at which the next token may stand behind it (`heads`). The next token continues what
was passed if it is an operator of the level asked for or a tighter one, and ends it otherwise.
-/

namespace LoxBytecode

namespace CompileM

open GrammarSymbol Precedence

variable {parse : Precedence → CompileM Unit} {p q : Precedence} {k : TokenKind}
  {us vs : List TokenKind} {A : Stage}

attribute [local simp] Action.Quiet Problem.IsSyntactic

/-- The expressions of a level, up to a token that does not continue them. -/
def expressions (p : Precedence) (k : TokenKind) : Language TokenKind :=
  {us | ¬ p ≤ k.rule.precedence ∧ Derives [phrase (.level p)] us}

/-- The expressions of a level that a token may stand behind. -/
def heads (p : Precedence) (k : TokenKind) : Language TokenKind :=
  {us | ∃ q, p ≤ q ∧ ¬ q.operand ≤ k.rule.precedence ∧ Derives [phrase (.level q)] us}

/-- A compilation that takes a level scans the expressions of that level. No level tighter than
that of the operators in front of an operand is ever asked for. -/
def Parsing (parse : Precedence → CompileM Unit) : Prop :=
  ∀ ⦃p : Precedence⦄, .assignment ≤ p → p ≤ .unary → ∀ ⦃A : Stage⦄, A.tokens ≠ [] →
    Scans A (parse p) (expressions p)

/-! ### Levels -/

/-- A form of a level derives expressions of that level. -/
theorem derives_form {σ : List GrammarSymbol} (hσ : σ ∈ p.forms) (h : Derives σ us) :
    Derives [phrase (.level p)] us :=
  .rule (List.mem_append_left _ hσ) h

/-- An operator that is too loose for an operand is no tighter than the level of it. -/
theorem le_of_not_operand_le (h : ¬ q.operand ≤ p) (hp : p ≠ .or) (hp' : p ≠ .and) : p ≤ q := by
  cases p <;> cases q <;> first | decide | exact absurd rfl hp | exact absurd rfl hp' |
    exact absurd (by decide) h

/-- No token continues what binds most tightly. -/
theorem not_operand_call_le (k : TokenKind) : ¬ Precedence.call.operand ≤ k.rule.precedence := by
  cases k <;> decide

/-- A call is an expression that another token may stand behind. -/
theorem mem_heads_of_call (hp : p ≤ .call) (h : Derives [phrase (.level .call)] us) :
    us ∈ heads p k :=
  ⟨.call, hp, not_operand_call_le k, h⟩

/-- A primary expression is one that another token may stand behind. -/
theorem mem_heads_of_primary (hp : p ≤ .primary) (h : Derives [phrase (.level .primary)] us) :
    us ∈ heads p k :=
  ⟨.primary, hp, not_operand_call_le k, h⟩

/-- Behind an operand, what is passed is an operand of the level of its operator. -/
theorem mem_heads_of_expressions {σ : List GrammarSymbol} (hp : p ≤ q) (hσ : σ ∈ q.forms)
    (hvs : vs ∈ expressions q.operand k) (h : Derives σ us) : us ∈ heads p k :=
  ⟨q, hp, hvs.1, derives_form hσ h⟩

/-- Where the next token does not continue it, what was passed is the whole expression. -/
theorem mem_expressions_of_heads (h : us ∈ heads p k) (hk : ¬ p ≤ k.rule.precedence) :
    us ∈ expressions p k := by
  obtain ⟨q, hle, -, hus⟩ := h
  exact ⟨hk, hus.of_le hle⟩

/-- Some token ends the expression, whatever was passed of it. -/
theorem exists_mem_expressions (hp : .assignment ≤ p) (h : us ∈ heads p k) :
    ∃ k', us ∈ expressions p k' :=
  ⟨.eof, fun hle => absurd (le_trans' hp hle) (by decide), by
    obtain ⟨q, hle, -, hus⟩ := h
    exact hus.of_le hle⟩

/-- There are expressions of every level. -/
theorem exists_expressions (hp : .assignment ≤ p) : ∃ k us, us ∈ expressions p k := by
  obtain ⟨us, hus⟩ := exists_derives_phrase (.level p)
  exact ⟨.eof, us, fun hle => absurd (le_trans' hp hle) (by decide), hus⟩

/-- Compiling at the level of assignments scans an expression. -/
theorem Parsing.expression (hparse : Parsing parse) :
    Parses (parse .assignment) (words [phrase .expression]) :=
  fun _ hA => (hparse (Nat.le_refl _) (by decide) hA).mono fun _ _ hus =>
    .rule (List.mem_cons_self ..) hus.2

/-! ### Forms that begin an expression -/

/-- An operand that is compiled last. -/
theorem Parsing.last {m : Unit → CompileM Unit} {L : TokenKind → Language TokenKind}
    (hparse : Parsing parse) (hq : .assignment ≤ q) (hq' : q ≤ .unary) (hA : A.tokens ≠ [])
    (hm : (m ()).Quiet) (hL : ∀ k us, us ∈ expressions q k → us ∈ L k) :
    Scans A (parse q >>= m) L :=
  (hparse hq hq' hA).bind fun _ B us hB hus => .of_quiet hm hB <| by
    show us ++ [] ∈ L _
    rw [List.append_nil]
    exact hL _ _ hus

/-- A token that is an expression. -/
theorem mem_heads_of_token (hp : p ≤ .primary) (hk : [token k] ∈ Precedence.primary.forms)
    (k' : TokenKind) : [k] ∈ heads p k' :=
  mem_heads_of_primary hp (derives_form hk (.token .nil))

/-- What stands at the start of an expression. -/
theorem Parsing.atStart (hparse : Parsing parse) (hp : p ≤ .unary) (hA : A.tokens ≠ [])
    {form : PrefixForm} (hform : k.rule.atStart = some form) (hk : A.previous.kind = k) :
    Scans A (atStart parse (decide (p ≤ .assignment)) form) fun k' =>
      (heads p k').leftQuotient [k] := by
  have hprimary : p ≤ .primary := le_trans' hp (by decide)
  have htoken {m : CompileM Unit} (hm : m.Quiet) (hk : [token k] ∈ Precedence.primary.forms) :
      Scans A m fun k' => (heads p k').leftQuotient [k] :=
    .of_quiet hm hA (mem_heads_of_token hprimary hk _)
  cases form with
  | grouping =>
      obtain rfl : k = .leftParen := by cases k <;> first | rfl | cases hform
      have hscans : Parses (grouping parse) (words [phrase .expression] *
          words [token .rightParen]) :=
        hparse.expression.bind fun _ => parses_expect (by decide)
      refine (hscans hA).mono fun k us hus => ?_
      rw [words_mul] at hus
      exact mem_heads_of_primary hprimary (derives_form (by decide) (.token hus))
  | unary =>
      have hforms : [token k, phrase (.level .unary)] ∈ Precedence.unary.forms := by
        cases k <;> first | decide | cases hform
      refine .ask (hparse.last (by decide) (by decide) hA (by simp) fun k' us hus => ?_)
      exact ⟨.unary, hp, fun hle => hus.1 (le_trans' (by decide) hle),
        derives_form hforms (.token hus.2)⟩
  | identifier =>
      obtain rfl : k = .identifier := by cases k <;> first | rfl | cases hform
      refine .quiet (by simp) hA fun access B hB _ => ?_
      refine .acceptIf hB (by decide) (fun hc C hC _ => ?_) fun _ => ?_
      · refine hparse.last (Nat.le_refl _) (by decide) hC trivial fun k' us hus => ?_
        exact mem_heads_of_expressions (of_decide_eq_true hc) (List.mem_cons_self ..) hus
          (.token (.token hus.2))
      · exact .of_quiet trivial hB (mem_heads_of_token hprimary (by decide) _)
  | string =>
      obtain rfl : k = .string := by cases k <;> first | rfl | cases hform
      exact htoken trivial (by decide)
  | number =>
      obtain rfl : k = .number := by cases k <;> first | rfl | cases hform
      exact htoken trivial (by decide)
  | literal =>
      refine htoken (by simp [CompileM.atStart, literal]) ?_
      cases k <;> first | decide | cases hform

/-! ### Forms that continue an expression -/

/-- Arguments scan expressions with commas between them. -/
theorem Parsing.arguments (hparse : Parsing parse) (budget count : Nat) :
    Parses (arguments parse budget count) (words [phrase .argumentList]) := by
  induction budget generalizing count with
  | zero =>
      obtain ⟨us, hus⟩ := exists_derives_phrase .argumentList
      exact parses_fault hus
  | succ budget ih =>
      let more : Language TokenKind := words [token .comma, phrase .argumentList] + words []
      have hmore (b : Unit) : Parses (CompileM.accept .comma >>= fun comma =>
          if comma = true then CompileM.arguments parse budget (count + 1)
          else pure (count + 1)) more := by
        refine .accept (by decide) (ih _) ?_ ((parses_pure _).mono ?_)
        · rw [words_mul]
          exact le_self_add
        · rw [← words_nil]
          exact le_add_self
      have hlist : words [phrase .expression] * more ≤ words [phrase .argumentList] := by
        rw [mul_add, words_mul, words_mul]
        exact add_le (words_le (by decide)) (words_le (by decide))
      refine (hparse.expression.bind fun _ => ?_).mono hlist
      dsimp only
      split
      · exact .quiet id hmore
      · exact hmore ()

/-- A call scans its arguments up to the parenthesis. -/
theorem Parsing.call (hparse : Parsing parse) (budget : Nat) :
    Parses (call parse budget) (words [phrase .arguments, token .rightParen]) := by
  have hclose (count : Nat) : Parses (expect .rightParen "')' after arguments" >>= fun _ =>
      (liftM (narrow (min count 255)) : CompileM UInt8) >>= fun count => emit .call [count])
        (words [token .rightParen]) :=
    (parses_expect (by decide)).bind_one fun _ =>
      parses_quiet (by simp)
  refine .nextIs (.quiet trivial fun _ => ?_) ?_
  · exact (hclose _).mono (words_append_le [] _ (List.mem_cons_self ..))
  · have hargs : Parses _ (words [phrase .argumentList] * words [token .rightParen]) :=
      (hparse.arguments budget 0).bind hclose
    rw [words_mul] at hargs
    exact hargs.mono (words_append_le [phrase .argumentList] _ (by decide))

/-- The right operand of an operator is scanned at the level that the operator asks for. -/
theorem Parsing.operand (hparse : Parsing parse) (hA : A.tokens ≠ []) {m : Unit → CompileM Unit}
    (hm : (m ()).Quiet) {l : Precedence} (hl : ∀ q : Precedence,
      ¬ q.operand ≤ k.rule.precedence → l ≤ q) (hus : us ∈ heads p k)
    (hform : [phrase (.level l), token k, phrase (.level q.operand)] ∈ q.forms)
    (hp : p ≤ q) (hq : .assignment ≤ q.operand) (hq' : q.operand ≤ .unary) :
    Scans A (parse q.operand >>= m) fun k' => ((heads p k').leftQuotient us).leftQuotient [k] := by
  obtain ⟨r, -, hr, hus⟩ := hus
  refine hparse.last hq hq' hA hm fun k' vs hvs => ?_
  exact mem_heads_of_expressions hp hform hvs ((hus.of_le (hl r hr)).append (.token hvs.2))

/-- The form of an operator is among those of its level. -/
theorem mem_forms_of_binary (hform : k.rule.behind = some .binary) :
    [phrase (.level k.rule.precedence), token k, phrase (.level k.rule.precedence.next)] ∈
      k.rule.precedence.forms := by
  cases k <;> first | decide | cases hform

/-- What stands behind an expression. -/
theorem Parsing.behind (hparse : Parsing parse) (hp : p ≤ k.rule.precedence) (hA : A.tokens ≠ [])
    {form : InfixForm} (hform : k.rule.behind = some form) (hk : A.previous.kind = k)
    (hus : us ∈ heads p k) (budget : Nat) :
    Scans A (behind parse budget (decide (p ≤ .assignment)) form) fun k' =>
      ((heads p k').leftQuotient us).leftQuotient [k] := by
  cases form with
  | call =>
      obtain rfl : k = .leftParen := by cases k <;> first | rfl | cases hform
      obtain ⟨q, -, hq, hus⟩ := hus
      have hleft : Derives [phrase (.level .call)] us :=
        hus.of_le (le_of_not_operand_le hq (by decide) (by decide))
      refine (hparse.call budget hA).mono fun k' vs hvs => ?_
      exact mem_heads_of_call hp (derives_form (List.mem_cons_self ..)
        (hleft.append (.token hvs)))
  | dot =>
      obtain rfl : k = .dot := by cases k <;> first | rfl | cases hform
      obtain ⟨q, -, hq, hus⟩ := hus
      have hleft : Derives [phrase (.level .call)] us :=
        hus.of_le (le_of_not_operand_le hq (by decide) (by decide))
      refine .expect hA (by decide) fun B hB _ => .quiet trivial hB fun name C hC _ => ?_
      refine .acceptIf hC (by decide) (fun hc D hD _ => ?_) fun _ => ?_
      · refine hparse.last (Nat.le_refl _) (by decide) hD trivial fun k' vs hvs => ?_
        exact mem_heads_of_expressions (q := .assignment) (of_decide_eq_true hc)
          (List.mem_cons_of_mem _ (List.mem_cons_self ..)) hvs
          (hleft.append (.token (.token (.token hvs.2))))
      · refine .of_quiet trivial hC ?_
        exact mem_heads_of_call hp (derives_form (List.mem_cons_of_mem _ (List.mem_cons_self ..))
          (hleft.append (.token (.token .nil))))
  | binary =>
      have hoperand : k.rule.precedence.operand = k.rule.precedence.next ∧
          .assignment ≤ k.rule.precedence.next ∧ k.rule.precedence.next ≤ .unary ∧
          k.rule.precedence ≠ .or ∧ k.rule.precedence ≠ .and := by
        cases k <;> first | decide | cases hform
      obtain ⟨hnext, hle, hle', hor, hand⟩ := hoperand
      refine .ask ?_
      have hkind : Query.previousKind.answerAt A = k := hk
      rw [hkind, ← hnext]
      rw [← hnext] at hle hle'
      exact hparse.operand hA (by simp) (fun q hq => le_of_not_operand_le hq hor hand) hus
        (hnext ▸ mem_forms_of_binary hform) hp hle hle'
  | and =>
      obtain rfl : k = .andWord := by cases k <;> first | rfl | cases hform
      refine .quiet (by simp) hA fun _ B hB _ => .quiet trivial hB fun _ C hC _ => ?_
      refine hparse.operand (q := .and) (l := .equality) hC trivial (fun q hq => ?_) hus
        (List.mem_cons_self ..) hp (by decide) (by decide)
      cases q <;> first | decide | exact absurd (by decide) hq
  | or =>
      obtain rfl : k = .orWord := by cases k <;> first | rfl | cases hform
      refine .quiet (by simp) hA fun _ B hB _ => ?_
      refine .quiet (by simp) hB fun _ C hC _ => .quiet trivial hC fun _ D hD _ => ?_
      refine .quiet trivial hD fun _ E hE _ => ?_
      refine hparse.operand (q := .or) (l := .and) hE trivial (fun q hq => ?_) hus
        (List.mem_cons_self ..) hp (by decide) (by decide)
      cases q <;> first | decide | exact absurd (by decide) hq

/-! ### Expressions -/

/-- The operators behind what has been passed of an expression. -/
theorem Parsing.operators (hparse : Parsing parse) (hp : .assignment ≤ p) (hA : A.tokens ≠ [])
    (hus : us ∈ heads p (kindOf A.tokens)) (budget : Nat) :
    Scans A (operators parse p (decide (p ≤ .assignment)) budget) fun k =>
      (expressions p k).leftQuotient us := by
  induction budget generalizing A us with
  | zero =>
      obtain ⟨k, hk⟩ := exists_mem_expressions hp hus
      exact .fault ⟨k, [], by rwa [← List.append_nil us] at hk⟩
  | succ budget ih =>
      refine .ask ?_
      by_cases hle : p ≤ (kindOf A.tokens).rule.precedence
      · obtain ⟨t, ts, htokens⟩ := List.exists_cons_of_ne_nil hA
        rw [htokens, kindOf_cons] at hle hus
        obtain ⟨form, hform⟩ : ∃ form, t.kind.rule.behind = some form := by
          have hne := le_trans' hp hle
          generalize t.kind = kind at hne
          cases kind <;> first | exact ⟨_, rfl⟩ | exact absurd hne (by decide)
        have heof : t.kind ≠ .eof := fun heof => by
          rw [heof] at hform
          cases hform
        have hcurrent : Query.currentKind.answerAt A = t.kind := by
          rw [Query.answerAt, htokens, kindOf_cons]
        rw [hcurrent, if_pos hle]
        refine .advance htokens heof fun B hB hprevious => .ask ?_
        have hkind : Query.previousKind.answerAt B = t.kind := congrArg Token.kind hprevious
        rw [hkind, hform]
        refine (hparse.behind hle hB hform hkind hus budget).bind fun _ C vs hC hvs => ?_
        have hrest : Scans C (CompileM.operators parse p (decide (p ≤ .assignment)) budget)
            fun k => (expressions p k).leftQuotient (us ++ ([t.kind] ++ vs)) := ih hC hvs
        simpa only [Language.leftQuotient_append] using hrest
      · have hcurrent : Query.currentKind.answerAt A = kindOf A.tokens := rfl
        rw [hcurrent, if_neg hle]
        refine .of_quiet trivial hA ?_
        rw [Language.mem_leftQuotient, List.append_nil]
        exact mem_expressions_of_heads hus hle

/-- Every level scans its expressions, by induction on the budget. -/
theorem parsing_parsePrecedence (budget : Nat) : Parsing (parsePrecedence budget) := by
  induction budget with
  | zero => exact fun p hp _ A _ => .fault (exists_expressions hp)
  | succ budget ih =>
      intro p hp hp' A hA
      obtain ⟨t, ts, htokens⟩ := List.exists_cons_of_ne_nil hA
      cases hstart : t.kind.rule.atStart with
      | none =>
          refine scans_advance_fail (p := .expected "expression") htokens
            (exists_expressions hp) fun B hprevious => ?_
          subst hprevious
          have hkind : previousKind.follow B = .ok (B.previous.kind, B) := rfl
          rw [follow_bind_of_ok hkind, hstart]
          rfl
      | some form =>
          have heof : t.kind ≠ .eof := fun heof => by
            rw [heof] at hstart
            cases hstart
          refine .advance htokens heof fun B hB hprevious => .ask ?_
          have hkind : Query.previousKind.answerAt B = t.kind := congrArg Token.kind hprevious
          rw [hkind, hstart]
          refine (ih.atStart hp' hB hstart hkind).bind fun _ C us hC hus => ?_
          refine (ih.operators hp hC hus budget).bind fun _ D vs hD hvs => ?_
          refine .acceptIf_fail hD ?_
          rw [Language.mem_leftQuotient, List.append_nil]
          exact hvs

/-- An expression is compiled as one. -/
theorem parses_expression (budget : Nat) :
    Parses (expression budget) (words [phrase .expression]) :=
  (parsing_parsePrecedence budget).expression

end CompileM

end LoxBytecode
