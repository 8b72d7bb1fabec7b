import LoxBytecode.Proofs.Syntax.Remaining
import LoxBytecode.Proofs.Syntax.Unique
import LoxBytecode.Proofs.Walk.Variables

/-!
# Compiling Expressions Walks

Where the tokens to come are read as an expression, compiling it walks through its tree
(`walking_parsePrecedence`). The induction is on the budget. An operator behind an expression
goes on from where the walk through its left operand ended, so that each turn of the loop over
the operators puts one more node on top of the tree.
-/

namespace LoxBytecode

namespace CompileM

variable {parse : Precedence → CompileM Unit} {ts rest : List Token} {t prev : Token}
  {code : List UInt8} {outer : List (List UInt8)} {w : Walk} {e l : Expr} {es : List Expr}
  {c : Bool} {p : Precedence}

/-- A compilation comes to some tokens with the code of a phrase, and the walk behind it. -/
def Compiles (m : CompileM Unit) (x : Site) (w : Walk) (rest : List Token) (r : Passage) : Prop :=
  ∃ prev, m.Walks x w () ⟨rest, prev, x.code ++ r.code, x.outer⟩ r.after

/-- Expressions are compiled by walking through them. Behind one that could be assigned to there
is no `=`. -/
def Walking (parse : Precedence → CompileM Unit) : Prop :=
  ∀ {p : Precedence} {ts rest : List Token} {e : Expr}, Reads (.expr p) ts [e] rest → rest ≠ [] →
    (p ≤ .assignment → kindOf rest ≠ .equal) →
      ∀ (prev : Token) (code : List UInt8) (outer : List (List UInt8)) (w : Walk),
        (parse p).Compiles ⟨ts, prev, code, outer⟩ w rest (e.walk w)

/-! ### Forms that begin an expression -/

/-- A literal word has the instruction of its literal. -/
theorem literalCode_of_ofKind? {k : TokenKind} {l : Literal} (h : Literal.ofKind? k = some l) :
    literalCode k = [l.code] ∧ k.rule.atStart = some .literal := by
  cases k <;> cases h <;> exact ⟨rfl, rfl⟩

/-- An operator in front of its operand has its instruction. -/
theorem unaryCode_of_ofKind? {k : TokenKind} {o : UnaryOp} (h : UnaryOp.ofKind? k = some o) :
    unaryCode k = [o.code] ∧ k.rule.atStart = some .unary := by
  cases k <;> cases h <;> exact ⟨rfl, rfl⟩

/-- A unary expression is compiled as it is walked. -/
theorem Walking.unary (hparse : Walking parse) {o : UnaryOp} (ho : UnaryOp.ofKind? t.kind = some o)
    (h : Reads (.expr .unary) ts [e] rest) (hrest : rest ≠ []) :
    (CompileM.unary parse).Compiles ⟨ts, t, code, outer⟩ w rest ((Expr.unary o e).walk w) := by
  obtain ⟨prev', hoperand⟩ := hparse h hrest (fun hle => absurd hle (by decide)) t code outer w
  have hcode := (unaryCode_of_ofKind? ho).1
  refine ⟨prev', .step rfl (hoperand.bind ((walks_emitAll _).of_code ?_))⟩
  show code ++ (e.walk w).code ++ (unaryCode t.kind).map Opcode.toByte = _
  rw [hcode, Expr.walk, List.append_assoc]
  rfl

/-- A variable that is read. -/
theorem walks_namedVariable (hequal : ¬ (c = true ∧ kindOf ts = .equal)) :
    (namedVariable parse c).Walks ⟨ts, t, code, outer⟩ w ()
      ⟨ts, t, code ++ ((Expr.variable t.lexeme).walk w).code, outer⟩
      ((Expr.variable t.lexeme).walk w).after := by
  rw [Expr.walk]
  refine walks_resolve.bind (.step (follow_acceptIf_false hequal) ?_)
  exact walks_emit _ _

/-- A variable that is assigned to. -/
theorem Walking.assign (hparse : Walking parse) {equal : Token} (hequal : equal.kind = .equal)
    (h : Reads (.expr .assignment) ts [e] rest) (hrest : rest ≠ [])
    (hfollow : kindOf rest ≠ .equal) :
    (namedVariable parse true).Compiles ⟨equal :: ts, t, code, outer⟩ w rest
      ((Expr.assign t.lexeme e).walk w) := by
  obtain ⟨prev', hvalue⟩ := hparse h hrest (fun _ => hfollow) equal code outer
    (w.access t.lexeme).2
  have hts := ne_nil_of_suffix hrest h.suffix
  refine ⟨prev', walks_resolve.bind (.step (follow_accept_true hequal hts) (hvalue.bind ?_))⟩
  rw [Expr.walk]
  exact (walks_emit _ _).of_code (List.append_assoc ..)

/-- What stands at the start of an expression begins with a token. -/
theorem exists_start (h : Reads (.start c) ts [e] rest) : ∃ t ts', ts = t :: ts' := by
  cases h <;> exact ⟨_, _, rfl⟩

/-- What stands at the start of an expression is compiled as it is walked. -/
theorem Walking.atStart (hparse : Walking parse) (h : Reads (.start c) (t :: ts) [e] rest)
    (hrest : rest ≠ []) (hfollow : c = true → kindOf rest ≠ .equal) :
    ∃ form, t.kind.rule.atStart = some form ∧
      (CompileM.atStart parse c form).Compiles ⟨ts, t, code, outer⟩ w rest (e.walk w) := by
  cases h with
  | grouping hopening hreads hclosing =>
      refine ⟨.grouping, by rw [hopening]; rfl, ?_⟩
      obtain ⟨prev', hinner⟩ := hparse hreads (List.cons_ne_nil _ _)
        (fun _ => by rw [kindOf_cons, hclosing]; decide) t code outer w
      exact ⟨_, hinner.bind (.of_ok rfl (follow_expect hclosing hrest))⟩
  | literal hl =>
      obtain ⟨hcode, hform⟩ := literalCode_of_ofKind? hl
      refine ⟨.literal, hform, t, .step rfl ((walks_emitAll _).of_code ?_)⟩
      show code ++ (literalCode t.kind).map Opcode.toByte = _
      rw [hcode, Expr.walk]
      rfl
  | number hkind htext =>
      refine ⟨.number, by rw [hkind]; rfl, t, ?_⟩
      rw [Expr.walk]
      exact walks_loadNumber htext
  | string hkind htext =>
      refine ⟨.string, by rw [hkind]; rfl, t, ?_⟩
      rw [Expr.walk]
      exact walks_loadString htext
  | unary ho hreads => exact ⟨.unary, (unaryCode_of_ofKind? ho).2, hparse.unary ho hreads hrest⟩
  | «variable» hkind hequal =>
      exact ⟨.identifier, by rw [hkind]; rfl, t, walks_namedVariable hequal⟩
  | assign hkind hequal hreads =>
      exact ⟨.identifier, by rw [hkind]; rfl, hparse.assign hequal hreads hrest (hfollow rfl)⟩

/-! ### Forms that continue an expression -/

/-- A compilation that goes on from an expression comes to some tokens with the code of a larger
expression, and the walk behind it. -/
def Continues (m : CompileM Unit) (ts : List Token) (prev : Token) (l : Expr)
    (rest : List Token) (e : Expr) : Prop :=
  ∀ (code : List UInt8) (outer : List (List UInt8)) (w : Walk), ∃ prev',
    m.Walks ⟨ts, prev, code ++ (l.walk w).code, outer⟩ (l.walk w).after ()
      ⟨rest, prev', code ++ (e.walk w).code, outer⟩ (e.walk w).after

/-- An operator between its operands has its instructions. -/
theorem binaryCode_of_ofKind? {k : TokenKind} {o : BinaryOp} (h : BinaryOp.ofKind? k = some o) :
    binaryCode k = o.code ∧ k.rule.behind = some .binary := by
  cases k <;> cases h <;> exact ⟨rfl, rfl⟩

/-- An operator with its right operand continues as it is walked. -/
theorem Walking.binary (hparse : Walking parse) {o : BinaryOp} {r : Expr}
    (ho : BinaryOp.ofKind? t.kind = some o)
    (h : Reads (.expr t.kind.rule.precedence.next) ts [r] rest) (hrest : rest ≠ []) :
    (CompileM.binary parse).Continues ts t l rest (.binary o l r) := by
  intro code outer w
  have hlevel : ¬ t.kind.rule.precedence.next ≤ .assignment := by
    generalize t.kind = kind at ho
    cases kind <;> first | decide | cases ho
  obtain ⟨prev', hright⟩ := hparse h hrest (fun hle => absurd hle hlevel) t
    (code ++ (l.walk w).code) outer (l.walk w).after
  have hcode := (binaryCode_of_ofKind? ho).1
  refine ⟨prev', .step rfl (hright.bind ((walks_emitAll _).of_code ?_))⟩
  show code ++ (l.walk w).code ++ (r.walk (l.walk w).after).code ++
    (binaryCode t.kind).map Opcode.toByte = _
  rw [hcode, Expr.walk]
  simp only [List.append_assoc]

/-- A conjunction continues as it is walked. -/
theorem Walking.conjunction (hparse : Walking parse) {r : Expr}
    (h : Reads (.expr .and) ts [r] rest) (hrest : rest ≠ []) :
    (CompileM.conjunction parse).Continues ts t l rest (.and l r) := by
  intro code outer w
  obtain ⟨prev', hright⟩ := hparse h hrest (fun hle => absurd hle (by decide)) t
    (code ++ (l.walk w).code ++ jumpCode .jumpIfFalse Session.maxJump ++ [Opcode.pop.toByte])
    outer (l.walk w).after
  refine ⟨prev', (walks_emitJump _).bind ((walks_emit .pop []).bind (hright.bind ?_))⟩
  rw [Expr.walk]
  refine (walks_patchJump .jumpIfFalse Session.maxJump
    (Opcode.pop.toByte :: (r.walk (l.walk w).after).code) rfl ?_).of_code ?_
  · simp only [List.append_assoc, List.cons_append, List.nil_append]
  · simp only [List.append_assoc]

/-- A disjunction continues as it is walked. -/
theorem Walking.disjunction (hparse : Walking parse) {r : Expr}
    (h : Reads (.expr .or) ts [r] rest) (hrest : rest ≠ []) :
    (CompileM.disjunction parse).Continues ts t l rest (.or l r) := by
  intro code outer w
  obtain ⟨prev', hright⟩ := hparse h hrest (fun hle => absurd hle (by decide)) t
    (code ++ (l.walk w).code ++ jumpCode .jumpIfFalse 3 ++ jumpCode .jump Session.maxJump ++
      [Opcode.pop.toByte]) outer ((l.walk w).after.ask (.jump 3))
  refine ⟨prev', (walks_emitJump _).bind ((walks_emitJump _).bind ?_)⟩
  refine (walks_patchJump .jumpIfFalse Session.maxJump (jumpCode .jump Session.maxJump) rfl
    rfl).bind ((walks_emit .pop []).bind (hright.bind ?_))
  rw [Expr.walk]
  refine (walks_patchJump (c := code ++ (l.walk w).code ++ jumpCode .jumpIfFalse 3) .jump
    Session.maxJump (Opcode.pop.toByte :: (r.walk ((l.walk w).after.ask (.jump 3))).code)
      ?_ ?_).of_code ?_
  · simp [jumpCode, Chunk.bytesOf16]
  · simp only [List.append_assoc, List.cons_append, List.nil_append]
  · simp only [List.append_assoc]

/-- A property that is read. -/
theorem walks_get {dot name : Token} (hname : name.kind = .identifier) (hrest : rest ≠ [])
    (hequal : ¬ (c = true ∧ kindOf rest = .equal)) :
    (CompileM.dot parse c).Continues (name :: rest) dot l rest (.get l name.lexeme) := by
  intro code outer w
  refine ⟨name, .step (follow_expect hname hrest) (walks_nameConstant.bind ?_)⟩
  refine .step (follow_acceptIf_false hequal) ?_
  rw [Expr.walk]
  exact (walks_emit _ _).of_code (List.append_assoc ..)

/-- A property that is assigned to. -/
theorem Walking.set (hparse : Walking parse) {dot name equal : Token} {v : Expr}
    (hname : name.kind = .identifier) (hequal : equal.kind = .equal)
    (h : Reads (.expr .assignment) ts [v] rest) (hrest : rest ≠ [])
    (hfollow : kindOf rest ≠ .equal) :
    (CompileM.dot parse true).Continues (name :: equal :: ts) dot l rest
      (.set l name.lexeme v) := by
  intro code outer w
  obtain ⟨prev', hvalue⟩ := hparse h hrest (fun _ => hfollow) equal (code ++ (l.walk w).code) outer
    ((l.walk w).after.short (.text name.lexeme)).2
  have hts := ne_nil_of_suffix hrest h.suffix
  refine ⟨prev', .step (follow_expect hname (List.cons_ne_nil _ _))
    (walks_nameConstant.bind (.step (follow_accept_true hequal hts) (hvalue.bind ?_)))⟩
  rw [Expr.walk]
  exact (walks_emit _ _).of_code (by simp only [List.append_assoc])

/-! ### Calls -/

/-- Arguments are compiled as they are walked, and counted. -/
theorem Walking.arguments (hparse : Walking parse) {budget n : Nat} (hn : n ≤ 255)
    (h : Reads .arguments ts es rest) (hclose : kindOf rest = .rightParen) :
    ∃ prev', (CompileM.arguments parse budget n).Walks ⟨ts, prev, code, outer⟩ w (n + es.length)
      ⟨rest, prev', code ++ (Expr.walkArguments w n es).code, outer⟩
      (Expr.walkArguments w n es).after := by
  have hrest : rest ≠ [] := by
    rintro rfl
    cases hclose
  induction budget generalizing ts es prev code w n with
  | zero => exact ⟨prev, .of_fault (Expr.precedes_walkArguments ..) rfl⟩
  | succ budget ih =>
      have hdemand : n = 255 ↔ ¬ (Demand.argument (n + 1)).Met := by
        show n = 255 ↔ ¬ n + 1 ≤ 255
        omega
      rw [CompileM.arguments]
      cases h with
      | @lastArgument e _ _ hreads hcomma =>
          obtain ⟨prev', hfirst⟩ := hparse hreads hrest (fun _ => by rw [hclose]; decide) prev code
            outer w
          refine ⟨prev', hfirst.bind (.demandThen (p := .tooManyArguments) hdemand trivial rfl
            (.refl _) fun _ => ?_)⟩
          rw [Expr.walkArguments, Expr.walkArguments, List.append_nil]
          exact .step (follow_accept_false hcomma) walks_pure
      | @argument e es comma _ ts _ hreads hcomma hothers =>
          obtain ⟨prev', hfirst⟩ := hparse hreads (List.cons_ne_nil _ _)
            (fun _ => by rw [kindOf_cons, hcomma]; decide) prev code outer w
          have hts := ne_nil_of_suffix hrest hothers.suffix
          have hmore : ∃ prev'', (Demand.argument (n + 1)).Met →
              (CompileM.arguments parse budget (n + 1)).Walks
                ⟨ts, comma, code ++ (e.walk w).code, outer⟩
                ((e.walk w).after.ask (.argument (n + 1))) (n + (e :: es).length)
                ⟨rest, prev'', code ++ (Expr.walkArguments w n (e :: es)).code, outer⟩
                (Expr.walkArguments w n (e :: es)).after := by
            by_cases hn' : n + 1 ≤ 255
            · obtain ⟨prev'', hothers⟩ := ih
                (w := (e.walk w).after.ask (.argument (n + 1))) hn' hothers
              refine ⟨prev'', fun _ => ?_⟩
              rw [Expr.walkArguments, List.length_cons, Nat.add_comm es.length, ← Nat.add_assoc]
              exact hothers.of_code (List.append_assoc ..)
            · exact ⟨comma, fun hmet => absurd hmet hn'⟩
          obtain ⟨prev'', hmore⟩ := hmore
          refine ⟨prev'', hfirst.bind (.demandThen (p := .tooManyArguments) hdemand trivial rfl ?_
            fun hmet => .step (follow_accept_true hcomma hts) (hmore hmet))⟩
          rw [Expr.walkArguments]
          exact Expr.precedes_walkArguments ..

/-- The end of a call. -/
theorem walks_closeCall {closing : Token} (hclosing : closing.kind = .rightParen)
    (hrest : rest ≠ []) (n : Nat) :
    (do expect .rightParen "')' after arguments"; emit .call [← narrow (min n 255)] :
      CompileM Unit).Walks ⟨closing :: rest, prev, code, outer⟩ w ()
      ⟨rest, closing, code ++ [Opcode.call.toByte, (min n 255).toUInt8], outer⟩ w := by
  refine .step (follow_expect hclosing hrest) (.liftM (.refl _) ?_)
  intro b hb
  rw [eq_of_narrow hb]
  exact walks_emit .call _

/-- A call without arguments continues as it is walked. -/
theorem walks_callNone {budget : Nat} {opening closing : Token}
    (hclosing : closing.kind = .rightParen) (hrest : rest ≠ []) :
    (CompileM.call parse budget).Continues (closing :: rest) opening l rest (.call l []) := by
  intro code outer w
  have hnext (A : Stage) (hA : A.tokens = closing :: rest) :
      (nextIs .rightParen).follow A = .ok (true, A) := by
    rw [follow_nextIs, hA, kindOf_cons, hclosing]
    rfl
  rw [Expr.walk, Expr.walkArguments, List.append_nil, ← List.append_assoc]
  exact ⟨closing, .step (hnext _ rfl) (.step rfl (walks_closeCall hclosing hrest 0))⟩

/-- A call with arguments continues as it is walked. -/
theorem Walking.call (hparse : Walking parse) {budget : Nat} {opening closing : Token}
    (h : Reads .arguments ts es (closing :: rest)) (hclosing : closing.kind = .rightParen)
    (hrest : rest ≠ []) :
    (CompileM.call parse budget).Continues ts opening l rest (.call l es) := by
  intro code outer w
  have hnext (A : Stage) (hA : A.tokens = ts) :
      (nextIs .rightParen).follow A = .ok (false, A) := by
    have hne : kindOf ts ≠ .rightParen := by
      intro hkind
      have hstart : (kindOf ts).rule.atStart ≠ none := h.atStart
      rw [hkind] at hstart
      exact hstart rfl
    rw [follow_nextIs, hA, beq_false_of_ne hne]
  obtain ⟨prev', hargs⟩ := hparse.arguments (w := (l.walk w).after) (Nat.zero_le _) h
    hclosing
  rw [Nat.zero_add] at hargs
  refine ⟨closing, .step (hnext _ rfl) (hargs.bind ?_)⟩
  rw [Expr.walk]
  exact (walks_closeCall hclosing hrest es.length).of_code (by simp only [List.append_assoc])

/-! ### Operators and levels -/

/-- What stands behind an expression continues as it is walked. -/
theorem Walking.behind (hparse : Walking parse) {budget : Nat}
    (h : Reads (.behind c l) (t :: ts) [e] rest) (hrest : rest ≠ [])
    (hfollow : c = true → kindOf rest ≠ .equal) : ∃ form, t.kind.rule.behind = some form ∧
      (CompileM.behind parse budget c form).Continues ts t l rest e := by
  cases h with
  | binary ho hreads => exact ⟨.binary, (binaryCode_of_ofKind? ho).2, hparse.binary ho hreads hrest⟩
  | and hkind hreads => exact ⟨.and, by rw [hkind]; rfl, hparse.conjunction hreads hrest⟩
  | or hkind hreads => exact ⟨.or, by rw [hkind]; rfl, hparse.disjunction hreads hrest⟩
  | call hkind hargs hclosing =>
      exact ⟨.call, by rw [hkind]; rfl, hparse.call hargs hclosing hrest⟩
  | callNone hkind hclosing => exact ⟨.call, by rw [hkind]; rfl, walks_callNone hclosing hrest⟩
  | get hkind hname hequal => exact ⟨.dot, by rw [hkind]; rfl, walks_get hname hrest hequal⟩
  | set hkind hname hequal hreads =>
      exact ⟨.dot, by rw [hkind]; rfl, hparse.set hname hequal hreads hrest (hfollow rfl)⟩

/-- The walk of the whole comes behind that of its left operand. -/
theorem precedes_of_behind (h : Reads (.behind c l) ts [e] rest) (w : Walk) :
    (l.walk w).after.Precedes (e.walk w).after := by
  cases h <;> rw [Expr.walk]
  case binary => exact Expr.precedes_walk ..
  case and => exact (Expr.precedes_walk ..).ask _
  case or => exact (((Walk.Precedes.refl _).ask _).trans (Expr.precedes_walk ..)).ask _
  case call | callNone => exact Expr.precedes_walkArguments ..
  case get => exact Walk.precedes_short ..
  case set => exact (Walk.precedes_short ..).trans (Expr.precedes_walk ..)

/-- What is read behind an expression begins with an operator. -/
theorem exists_operator (h : Reads (.behind c l) ts [e] rest) :
    ∃ t ts', ts = t :: ts' ∧ t.kind ≠ .equal := by
  cases h
  case binary o r t ts ho _ => exact ⟨t, ts, rfl, fun hkind => by rw [hkind] at ho; cases ho⟩
  all_goals
    refine ⟨_, _, rfl, fun hequal => ?_⟩
    simp_all

/-- The left operand is walked before the operators behind it. -/
theorem precedes_of_operators (h : Reads (.operators p l) ts [e] rest) (w : Walk) :
    (l.walk w).after.Precedes (e.walk w).after := by
  -- each operator takes a token, so the induction is on how many there are
  induction hlength : ts.length using Nat.strongRecOn generalizing ts l with
  | ind n ih =>
  cases h with
  | stop => exact .refl _
  | step _ hbehind hoperators =>
      obtain ⟨t, ts', rfl, -⟩ := exists_operator hbehind
      have hle := hbehind.suffix_tail.length_le
      rw [List.length_cons] at hlength
      exact (precedes_of_behind hbehind w).trans
        (ih _ (hlength ▸ Nat.lt_succ_of_le hle) hoperators rfl)

/-- No `=` stands behind an operand if none stands behind the operators that follow it. -/
theorem ne_equal_of_operators (h : Reads (.operators p l) ts [e] rest)
    (hfollow : p ≤ .assignment → kindOf rest ≠ .equal) (hp : p ≤ .assignment) :
    kindOf ts ≠ .equal := by
  cases h with
  | stop => exact hfollow hp
  | step _ hbehind =>
      obtain ⟨t, ts', rfl, ht⟩ := exists_operator hbehind
      exact ht

/-- Operators continue one after the other as they are walked. -/
theorem Walking.operators (hparse : Walking parse) {budget : Nat}
    (h : Reads (.operators p l) ts [e] rest) (hrest : rest ≠ [])
    (hfollow : p ≤ .assignment → kindOf rest ≠ .equal) :
    (CompileM.operators parse p (decide (p ≤ .assignment)) budget).Continues ts prev l rest e := by
  induction budget generalizing ts prev l with
  | zero => exact fun code outer w => ⟨prev, .of_fault (precedes_of_operators h w) rfl⟩
  | succ budget ih =>
      intro code outer w
      have hkind (ts : List Token) (l : Expr) : currentKind.follow
          (Site.stage ⟨ts, prev, code ++ (l.walk w).code, outer⟩ (l.walk w).after) =
            .ok (kindOf ts, Site.stage ⟨ts, prev, code ++ (l.walk w).code, outer⟩
              (l.walk w).after) := rfl
      rw [CompileM.operators]
      cases h with
      | stop hstop =>
          refine ⟨prev, .step (hkind ..) ?_⟩
          rw [if_neg hstop]
          exact walks_pure
      | step hle hbehind hoperators =>
          have hts₁ := ne_nil_of_suffix hrest hoperators.suffix
          have hequal := ne_equal_of_operators hoperators hfollow
          obtain ⟨t, ts', rfl, -⟩ := exists_operator hbehind
          have hts := ne_nil_of_suffix hts₁ hbehind.suffix_tail
          obtain ⟨form, hform, hcontinues⟩ := hparse.behind hbehind hts₁
            fun hc => hequal (of_decide_eq_true hc)
          obtain ⟨prev₁, hfirst⟩ := hcontinues code outer w
          obtain ⟨prev₂, hmore⟩ := ih hoperators code outer w
          refine ⟨prev₂, .step (hkind ..) ?_⟩
          rw [if_pos hle]
          refine .step (follow_advance hts) (.step rfl ?_)
          simp only [Query.answerAt, Site.stage, hform]
          exact hfirst.bind hmore

/-- Expressions of every level are compiled as they are walked, by induction on the budget. -/
theorem walking_parsePrecedence (budget : Nat) : Walking (parsePrecedence budget) := by
  induction budget with
  | zero => exact fun _ _ _ prev _ _ _ => ⟨prev, .of_fault (Expr.precedes_walk ..) rfl⟩
  | succ budget ih =>
      intro p ts rest e h hrest hfollow prev code outer w
      rw [parsePrecedence]
      cases h with
      | expr hstart hoperators =>
          have hts₁ := ne_nil_of_suffix hrest hoperators.suffix
          have hequal := ne_equal_of_operators hoperators hfollow
          obtain ⟨t, ts', rfl⟩ := exists_start hstart
          have hts := ne_nil_of_suffix hts₁ hstart.suffix_tail
          obtain ⟨form, hform, prev₁, hfirst⟩ :=
            ih.atStart (w := w) hstart hts₁
              fun hc => hequal (of_decide_eq_true hc)
          obtain ⟨prev₂, hmore⟩ := ih.operators hoperators hrest
            hfollow code outer w
          refine ⟨prev₂, .step (follow_advance hts) (.step rfl ?_)⟩
          simp only [Query.answerAt, Site.stage, hform]
          refine hfirst.bind (hmore.bind (.step (follow_acceptIf_false ?_) walks_pure))
          exact fun hand => hfollow (of_decide_eq_true hand.1) hand.2

/-- An expression is compiled as it is walked. -/
theorem walking_expression (budget : Nat) (h : Reads (.expr .assignment) ts [e] rest)
    (hrest : rest ≠ []) (hfollow : kindOf rest ≠ .equal) :
    (expression budget).Compiles ⟨ts, prev, code, outer⟩ w rest (e.walk w) :=
  walking_parsePrecedence budget h hrest (fun _ => hfollow) prev code outer w

end CompileM

end LoxBytecode
