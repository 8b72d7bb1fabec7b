import LoxBytecode.Compile.Statement
import LoxBytecode.Proofs.Walk.Expression

/-!
# Compiling Statements Walks

Where the tokens to come are read as a statement, compiling it walks through its tree. There is
one lemma for each kind of statement, with the statements inside it as hypotheses. A loop is
walked in the order of its parts, and what its end demands is known when its body is.
-/

namespace LoxBytecode

namespace CompileM

variable {m : CompileM Unit} {ts ts₁ ts₂ ts₃ rest : List Token} {t prev : Token}
  {code c : List UInt8} {outer : List (List UInt8)} {w w₁ w' : Walk} {e : Expr} {st : Stmt}
  {closing : TokenKind} {budget : Nat}

/-- A part of a program is compiled by walking through it. -/
def WalksOn (m : CompileM Unit) (part : StmtPart) : Prop :=
  ∀ {ts rest : List Token} {st : Stmt}, ReadsStmt part ts st rest → rest ≠ [] →
    ∀ (prev : Token) (code : List UInt8) (outer : List (List UInt8)) (w : Walk),
      m.Compiles ⟨ts, prev, code, outer⟩ w rest (st.walk w)

/-! ### Simple statements -/

/-- An expression up to the token that ends it. -/
theorem exists_walks_upTo (budget : Nat) (h : ReadsUpTo closing ts e rest)
    (hclosing : closing ≠ .equal) (prev : Token) (code : List UInt8) (outer : List (List UInt8))
    (w : Walk) : ∃ t prev', t.kind = closing ∧ (expression budget).Walks ⟨ts, prev, code, outer⟩
      w () ⟨t :: rest, prev', code ++ (e.walk w).code, outer⟩ (e.walk w).after := by
  cases h with
  | @intro t hreads ht =>
      obtain ⟨prev', hvalue⟩ := walking_expression
        (w := w) budget hreads (List.cons_ne_nil _ _) (by rwa [kindOf_cons, ht])
      exact ⟨t, prev', ht, hvalue⟩

/-- A print statement is compiled as it is walked. -/
theorem compiles_printStatement (h : ReadsUpTo .semicolon ts e rest) (hrest : rest ≠ []) :
    (printStatement budget).Compiles ⟨ts, prev, code, outer⟩ w rest ((Stmt.print e).walk w) := by
  obtain ⟨t, prev', ht, hvalue⟩ := exists_walks_upTo budget h (by decide) prev code outer w
  exact ⟨t, hvalue.bind (.step (follow_expect ht hrest)
    ((walks_emit _ _).of_code (List.append_assoc ..)))⟩

/-- An expression statement is compiled as it is walked. -/
theorem compiles_expressionStatement (h : ReadsUpTo .semicolon ts e rest) (hrest : rest ≠ []) :
    (expressionStatement budget).Compiles ⟨ts, prev, code, outer⟩ w rest
      ((Stmt.expression e).walk w) := by
  obtain ⟨t, prev', ht, hvalue⟩ := exists_walks_upTo budget h (by decide) prev code outer w
  exact ⟨t, hvalue.bind (.step (follow_expect ht hrest)
    ((walks_emit _ _).of_code (List.append_assoc ..)))⟩

/-- A deletion is compiled as it is walked. -/
theorem compiles_delStatement {object dot property semicolon : Token}
    (hobject : object.kind = .identifier) (hdot : dot.kind = .dot)
    (hproperty : property.kind = .identifier) (hsemicolon : semicolon.kind = .semicolon)
    (hrest : rest ≠ []) :
    (delStatement budget).Compiles
      ⟨object :: dot :: property :: semicolon :: rest, prev, code, outer⟩ w rest
      ((Stmt.del object.lexeme property.lexeme).walk w) := by
  refine ⟨semicolon, .step (follow_expect hobject (List.cons_ne_nil _ _)) ?_⟩
  refine (walks_namedVariable fun h => Bool.false_ne_true h.1).bind ?_
  refine .step (follow_expect hdot (List.cons_ne_nil _ _)) ?_
  refine .step (follow_expect hproperty (List.cons_ne_nil _ _)) (walks_nameConstant.bind ?_)
  refine (walks_emit _ _).bind ?_
  exact (Walks.of_ok rfl (follow_expect hsemicolon hrest)).of_code (List.append_assoc ..)

/-- A return is compiled as it is walked, and refused in the script. -/
theorem compiles_returnStatement {value : Option Expr} (h : ReadsClause .semicolon ts value rest)
    (hrest : rest ≠ []) : (returnStatement budget).Compiles ⟨ts, prev, code, outer⟩ w rest
      ((Stmt.ret value).walk w) := by
  have hdemand : w.current.kind = .script ↔ ¬ (Demand.returns w.current.kind).Met := by
    show w.current.kind = .script ↔ ¬ w.current.kind = .function
    cases w.current.kind <;> decide
  cases h with
  | @none t _ ht =>
      refine ⟨t, .step rfl (.demandThen (p := .returnFromScript) hdemand trivial rfl (.refl _)
        fun _ => .step (follow_accept_true ht hrest) ?_)⟩
      exact walks_emitAll [.nil, .ret]
  | @some _ e _ hkind hvalue =>
      obtain ⟨t, prev', ht, hwalks⟩ := exists_walks_upTo budget hvalue (by decide) prev code outer
        (w.ask (.returns w.current.kind))
      refine ⟨t, .step rfl (.demandThen (p := .returnFromScript) hdemand trivial rfl
        (Expr.precedes_walk _ e) fun _ => .step (follow_accept_false hkind) (hwalks.bind ?_))⟩
      exact .step (follow_expect ht hrest) ((walks_emit _ _).of_code (List.append_assoc ..))

/-- A variable declaration is compiled as it is walked. -/
theorem compiles_varDeclaration (h : ReadsVar ts st rest) (hrest : rest ≠ []) :
    (varDeclaration budget).Compiles ⟨ts, prev, code, outer⟩ w rest (st.walk w) := by
  cases h with
  | @none name semicolon _ hname hsemicolon =>
      refine ⟨semicolon, (walks_parseVariable hname (List.cons_ne_nil _ _)).bind ?_⟩
      refine .step (follow_accept_false ?_) ((walks_emit _ _).bind ?_)
      · rw [Site.stage, kindOf_cons, hsemicolon]
        decide
      · refine .step (follow_expect hsemicolon hrest) ?_
        exact (walks_defineVariable _).of_code (List.append_assoc ..)
  | @some name equal ts _ e hname hequal hvalue =>
      obtain ⟨t, prev', ht, hwalks⟩ := exists_walks_upTo budget hvalue (by decide) equal code outer
        (w.newName name.lexeme).2
      have hts : ts ≠ [] := ne_nil_of_suffix hrest hvalue.suffix
      refine ⟨t, (walks_parseVariable hname (List.cons_ne_nil _ _)).bind ?_⟩
      refine .step (follow_accept_true hequal hts) (hwalks.bind ?_)
      refine .step (follow_expect ht hrest) ?_
      exact (walks_defineVariable _).of_code (List.append_assoc ..)

/-- A class declaration is compiled as it is walked. -/
theorem compiles_classDeclaration {name opening closing : Token}
    (hname : name.kind = .identifier) (hopening : opening.kind = .leftBrace)
    (hclosing : closing.kind = .rightBrace) (hrest : rest ≠ []) :
    classDeclaration.Compiles ⟨name :: opening :: closing :: rest, prev, code, outer⟩ w rest
      ((Stmt.classDecl name.lexeme).walk w) := by
  refine ⟨closing, .step (follow_expect hname (List.cons_ne_nil _ _)) ?_⟩
  refine walks_nameConstant.bind (walks_declareVariable.bind ((walks_emit _ _).bind ?_))
  refine (walks_defineVariable _).bind ?_
  refine .step (follow_expect hopening (List.cons_ne_nil _ _)) ?_
  exact (Walks.of_ok rfl (follow_expect hclosing hrest)).of_code (List.append_assoc ..)

/-! ### Branches -/

/-- The rest of an `if` behind what it does when its condition holds. -/
inductive ReadsElse (ts : List Token) : Stmt → List Token → Prop
  | none : kindOf ts ≠ .elseWord → ReadsElse ts .skip ts
  | some {t : Token} {ts' rest : List Token} {st : Stmt} : ts = t :: ts' → t.kind = .elseWord →
      ReadsStmt .statement ts' st rest → ReadsElse ts st rest

/-- What follows the first side of a branch is compiled as it is walked, whether or not there is
an `else`. -/
theorem ReadsElse.exists_walks (h : ReadsElse ts st rest) (hstatement : m.WalksOn .statement)
    (hrest : rest ≠ []) (prev : Token) (code : List UInt8) (outer : List (List UInt8))
    (w : Walk) : ∃ prev', ∀ {next : CompileM Unit} {y : Site} {w' : Walk},
      next.Walks ⟨rest, prev', code ++ (st.walk w).code, outer⟩ (st.walk w).after () y w' →
        (accept .elseWord >>= fun other => if other = true then m >>= fun _ => next else next).Walks
          ⟨ts, prev, code, outer⟩ w () y w' := by
  cases h with
  | none hkind =>
      refine ⟨prev, fun hnext => .step (follow_accept_false hkind) ?_⟩
      rwa [Stmt.walk, List.append_nil] at hnext
  | @some t ts' _ _ hts ht hreads =>
      subst hts
      obtain ⟨prev', hbody⟩ := hstatement hreads hrest t code outer w
      have hts' := ne_nil_of_suffix hrest hreads.suffix
      exact ⟨prev', fun hnext => .step (follow_accept_true ht hts') (hbody.bind hnext)⟩

/-- A branch is compiled as it is walked. -/
theorem compiles_ifStatement (hstatement : m.WalksOn .statement) {opening : Token} {yes no : Stmt}
    (hopening : opening.kind = .leftParen) (hcondition : ReadsUpTo .rightParen ts e ts₁)
    (hyes : ReadsStmt .statement ts₁ yes ts₂) (hno : ReadsElse ts₂ no rest) (hts₂ : ts₂ ≠ [])
    (hrest : rest ≠ []) :
    (ifStatement m budget).Compiles ⟨opening :: ts, prev, code, outer⟩ w rest
      ((Stmt.branch e yes no).walk w) := by
  have hts₁ := ne_nil_of_suffix hts₂ hyes.suffix
  have hts := ne_nil_of_suffix hts₁ hcondition.suffix
  obtain ⟨t, prev₁, ht, hc⟩ := exists_walks_upTo budget hcondition (by decide) opening code outer w
  obtain ⟨prev₂, ha⟩ := hstatement hyes hts₂ t
    (code ++ (e.walk w).code ++ jumpCode .jumpIfFalse Session.maxJump ++ [Opcode.pop.toByte]) outer
    (e.walk w).after
  let a := yes.walk (e.walk w).after
  let thenSize := a.code.length + 4
  let b := no.walk (a.after.ask (.jump thenSize))
  let c₁ := code ++ (e.walk w).code
  let c₂ := c₁ ++ jumpCode .jumpIfFalse thenSize ++ Opcode.pop.toByte :: a.code
  obtain ⟨prev₃, hb⟩ := hno.exists_walks hstatement hrest prev₂
    (c₂ ++ jumpCode .jump Session.maxJump ++ [Opcode.pop.toByte]) outer
    (a.after.ask (.jump thenSize))
  have hskipped : (Opcode.pop.toByte :: a.code ++ jumpCode .jump Session.maxJump).length =
      thenSize := by
    simp [jumpCode, Chunk.bytesOf16, thenSize]
  refine ⟨prev₃, .step (follow_expect hopening hts) (hc.bind ?_)⟩
  refine .step (follow_expect ht hts₁) ((walks_emitJump _).bind ((walks_emit .pop []).bind ?_))
  refine ha.bind ((walks_emitJump _).bind ?_)
  have hthen : (patchJump _).Walks ⟨ts₂, prev₂, _, outer⟩ a.after () _ _ :=
    walks_patchJump (c := c₁) .jumpIfFalse Session.maxJump
      (Opcode.pop.toByte :: a.code ++ jumpCode .jump Session.maxJump) rfl rfl
  rw [hskipped] at hthen
  refine Walks.bind (Walks.of_start hthen ?_) ?_
  · simp [c₁, a]
  refine (walks_emit .pop []).bind (.of_start (hb ?_) ?_)
  · refine (walks_patchJump (c := c₂) .jump Session.maxJump (Opcode.pop.toByte :: b.code) ?_ ?_
      ).of_code ?_
    · simp [c₁, c₂, a, jumpCode, Chunk.bytesOf16]
    · simp [b]
    · simp [c₁, c₂, a, b, thenSize, Stmt.walk]
  · simp [c₂]

/-! ### Loops -/

/-- The test at the head of a loop, as long as its exit is not known. -/
def openTest : Option (List UInt8) → List UInt8
  | none => []
  | some a => a ++ jumpCode .jumpIfFalse Session.maxJump ++ [Opcode.pop.toByte]

/-- The test of a loop takes the room that its head says. -/
theorem length_openTest (condition : Option (List UInt8)) :
    (openTest condition).length = LoopCode.headSize condition := by
  cases condition <;> simp [openTest, LoopCode.headSize, jumpCode, Chunk.bytesOf16]

/-- Where the distance of the exit belongs, behind some code. -/
def exitOf (code : List UInt8) (condition : Option (List UInt8)) : Option Nat :=
  condition.map fun a => (code ++ a).length + 1

/-- Where a loop behind some code goes on when its body is done. -/
def againOf (code : List UInt8) (condition : Option (List UInt8)) :
    Option (List UInt8) → Nat
  | none => code.length
  | some _ => (code ++ openTest condition ++ jumpCode .jump Session.maxJump).length

/-- A jump takes three bytes. -/
theorem length_jumpCode (op : Opcode) (n : Nat) : (jumpCode op n).length = 3 := rfl

/-- The jump back at the end of a loop. -/
theorem walks_loopBack (p : LoopCode)
    (hcode : code = c ++ openTest p.condition ++ p.stepPart ++ p.body) :
    (emitLoop (againOf c p.condition p.step)).Walks ⟨ts, prev, code, outer⟩ w ()
      ⟨ts, prev, c ++ openTest p.condition ++ p.inner, outer⟩ (w.ask (.loop p.back)) := by
  have hlength : code.length = c.length + LoopCode.headSize p.condition + p.stepPart.length +
      p.body.length := by
    simp only [hcode, List.length_append, length_openTest]
  have hback : againOf c p.condition p.step ≤ code.length ∧
      code.length + 3 - againOf c p.condition p.step = p.back := by
    obtain ⟨condition, step, body⟩ := p
    cases step <;> simp only [againOf, LoopCode.back, LoopCode.stepPart, LoopCode.stepCode,
      List.length_append, List.length_cons, List.length_nil, length_jumpCode, length_openTest]
      at hlength ⊢ <;> omega
  have hwalks : (emitLoop _).Walks ⟨ts, prev, code, outer⟩ w () _ _ := walks_emitLoop hback.1
  rw [hback.2] at hwalks
  refine hwalks.of_code ?_
  simp only [hcode, LoopCode.inner, List.append_assoc]

/-- The exit of a loop leads behind it, where the condition is popped. -/
theorem walks_loopExit {p : LoopCode} {condition : List UInt8} {offset : Nat}
    (hcondition : p.condition = some condition) (hoffset : offset = (c ++ condition).length + 1) :
    (patchJump offset).Walks ⟨ts, prev, c ++ openTest p.condition ++ p.inner, outer⟩
      (w.ask (.loop p.back)) ()
      ⟨ts, prev, c ++ condition ++ jumpCode .jumpIfFalse (p.inner.length + 1) ++
        Opcode.pop.toByte :: p.inner, outer⟩ (w.askAll p.endDemands) := by
  have hpatch : (patchJump offset).Walks ⟨ts, prev, _, outer⟩ (w.ask (.loop p.back)) () _ _ :=
    walks_patchJump (c := c ++ condition) .jumpIfFalse Session.maxJump
      (Opcode.pop.toByte :: p.inner) hoffset rfl
  have hdemands : w.askAll p.endDemands =
      (w.ask (.loop p.back)).ask (.jump (Opcode.pop.toByte :: p.inner).length) := by
    simp only [LoopCode.endDemands, hcondition, Walk.askAll_cons, Walk.askAll_nil,
      List.length_cons]
  rw [hdemands]
  refine .of_start hpatch ?_
  simp only [openTest, hcondition, List.append_assoc, List.cons_append, List.nil_append]

/-- A loop with a condition is the condition, its jump, the inside and the pop behind it. -/
theorem code_of_condition {p : LoopCode} {condition : List UInt8}
    (hcondition : p.condition = some condition) :
    c ++ condition ++ jumpCode .jumpIfFalse (p.inner.length + 1) ++ Opcode.pop.toByte :: p.inner ++
      [Opcode.pop.toByte] = c ++ p.code := by
  simp only [LoopCode.code, hcondition, List.append_assoc, List.cons_append]

/-- A while loop is compiled as it is walked. -/
theorem compiles_whileStatement (hstatement : m.WalksOn .statement) {opening : Token}
    (hopening : opening.kind = .leftParen) (hcondition : ReadsUpTo .rightParen ts e ts₁)
    (hbody : ReadsStmt .statement ts₁ st rest) (hrest : rest ≠ []) :
    (whileStatement m budget).Compiles ⟨opening :: ts, prev, code, outer⟩ w rest
      ((Stmt.whileLoop e st).walk w) := by
  have hts₁ := ne_nil_of_suffix hrest hbody.suffix
  have hts := ne_nil_of_suffix hts₁ hcondition.suffix
  obtain ⟨t, prev₁, ht, hc⟩ := exists_walks_upTo budget hcondition (by decide) opening code outer w
  obtain ⟨prev₂, hs⟩ := hstatement hbody hrest t
    (code ++ (e.walk w).code ++ jumpCode .jumpIfFalse Session.maxJump ++ [Opcode.pop.toByte]) outer
    (e.walk w).after
  let p : LoopCode := ⟨some (e.walk w).code, none, (st.walk (e.walk w).after).code⟩
  refine ⟨prev₂, .step rfl (.step (follow_expect hopening hts) (hc.bind ?_))⟩
  refine .step (follow_expect ht hts₁) ((walks_emitJump _).bind ((walks_emit .pop []).bind ?_))
  refine hs.bind ((walks_loopBack (c := code) p ?_).bind ((walks_loopExit rfl rfl).bind
    ((walks_emit .pop []).of_code (code_of_condition rfl))))
  simp [p, openTest, LoopCode.stepPart]

/-- The first clause of a for loop is compiled as it is walked. -/
theorem compiles_forInitializer (h : ReadsStmt .forFirst ts st rest) (hrest : rest ≠ []) :
    (forInitializer budget).Compiles ⟨ts, prev, code, outer⟩ w rest (st.walk w) := by
  cases h with
  | @forNone t _ ht =>
      refine ⟨t, .step (follow_accept_true ht hrest) ?_⟩
      rw [Stmt.walk, List.append_nil]
      exact walks_pure
  | @forVar t ts _ _ ht hvar =>
      have hts := ne_nil_of_suffix hrest hvar.suffix
      obtain ⟨prev', hwalks⟩ := compiles_varDeclaration (w := w) hvar hrest
      refine ⟨prev', .step (follow_accept_false ?_) (.step (follow_accept_true ht hts) hwalks)⟩
      rw [Site.stage, kindOf_cons, ht]
      decide
  | @forExpression _ _ e hexpression =>
      obtain ⟨prev', hwalks⟩ := compiles_expressionStatement (w := w) hexpression hrest
      have hkind (k : TokenKind) (hk : k.rule.atStart = none) : kindOf ts ≠ k := by
        obtain ⟨hreads, -⟩ := hexpression
        rintro rfl
        exact hreads.atStart hk
      exact ⟨prev', .step (follow_accept_false (hkind _ rfl))
        (.step (follow_accept_false (hkind _ rfl)) hwalks)⟩

/-- The second clause of a for loop is compiled as it is walked, and leaves a jump open if there
is a condition. -/
theorem exists_walks_forCondition {condition : Option Expr}
    (h : ReadsClause .semicolon ts condition rest) (hrest : rest ≠ []) (budget : Nat)
    (prev : Token) (code : List UInt8) (outer : List (List UInt8)) (w : Walk) :
    ∃ prev', (forCondition budget).Walks ⟨ts, prev, code, outer⟩ w
      (exitOf code (Expr.walkOption w condition).1)
      ⟨rest, prev', code ++ openTest (Expr.walkOption w condition).1, outer⟩
      (Expr.walkOption w condition).2 := by
  cases h with
  | @none t _ ht =>
      refine ⟨t, .step (follow_accept_true ht hrest) ?_⟩
      exact walks_pure.of_code (List.append_nil _).symm
  | @some _ e _ hkind hcondition =>
      obtain ⟨t, prev', ht, hwalks⟩ := exists_walks_upTo budget hcondition (by decide) prev code
        outer w
      refine ⟨t, .step (follow_accept_false hkind) (hwalks.bind ?_)⟩
      refine .step (follow_expect ht hrest) ((walks_emitJump _).bind ((walks_emit .pop []).bind ?_))
      refine walks_pure.of_code ?_
      simp only [openTest, Expr.walkOption, List.append_assoc]

/-- The last clause of a `for` is compiled as it is walked, behind the test at its head. -/
theorem exists_walks_forIncrement {condition : Option (List UInt8)} {step : Option Expr}
    (h : ReadsClause .rightParen ts step rest) (hrest : rest ≠ []) (budget : Nat) (prev : Token)
    (code : List UInt8) (outer : List (List UInt8)) (w : Walk) :
    ∃ prev', (forIncrement budget code.length).Walks
      ⟨ts, prev, code ++ openTest condition, outer⟩ w
      (againOf code condition (Expr.walkOption w step).1)
      ⟨rest, prev', code ++ openTest condition ++
        LoopCode.stepPart ⟨condition, (Expr.walkOption w step).1, []⟩, outer⟩
      ((Expr.walkOption w step).2.askAll
        (LoopCode.stepDemands condition (Expr.walkOption w step).1)) := by
  cases h with
  | @none t _ ht =>
      refine ⟨t, .step (follow_accept_true ht hrest) ?_⟩
      rw [Expr.walkOption, LoopCode.stepDemands, Walk.askAll_nil]
      exact walks_pure.of_code (List.append_nil _).symm
  | @some _ e _ hkind hstep =>
      let c := code ++ openTest condition
      obtain ⟨t, prev', ht, hwalks⟩ := exists_walks_upTo budget hstep (by decide) prev
        (c ++ jumpCode .jump Session.maxJump) outer w
      let a := (e.walk w).code
      let back := LoopCode.stepBack condition a
      have hcode : c.length = code.length + LoopCode.headSize condition := by
        simp only [c, List.length_append, length_openTest]
      have hback : (c ++ jumpCode .jump Session.maxJump ++ a ++ [Opcode.pop.toByte]).length + 3 -
          code.length = back := by
        simp only [List.length_append, List.length_singleton, length_jumpCode, hcode, back,
          LoopCode.stepBack]
        omega
      have hloop : (emitLoop code.length).Walks ⟨rest, t, c ++ jumpCode .jump Session.maxJump ++ a ++
          [Opcode.pop.toByte], outer⟩ (e.walk w).after () _ _ :=
        walks_emitLoop (by simp only [List.length_append, hcode]; omega)
      rw [hback] at hloop
      have hover : (patchJump _).Walks ⟨rest, t, _, outer⟩ ((e.walk w).after.ask (.loop back)) ()
          _ _ := walks_patchJump (c := c) .jump Session.maxJump (LoopCode.stepCode condition a) rfl rfl
      refine ⟨t, .step (follow_accept_false hkind) ((walks_emitJump _).bind (.step rfl ?_))⟩
      refine hwalks.bind ((walks_emit .pop []).bind (.step (follow_expect ht hrest) ?_))
      refine hloop.bind (Walks.bind (.of_start hover ?_) ?_)
      · simp only [LoopCode.stepCode, List.append_assoc, List.cons_append, List.nil_append, back]
      · rw [Expr.walkOption, LoopCode.stepDemands, Walk.askAll_cons, Walk.askAll_cons,
          Walk.askAll_nil]
        exact walks_pure.of_code (List.append_assoc ..)

/-- A for loop is compiled as it is walked. -/
theorem compiles_forStatement (hstatement : m.WalksOn .statement) {opening : Token}
    {first : Stmt} {condition step : Option Expr} (hopening : opening.kind = .leftParen)
    (hfirst : ReadsStmt .forFirst ts first ts₁) (hcondition : ReadsClause .semicolon ts₁ condition ts₂)
    (hstep : ReadsClause .rightParen ts₂ step ts₃) (hbody : ReadsStmt .statement ts₃ st rest)
    (hrest : rest ≠ []) :
    (forStatement m budget).Compiles ⟨opening :: ts, prev, code, outer⟩ w rest
      ((Stmt.forLoop first condition step st).walk w) := by
  have hts₃ := ne_nil_of_suffix hrest hbody.suffix
  have hts₂ := ne_nil_of_suffix hts₃ hstep.suffix
  have hts₁ := ne_nil_of_suffix hts₂ hcondition.suffix
  have hts := ne_nil_of_suffix hts₁ hfirst.suffix
  let start := first.walk (w.modifyScope Scope.enter)
  let c := code ++ start.code
  let a := Expr.walkOption start.after condition
  let b := Expr.walkOption a.2 step
  let body := st.walk (b.2.askAll (LoopCode.stepDemands a.1 b.1))
  let p : LoopCode := ⟨a.1, b.1, body.code⟩
  obtain ⟨prev₁, hstart⟩ := compiles_forInitializer (w := w.modifyScope Scope.enter) hfirst hts₁
  obtain ⟨prev₂, ha⟩ := exists_walks_forCondition hcondition hts₂ budget prev₁ c outer start.after
  obtain ⟨prev₃, hb⟩ := exists_walks_forIncrement hstep hts₃ budget prev₂ c
    outer a.2
  obtain ⟨prev₄, hs⟩ := hstatement hbody hrest prev₃ (c ++ openTest a.1 ++ p.stepPart) outer
    (b.2.askAll (LoopCode.stepDemands a.1 b.1))
  have hback : (emitLoop _).Walks ⟨rest, prev₄, _, outer⟩ body.after () _ _ :=
    walks_loopBack (c := c) p rfl
  have hleave : CompileM.endScope.Walks ⟨rest, prev₄, c ++ p.code, outer⟩
      (body.after.askAll p.endDemands) () _ _ := walks_endScope
  have hall : c ++ p.code ++ (body.after.askAll p.endDemands).leave.code =
      code ++ ((Stmt.forLoop first condition step st).walk w).code := by
    show _ = code ++ (start.code ++ p.code ++ (body.after.askAll p.endDemands).leave.code)
    simp only [c, List.append_assoc]
  refine ⟨prev₄, walks_beginScope.bind (.step (follow_expect hopening hts) (hstart.bind ?_))⟩
  refine .step rfl (ha.bind (hb.bind (hs.bind (hback.bind ?_))))
  cases condition with
  | none =>
      have hend : body.after.ask (.loop p.back) = body.after.askAll p.endDemands := by
        simp only [LoopCode.endDemands, p, a, Expr.walkOption, Walk.askAll_cons, Walk.askAll_nil]
      rw [hend]
      refine Walks.of_code (.of_start hleave ?_) hall
      simp [c, p, a, LoopCode.code, openTest, Expr.walkOption]
  | some e =>
      refine (walks_loopExit (c := c) (p := p) rfl rfl).bind ((walks_emit .pop []).bind ?_)
      exact Walks.of_code (.of_start hleave (code_of_condition rfl)) hall

/-! ### Blocks -/

/-- The declarations of a block are compiled as they are walked. -/
theorem compiles_block (hdeclaration : m.WalksOn .declaration) (h : ReadsStmt .block ts st rest)
    (hrest : rest ≠ []) :
    (block m budget).Compiles ⟨ts, prev, code, outer⟩ w rest (st.walk w) := by
  induction budget generalizing ts st prev code w with
  | zero => exact ⟨prev, .of_fault (Stmt.precedes_walk ..) rfl⟩
  | succ budget ih =>
      cases h with
      | @blockEnd t _ ht =>
          refine ⟨t, .step rfl ?_⟩
          have hclosing : (Query.currentKind.answerAt (Site.stage ⟨t :: rest, prev, code, outer⟩ w) ==
              .rightBrace) = true := beq_iff_eq.mpr ht
          rw [hclosing, Stmt.walk, List.append_nil]
          exact .of_ok rfl (follow_expect ht hrest)
      | @blockMore ts ts₁ _ st body hne hfirst hothers =>
          have hts₁ := ne_nil_of_suffix hrest hothers.suffix
          obtain ⟨prev₁, hst⟩ := hdeclaration hfirst hts₁ prev code outer w
          obtain ⟨prev₂, hbody⟩ := ih
            (w := (st.walk w).after) hothers
          refine ⟨prev₂, .step rfl ?_⟩
          have hmore : (Query.currentKind.answerAt (Site.stage ⟨ts, prev, code, outer⟩ w) ==
                .rightBrace ||
              Query.currentKind.answerAt (Site.stage ⟨ts, prev, code, outer⟩ w) == .eof) = false := by
            rw [Bool.or_eq_false_iff]
            exact ⟨beq_false_of_ne hne, beq_false_of_ne hfirst.kindOf_declaration.2.2⟩
          rw [hmore]
          exact hst.bind (hbody.of_code (List.append_assoc ..))

/-- A block as a statement is compiled as it is walked. -/
theorem compiles_blockStatement (hdeclaration : m.WalksOn .declaration)
    (h : ReadsStmt .block ts st rest) (hrest : rest ≠ []) :
    (blockStatement m budget).Compiles ⟨ts, prev, code, outer⟩ w rest
      ((Stmt.block st).walk w) := by
  obtain ⟨prev', hbody⟩ := compiles_block (w := w.modifyScope Scope.enter) hdeclaration h hrest
  refine ⟨prev', walks_beginScope.bind (hbody.bind (walks_endScope.of_code ?_))⟩
  exact List.append_assoc ..

end CompileM

end LoxBytecode
