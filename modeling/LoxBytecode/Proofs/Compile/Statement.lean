import LoxBytecode.Proofs.Code.Leaving
import LoxBytecode.Proofs.Compile.Expression

/-!
# Compiling Statements

A run of `statement` or `declaration` without diagnostics reads a statement and writes its code
(`TranslatesStmt`). As with expressions there is one lemma for each form, about any compilation
of the statements inside that translates them.
-/

namespace LoxBytecode

/-- A variable declaration has no statement inside it. -/
theorem ReadsVar.simple {ts rest : List Token} {st : Stmt} (h : ReadsVar ts st rest) :
    st.Simple := by
  cases h <;> trivial

namespace CompileM

variable {s t u : Session} {τ τ₁ τ₂ : List Event} {a : Unit} {e : Expr} {is : List Item}

/-- From `s` to `t` a part of a program was read from the tokens `input`, and its code was
written, in which every scope closes as it should. -/
structure TranslatesStmt (part : StmtPart) (input : List Token) (s : Session) (τ : List Event)
    (st : Stmt) (is : List Item) (t : Session) : Prop where
  reads : ReadsStmt part input st t.remaining
  code : StmtCode (World.of t) s.scope st is t.scope
  closes : Closes (World.of t) s.scope st is t.scope
  wrote : Wrote s τ is t

/-- A statement without any inside has no scopes. -/
theorem TranslatesStmt.of_simple {part : StmtPart} {input : List Token} {st : Stmt}
    (hreads : ReadsStmt part input st t.remaining)
    (hcode : StmtCode (World.of t) s.scope st is t.scope) (hst : st.Simple)
    (hwrote : Wrote s τ is t) : TranslatesStmt part input s τ st is t :=
  ⟨hreads, hcode, hcode.closes hst, hwrote⟩

/-! ### Simple statements -/

/-- An expression and the token that closes it. -/
theorem Translates.upTo {closing : TokenKind} {what : String}
    (hexpr : Translates (.expr .assignment) s.remaining [] s τ₁ [e] is u)
    (hclose : (expect closing what).Yields u a τ₂ t) (hkind : closing ≠ .eof) :
    ReadsUpTo closing s.remaining e t.remaining ∧ ExprCode (World.of t) s.scope [e] is ∧
      Wrote s (τ₁ ++ τ₂) is t ∧ t.scope = s.scope := by
  obtain ⟨hreads, hcode, hwrote, hscope⟩ := hexpr
  obtain ⟨hclosing, rfl, hpasses⟩ := hclose.expect_passes hkind
  rw [hpasses.remaining] at hreads
  refine ⟨⟨hreads, hclosing⟩, hcode.mono hpasses.wrote.le, ?_, hpasses.scope.trans hscope⟩
  simpa using hwrote.trans hpasses.wrote

/-- A print statement translates to its value and one instruction. -/
theorem Yields.printStatement {budget : Nat}
    (h : (CompileM.printStatement budget).Yields s a τ t) (hkind : s.previous.kind = .printWord) :
    ∃ st is, TranslatesStmt .statement (s.previous :: s.remaining) s τ st is t ∧
      t.scope = s.scope := by
  obtain ⟨_, u, τ₁, τ₂, hexpr, hrest, rfl⟩ := Yields.bind h
  obtain ⟨e, is, htranslates⟩ := hexpr.expression
  obtain ⟨_, v, τ₃, τ₄, hclose, hemit, rfl⟩ := hrest.bind
  obtain ⟨hreads, hcode, hwrote, hscope⟩ := htranslates.upTo hclose (by decide)
  obtain ⟨hwrote', hstays⟩ := hemit.emit (by decide)
  have ht : t.scope = s.scope := hstays.scope.trans hscope
  rw [← hstays.tokens.remaining] at hreads
  rw [hscope] at hwrote'
  refine ⟨_, is ++ [s.scope.op .print []], .of_simple (.print hkind hreads) ?_ trivial ?_, ht⟩
  · rw [ht]
    exact .print (hcode.mono hwrote'.le)
  · simpa using hwrote.trans hwrote'

/-- An expression statement translates to its value and a pop. -/
theorem Yields.expressionStatement {budget : Nat}
    (h : (CompileM.expressionStatement budget).Yields s a τ t) :
    ∃ e is, ReadsUpTo .semicolon s.remaining e t.remaining ∧
      StmtCode (World.of t) s.scope (.expression e) is t.scope ∧ Wrote s τ is t ∧
      t.scope = s.scope := by
  obtain ⟨_, u, τ₁, τ₂, hexpr, hrest, rfl⟩ := Yields.bind h
  obtain ⟨e, is, htranslates⟩ := hexpr.expression
  obtain ⟨_, v, τ₃, τ₄, hclose, hemit, rfl⟩ := hrest.bind
  obtain ⟨hreads, hcode, hwrote, hscope⟩ := htranslates.upTo hclose (by decide)
  obtain ⟨hwrote', hstays⟩ := hemit.emit (by decide)
  have ht : t.scope = s.scope := hstays.scope.trans hscope
  rw [← hstays.tokens.remaining] at hreads
  rw [hscope] at hwrote'
  refine ⟨e, is ++ [s.scope.op .pop []], hreads, ?_, ?_, ht⟩
  · rw [ht]
    exact .expression (hcode.mono hwrote'.le)
  · simpa using hwrote.trans hwrote'

/-- A deletion translates to the access of its object and one instruction. -/
theorem Yields.delStatement {budget : Nat}
    (h : (CompileM.delStatement budget).Yields s a τ t) (hkind : s.previous.kind = .delWord) :
    ∃ st is, TranslatesStmt .statement (s.previous :: s.remaining) s τ st is t ∧
      t.scope = s.scope := by
  obtain ⟨_, u, τ₁, τ₂, hname, hrest, rfl⟩ := Yields.bind h
  obtain ⟨hobject, rfl, hpasses₁⟩ := hname.expect_passes (by decide)
  obtain ⟨_, v, τ₃, τ₄, hread, hrest', rfl⟩ := hrest.bind
  obtain ⟨access, v₁, τ₅, τ₆, hresolve, hrest'', rfl⟩ := Yields.bind hread
  obtain ⟨hwrote₁, hstays₁, haccess⟩ := hresolve.resolve
  obtain ⟨equals, v₂, τ₇, τ₈, haccept, hemit, rfl⟩ := hrest''.bind
  obtain ⟨rfl, rfl, rfl⟩ := haccept.pure
  obtain ⟨hwrote₂, hstays₂, haccess'⟩ := read_of_resolves hwrote₁ hstays₁ haccess hemit
  obtain ⟨_, w, τ₉, τ₁₀, hexpect, hrest₃, rfl⟩ := hrest'.bind
  obtain ⟨hdot, rfl, hpasses₂⟩ := hexpect.expect_passes (by decide)
  obtain ⟨_, x, τ₁₁, τ₁₂, hexpect', hrest₄, rfl⟩ := hrest₃.bind
  obtain ⟨hproperty, rfl, hpasses₃⟩ := hexpect'.expect_passes (by decide)
  obtain ⟨i, y, τ₁₃, τ₁₄, hconstant, hrest₅, rfl⟩ := hrest₄.bind
  obtain ⟨hwrote₃, hstays₃, htext⟩ := hconstant.nameConstant
  obtain ⟨_, z, τ₁₅, τ₁₆, hdel, hclose, rfl⟩ := hrest₅.bind
  obtain ⟨hwrote₄, hstays₄⟩ := hdel.emit (by decide)
  obtain ⟨hclosing, rfl, hpasses₄⟩ := hclose.expect_passes (by decide)
  have hx : x.scope = s.scope := by
    rw [hpasses₃.scope, hpasses₂.scope, hstays₂.scope, hpasses₁.scope]
  have hy : y.scope = s.scope := hstays₃.scope.trans hx
  have ht : t.scope = s.scope := (hpasses₄.scope.trans hstays₄.scope).trans hy
  rw [hpasses₁.scope] at hwrote₂ haccess'
  rw [hy] at hwrote₄
  rw [hpasses₁.previous] at haccess'
  rw [hpasses₃.previous] at htext
  have hread' := (hpasses₁.wrote.trans hwrote₂).trans (hpasses₂.wrote.trans hpasses₃.wrote)
  have hle := hwrote₄.le.trans hpasses₄.wrote.le
  have hresolves := haccess'.mono (hpasses₂.wrote.le.trans
    (hpasses₃.wrote.le.trans (hwrote₃.le.trans hle)))
  rw [hpasses₁.remaining, ← hstays₂.tokens.remaining, hpasses₂.remaining, hpasses₃.remaining,
    ← hstays₃.tokens.remaining, ← hstays₄.tokens.remaining, hpasses₄.remaining]
  refine ⟨_, [s.scope.op access.read [access.operand], s.scope.op .delProperty [i]],
    .of_simple (.del hkind hobject hdot hproperty hclosing) ?_ trivial ?_, ht⟩
  · rw [ht]
    exact .del hresolves (htext.mono hle)
  · simpa using ((hread'.trans hwrote₃).trans hwrote₄).trans hpasses₄.wrote

/-- A return translates to its value, or to nil, and one instruction. -/
theorem Yields.returnStatement {budget : Nat}
    (h : (CompileM.returnStatement budget).Yields s a τ t)
    (hkind : s.previous.kind = .returnWord) :
    ∃ st is, TranslatesStmt .statement (s.previous :: s.remaining) s τ st is t ∧
      t.scope = s.scope := by
  obtain ⟨kind, u, τ₁, τ₂, hask, hrest, rfl⟩ := Yields.bind h
  obtain ⟨rfl, rfl, rfl⟩ := hask.ask
  dsimp only at hrest
  split at hrest
  · obtain ⟨_, u, τ₃, τ₄, hfail, -, -⟩ := hrest.bind
    exact hfail.fail.elim
  · obtain ⟨semicolon, u, τ₃, τ₄, haccept, hthen, rfl⟩ := hrest.bind
    obtain ⟨rfl, hcases⟩ := haccept.accept_passes (by decide)
    rcases hcases with ⟨rfl, hsemicolon, hpasses⟩ | ⟨rfl, hno, rfl⟩
    · obtain ⟨hwrote, hstays⟩ := Yields.emitAll hthen (by decide)
      have ht : t.scope = s.scope := hstays.scope.trans hpasses.scope
      rw [hpasses.scope] at hwrote
      rw [hpasses.remaining, ← hstays.tokens.remaining]
      refine ⟨_, [s.scope.op .nil []] ++ [s.scope.op .ret []],
        .of_simple (.ret hkind (.none hsemicolon)) ?_ trivial ?_, ht⟩
      · rw [ht]
        exact .ret .none
      · simpa using hpasses.wrote.trans hwrote
    · obtain ⟨_, v, τ₅, τ₆, hexpr, hrest', rfl⟩ := Yields.bind hthen
      obtain ⟨e, is, htranslates⟩ := hexpr.expression
      obtain ⟨_, w, τ₇, τ₈, hclose, hemit, rfl⟩ := hrest'.bind
      obtain ⟨hreads, hcode, hwrote, hscope⟩ := htranslates.upTo hclose (by decide)
      obtain ⟨hwrote', hstays⟩ := hemit.emit (by decide)
      have ht : t.scope = s.scope := hstays.scope.trans hscope
      rw [← hstays.tokens.remaining] at hreads
      rw [hscope] at hwrote'
      refine ⟨_, is ++ [s.scope.op .ret []],
        .of_simple (.ret hkind (.some ?_ hreads)) ?_ trivial ?_, ht⟩
      · rwa [Session.kindOf_remaining]
      · rw [ht]
        exact .ret (.some (hcode.mono hwrote'.le))
      · simpa using hwrote.trans hwrote'

/-! ### Variables and classes -/

/-- The end of a declaration: a semicolon, and the variable gets its value. -/
theorem Yields.closeDeclaration {i : UInt8} {what : String}
    (h : (do
      CompileM.expect .semicolon what
      CompileM.defineVariable i : CompileM Unit).Yields s a τ t) :
    s.current.kind = .semicolon ∧ s.remaining = s.current :: t.remaining ∧
      (s.scope.depth = 0 ∧ Wrote s τ [s.scope.op .defineGlobal [i]] t ∧ t.scope = s.scope ∨
        s.scope.depth ≠ 0 ∧ Wrote s τ [] t ∧ t.scope = s.scope.define) := by
  obtain ⟨_, u, τ₁, τ₂, hexpect, hdefine, rfl⟩ := Yields.bind h
  obtain ⟨hclosing, rfl, hpasses⟩ := hexpect.expect_passes (by decide)
  obtain ⟨htokens, hcases⟩ := hdefine.defineVariable
  rw [hpasses.scope] at hcases
  refine ⟨hclosing, hpasses.remaining.trans (congrArg _ htokens.remaining.symm), ?_⟩
  rcases hcases with ⟨hdepth, hwrote, hscope⟩ | ⟨hdepth, hwrote, hscope⟩
  · refine Or.inl ⟨hdepth, ?_, hscope⟩
    simpa using hpasses.wrote.trans hwrote
  · refine Or.inr ⟨hdepth, ?_, hscope⟩
    simpa using hpasses.wrote.trans hwrote

/-- A variable declaration translates to its value, and to its binding if it is global. -/
theorem Yields.varDeclaration {budget : Nat}
    (h : (CompileM.varDeclaration budget).Yields s a τ t) :
    ∃ st is, ReadsVar s.remaining st t.remaining ∧
      StmtCode (World.of t) s.scope st is t.scope ∧ Wrote s τ is t := by
  obtain ⟨i, u, τ₁, τ₂, hname, hrest, rfl⟩ := Yields.bind h
  obtain ⟨hident, hwrote₁, -, hremaining, hplace⟩ := hname.parseVariable
  obtain ⟨equals, v, τ₃, τ₄, haccept, hthen, rfl⟩ := hrest.bind
  obtain ⟨rfl, hcases⟩ := haccept.accept_passes (by decide)
  -- The code of the value, and then what makes it the value of the variable.
  have hdeclared : ∀ {value : Option Expr} {is : List Item} {w : Session} {τ₅ τ₆ : List Event},
      ValueCode (World.of w) u.scope value is → Wrote u τ₅ is w → w.scope = u.scope →
        (w.scope.depth = 0 ∧ Wrote w τ₆ [w.scope.op .defineGlobal [i]] t ∧ t.scope = w.scope ∨
          w.scope.depth ≠ 0 ∧ Wrote w τ₆ [] t ∧ t.scope = w.scope.define) →
        ∃ is', StmtCode (World.of t) s.scope (.varDecl s.current.lexeme value) is' t.scope ∧
          Wrote s (τ₁ ++ (τ₅ ++ τ₆)) is' t := by
    intro value is w τ₅ τ₆ hvalue hwrote₂ hw hdefine
    rw [hw] at hdefine
    rcases hplace with ⟨hdepth, hscope, htext⟩ | ⟨hdepth, hscope, hroom⟩
    · rw [hscope] at hdefine hvalue
      obtain ⟨-, hwrote₃, hscope₃⟩ | ⟨hcontra, -, -⟩ := hdefine
      · rw [hscope₃]
        refine ⟨_, .varGlobal hdepth (htext.mono (hwrote₂.le.trans hwrote₃.le))
          (hvalue.mono hwrote₃.le), ?_⟩
        simpa using hwrote₁.trans (hwrote₂.trans hwrote₃)
      · exact absurd hdepth hcontra
    · rw [hscope] at hdefine hvalue
      obtain ⟨hcontra, -, -⟩ | ⟨-, hwrote₃, hscope₃⟩ := hdefine
      · exact absurd hcontra hdepth
      · rw [hscope₃]
        refine ⟨_, .varLocal hdepth hroom (hvalue.mono hwrote₃.le), ?_⟩
        simpa using hwrote₁.trans (hwrote₂.trans hwrote₃)
  rw [hremaining]
  rcases hcases with ⟨rfl, hequal, hpasses⟩ | ⟨rfl, -, rfl⟩
  · obtain ⟨_, w, τ₅, τ₆, hexpr, hclose, rfl⟩ := Yields.bind hthen
    obtain ⟨e, is, hreads, hcode, hwrote₂, hscope⟩ := hexpr.expression
    obtain ⟨hsemicolon, hremaining', hdefine⟩ := Yields.closeDeclaration hclose
    rw [hpasses.scope] at hcode hscope
    rw [hremaining'] at hreads
    obtain ⟨is', hcode', hwrote'⟩ := hdeclared (.some hcode)
      (by simpa using hpasses.wrote.trans hwrote₂) hscope hdefine
    rw [hpasses.remaining]
    exact ⟨_, is', .some hident hequal ⟨hreads, hsemicolon⟩, hcode', hwrote'⟩
  · obtain ⟨_, w, τ₅, τ₆, hemit, hclose, rfl⟩ := Yields.bind hthen
    obtain ⟨hwrote₂, hstays⟩ := hemit.emit (by decide)
    obtain ⟨hsemicolon, hremaining', hdefine⟩ := Yields.closeDeclaration hclose
    obtain ⟨is', hcode', hwrote'⟩ := hdeclared .none hwrote₂ hstays.scope hdefine
    rw [← hstays.tokens.remaining, hremaining']
    exact ⟨_, is', .none hident hsemicolon, hcode', hwrote'⟩

/-- A class declaration translates to the class and the binding of its name. -/
theorem Yields.classDeclaration (h : CompileM.classDeclaration.Yields s a τ t)
    (hkind : s.previous.kind = .classWord) :
    ∃ st is, TranslatesStmt .declaration (s.previous :: s.remaining) s τ st is t := by
  obtain ⟨_, u, τ₁, τ₂, hexpect, hrest, rfl⟩ := Yields.bind h
  obtain ⟨hname, rfl, hpasses₁⟩ := hexpect.expect_passes (by decide)
  obtain ⟨i, v, τ₃, τ₄, hconstant, hrest₁, rfl⟩ := hrest.bind
  obtain ⟨hwrote₁, hstays₁, htext⟩ := hconstant.nameConstant
  obtain ⟨_, w, τ₅, τ₆, hdeclare, hrest₂, rfl⟩ := hrest₁.bind
  obtain ⟨hwrote₂, htokens₂, hplace⟩ := hdeclare.declareVariable
  obtain ⟨_, x, τ₇, τ₈, hemit, hrest₃, rfl⟩ := hrest₂.bind
  obtain ⟨hwrote₃, hstays₃⟩ := hemit.emit (by decide)
  obtain ⟨_, y, τ₉, τ₁₀, hdefine, hrest₄, rfl⟩ := hrest₃.bind
  obtain ⟨htokens₄, hdefined⟩ := hdefine.defineVariable
  obtain ⟨_, z, τ₁₁, τ₁₂, hopen, hclose, rfl⟩ := hrest₄.bind
  obtain ⟨hopening, rfl, hpasses₅⟩ := hopen.expect_passes (by decide)
  obtain ⟨hclosing, rfl, hpasses₆⟩ := hclose.expect_passes (by decide)
  have hv : v.scope = s.scope := hstays₁.scope.trans hpasses₁.scope
  have hname' : v.previous.lexeme = s.current.lexeme := by
    rw [hstays₁.tokens.previous, hpasses₁.previous]
  rw [hpasses₁.previous] at htext
  rw [hv, hname'] at hplace
  rw [hstays₃.scope] at hdefined
  have hbefore := (hpasses₁.wrote.trans hwrote₁).trans (hwrote₂.trans hwrote₃)
  have hafter := hpasses₅.wrote.trans hpasses₆.wrote
  have ht : t.scope = y.scope := hpasses₆.scope.trans hpasses₅.scope
  rw [hpasses₁.remaining, ← hstays₁.tokens.remaining, ← htokens₂.remaining,
    ← hstays₃.tokens.remaining, ← htokens₄.remaining, hpasses₅.remaining, hpasses₆.remaining]
  have hreads : ReadsStmt .declaration
      (s.previous :: s.current :: y.current :: z.current :: t.remaining)
      (.classDecl s.current.lexeme) t.remaining :=
    .classDecl hkind hname hopening hclosing
  rcases hplace with ⟨hdepth, hscope⟩ | ⟨hdepth, hscope, hroom⟩
  · rw [hscope] at hdefined hbefore
    obtain ⟨-, hwrote₄, hscope₄⟩ | ⟨hcontra, -, -⟩ := hdefined
    · have hle := (hwrote₂.le.trans hwrote₃.le).trans (hwrote₄.le.trans hafter.le)
      refine ⟨_, [s.scope.op .newClass [i], s.scope.op .defineGlobal [i]],
        .of_simple hreads ?_ trivial ?_⟩
      · rw [ht, hscope₄]
        exact .classGlobal hdepth (htext.mono hle)
      · simpa using (hbefore.trans hwrote₄).trans hafter
    · exact absurd hdepth hcontra
  · rw [hscope] at hdefined hbefore
    obtain ⟨hcontra, -, -⟩ | ⟨-, hwrote₄, hscope₄⟩ := hdefined
    · exact absurd hcontra hdepth
    · have hle := (hwrote₂.le.trans hwrote₃.le).trans (hwrote₄.le.trans hafter.le)
      refine ⟨_, [(s.scope.declare s.current.lexeme).op .newClass [i]],
        .of_simple hreads ?_ trivial ?_⟩
      · rw [ht, hscope₄]
        exact .classLocal hdepth hroom (htext.mono hle)
      · simpa using (hbefore.trans hwrote₄).trans hafter

/-! ### Branches and loops -/

/-- The statements inside a statement are compiled as they should be. They declare nothing in
the scope around them. -/
def TranslatingStatement (m : CompileM Unit) : Prop :=
  ∀ {s t : Session} {τ : List Event} {a : Unit}, m.Yields s a τ t → s.scope.Settled →
    ∃ st is, TranslatesStmt .statement s.remaining s τ st is t ∧ s.scope.Same t.scope

/-- The declarations inside a statement are compiled as they should be. -/
def TranslatingDeclaration (m : CompileM Unit) : Prop :=
  ∀ {s t : Session} {τ : List Event} {a : Unit}, m.Yields s a τ t → s.scope.Settled →
    ∃ st is, TranslatesStmt .declaration s.remaining s τ st is t

variable {statement declaration : CompileM Unit}

/-- From `s` to `u` the condition of a branch and its first side were compiled. The way around that
side leads behind it, and the jump over the other side is still open. -/
structure FirstSide (s : Session) (τ : List Event) (c : Expr) (yes : Stmt) (is b : List Item)
    (elseJump : Nat) (u : Session) : Prop where
  condition : ExprCode (World.of u) s.scope [c] is
  code : StmtCode (World.of u) s.scope yes b u.scope
  closes : Closes (World.of u) s.scope yes b u.scope
  same : s.scope.Same u.scope
  fits : Item.Fits (s.scope.op .pop [] :: b ++
    [u.scope.op .jump (Chunk.bytesOf16 Session.maxJump)])
  wrote : Wrote s τ (is ++ s.scope.jump .jumpIfFalse (s.scope.op .pop [] :: b ++
      [u.scope.op .jump (Chunk.bytesOf16 Session.maxJump)]) :: s.scope.op .pop [] :: b ++
    [u.scope.op .jump (Chunk.bytesOf16 Session.maxJump), u.scope.op .pop []]) u
  offset : elseJump = s.chunk.size + Item.size (is ++ s.scope.jump .jumpIfFalse
    (s.scope.op .pop [] :: b ++ [u.scope.op .jump (Chunk.bytesOf16 Session.maxJump)]) ::
      s.scope.op .pop [] :: b) + 1

/-- Behind the other side the jump over it is led to its end, and the branch is there. -/
theorem FirstSide.secondSide {v : Session} {c : Expr} {yes no : Stmt} {is b d : List Item}
    {elseJump : Nat} {τ₁ τ₂ τ₃ : List Event} (h : FirstSide s τ₁ c yes is b elseJump u)
    (hcode : StmtCode (World.of v) u.scope no d v.scope)
    (hcloses : Closes (World.of v) u.scope no d v.scope) (hwrote : Wrote u τ₂ d v)
    (hsame : u.scope.Same v.scope) (hpatch : (CompileM.patchJump elseJump).Yields v a τ₃ t) :
    v.Stays t ∧ ∃ js, StmtCode (World.of t) s.scope (.branch c yes no) js t.scope ∧
      Closes (World.of t) s.scope (.branch c yes no) js t.scope ∧
      Wrote s (τ₁ ++ (τ₂ ++ τ₃)) js t := by
  have hall : Wrote s (τ₁ ++ τ₂) (is ++ s.scope.jump .jumpIfFalse (s.scope.op .pop [] :: b ++
        [u.scope.op .jump (Chunk.bytesOf16 Session.maxJump)]) :: s.scope.op .pop [] :: b ++
      u.scope.op .jump (Chunk.bytesOf16 Session.maxJump) :: (u.scope.op .pop [] :: d)) v := by
    simpa using h.wrote.trans hwrote
  obtain ⟨hwrote', hfits, hstays, hle⟩ := hall.patch hpatch (by decide) h.offset
  have hjump : s.scope.jump .jumpIfFalse (s.scope.op .pop [] :: b ++
      [u.scope.op .jump (Chunk.bytesOf16 Session.maxJump)]) =
      s.scope.jump .jumpIfFalse (s.scope.op .pop [] :: b ++
        [u.scope.jump .jump (u.scope.op .pop [] :: d)]) :=
    Scope.jump_congr (by simp)
  rw [hjump, List.append_assoc τ₁] at hwrote'
  have hfitsYes : Item.Fits (s.scope.op .pop [] :: b ++
      [u.scope.jump .jump (u.scope.op .pop [] :: d)]) := by
    simpa [Item.Fits] using h.fits
  have hle' := hwrote.le.trans hle
  refine ⟨hstays, _, ?_, ?_, hwrote'⟩ <;> rw [hstays.scope]
  · exact .branch (h.condition.mono hle') (h.code.mono hle') (hcode.mono hle) h.same hsame
      hfitsYes hfits
  · exact .branch (h.condition.mono hle') (h.closes.mono hle') (hcloses.mono hle)

/-- A branch translates to two jumps, around each side one. -/
theorem Yields.ifStatement (hstatement : TranslatingStatement statement) {budget : Nat}
    (h : (CompileM.ifStatement statement budget).Yields s a τ t) (hs : s.scope.Settled)
    (hkind : s.previous.kind = .ifWord) :
    ∃ st is, TranslatesStmt .statement (s.previous :: s.remaining) s τ st is t ∧
      s.scope.Same t.scope := by
  obtain ⟨_, s₁, τ₁, τ₂, hexpect, hrest₁, rfl⟩ := Yields.bind h
  obtain ⟨hopening, rfl, hpasses₁⟩ := hexpect.expect_passes (by decide)
  obtain ⟨_, s₂, τ₃, τ₄, hexpr, hrest₂, rfl⟩ := hrest₁.bind
  obtain ⟨c, is, htranslates⟩ := hexpr.expression
  obtain ⟨_, s₃, τ₅, τ₆, hclose, hrest₃, rfl⟩ := hrest₂.bind
  obtain ⟨hreads₃, hcode₃, hwrote₃, hscope₃⟩ := htranslates.upTo hclose (by decide)
  obtain ⟨thenJump, s₄, τ₇, τ₈, hjump, hrest₄, rfl⟩ := hrest₃.bind
  obtain ⟨hoffset₄, hwrote₄, hstays₄⟩ := hjump.emitJump (by decide)
  obtain ⟨_, s₅, τ₉, τ₁₀, hpop, hrest₅, rfl⟩ := hrest₄.bind
  obtain ⟨hwrote₅, hstays₅⟩ := hpop.emit (by decide)
  obtain ⟨_, s₆, τ₁₁, τ₁₂, hyes, hrest₆, rfl⟩ := hrest₅.bind
  have hs₅ : s₅.scope = s₁.scope := by
    rw [hstays₅.scope, hstays₄.scope, hscope₃]
  have hs₁ : s₁.scope.Settled := hpasses₁.scope ▸ hs
  obtain ⟨yes, b, ⟨hreads₆, hcode₆, hcloses₆, hwrote₆⟩, hsame₆⟩ := hstatement hyes (hs₅ ▸ hs₁)
  obtain ⟨elseJump, s₇, τ₁₃, τ₁₄, hjump', hrest₇, rfl⟩ := hrest₆.bind
  obtain ⟨hoffset₇, hwrote₇, hstays₇⟩ := hjump'.emitJump (by decide)
  obtain ⟨_, s₈, τ₁₅, τ₁₆, hpatch, hrest₈, rfl⟩ := hrest₇.bind
  rw [hscope₃] at hwrote₄
  rw [hstays₄.scope, hscope₃] at hwrote₅
  rw [hs₅] at hcode₆ hcloses₆ hsame₆
  have hthen : Wrote s₃ (τ₇ ++ (τ₉ ++ (τ₁₁ ++ τ₁₃)))
      ([] ++ s₁.scope.op .jumpIfFalse (Chunk.bytesOf16 Session.maxJump) ::
        (s₁.scope.op .pop [] :: b ++
          [s₆.scope.op .jump (Chunk.bytesOf16 Session.maxJump)])) s₇ :=
    hwrote₄.trans (hwrote₅.trans (hwrote₆.trans hwrote₇))
  obtain ⟨hwrote₈, hfits₈, hstays₈, hle₈⟩ := hthen.patch hpatch (by decide) hoffset₄
  obtain ⟨_, s₉, τ₁₇, τ₁₈, hpop', hrest₉, rfl⟩ := hrest₈.bind
  obtain ⟨hwrote₉, hstays₉⟩ := hpop'.emit (by decide)
  obtain ⟨other, s₁₀, τ₁₉, τ₂₀, haccept, hrest₁₀, rfl⟩ := hrest₉.bind
  obtain ⟨rfl, hcases⟩ := haccept.accept_passes (by decide)
  have hs₈ : s₈.scope = s₆.scope := hstays₈.scope.trans hstays₇.scope
  have hs₉ : s₉.scope = s₆.scope := hstays₉.scope.trans hs₈
  rw [hs₈, ← hs₉] at hwrote₉
  rw [← hs₉] at hwrote₈ hfits₈ hcode₆ hcloses₆ hsame₆
  have hle₉ := (hwrote₇.le.trans hle₈).trans hwrote₉.le
  have hfirst : FirstSide s₁ (τ₃ ++ τ₅ ++ (τ₇ ++ (τ₉ ++ (τ₁₁ ++ τ₁₃)) ++ τ₁₅ ++ τ₁₇)) c yes is b
      elseJump s₉ :=
    { condition := hcode₃.mono (hwrote₈.trans hwrote₉).le
      code := hcode₆.mono hle₉
      closes := hcloses₆.mono hle₉
      same := hsame₆
      fits := hfits₈
      wrote := by simpa using hwrote₃.trans (hwrote₈.trans hwrote₉)
      offset := by
        rw [hoffset₇, (hwrote₃.trans (hwrote₄.trans (hwrote₅.trans hwrote₆))).size]
        simp [Nat.add_assoc] }
  have hremaining : s₉.remaining = s₆.remaining := by
    rw [hstays₉.tokens.remaining, hstays₈.tokens.remaining, hstays₇.tokens.remaining]
  rw [hstays₅.tokens.remaining, hstays₄.tokens.remaining] at hreads₆
  rw [hpasses₁.remaining]
  rcases hcases with ⟨rfl, helse, hpasses₁₀⟩ | ⟨rfl, hno, rfl⟩
  · obtain ⟨_, s₁₁, τ₂₁, τ₂₂, hother, hpatch', rfl⟩ := Yields.bind hrest₁₀
    obtain ⟨no, d, ⟨hreads₁₁, hcode₁₁, hcloses₁₁, hwrote₁₁⟩, hsame₁₁⟩ :=
      hstatement hother (hpasses₁₀.scope ▸ hs₁.of_same hfirst.same)
    rw [hpasses₁₀.scope] at hcode₁₁ hcloses₁₁ hsame₁₁
    obtain ⟨hstays, js, hcode, hcloses, hwrote⟩ := hfirst.secondSide hcode₁₁ hcloses₁₁
      (hpasses₁₀.wrote.trans hwrote₁₁) hsame₁₁ hpatch'
    rw [hpasses₁.scope] at hcode hcloses
    rw [← hremaining, hpasses₁₀.remaining] at hreads₆
    rw [← hstays.tokens.remaining] at hreads₁₁
    refine ⟨_, js, ⟨.branchElse hkind hopening hreads₃ hreads₆ helse hreads₁₁, hcode, hcloses,
      by simpa using hpasses₁.wrote.trans hwrote⟩, ?_⟩
    rw [hstays.scope, ← hpasses₁.scope]
    exact hfirst.same.trans hsame₁₁
  · obtain ⟨hstays, js, hcode, hcloses, hwrote⟩ := hfirst.secondSide (.skip _)
      ((StmtCode.skip _).closes trivial) (.refl hpop'.after.orderly) (.refl _) hrest₁₀
    rw [hpasses₁.scope] at hcode hcloses
    rw [← hremaining, ← hstays.tokens.remaining] at hreads₆
    refine ⟨_, js, ⟨.branch hkind hopening hreads₃ hreads₆ ?_, hcode, hcloses,
      by simpa using hpasses₁.wrote.trans hwrote⟩, ?_⟩
    · rwa [hstays.tokens.remaining, Session.kindOf_remaining]
    · rw [hstays.scope, ← hpasses₁.scope]
      exact hfirst.same

/-- The head of a loop before its exit is known: the condition, and the jump on to what follows
the loop. -/
def openHead (Γ : Scope) : Option (List Item) → List Item
  | none => []
  | some is => is ++ [Γ.op .jumpIfFalse (Chunk.bytesOf16 Session.maxJump), Γ.op .pop []]

/-- The head of a loop takes the room that its parts say. -/
theorem size_openHead (p : LoopParts) :
    Item.size (openHead p.before p.condition) = p.headSize := by
  rw [LoopParts.headSize]
  cases p.condition with
  | none => rfl
  | some is => simp [openHead]

/-- The jump out of a loop, if it has one, is led here, and the condition is popped. -/
def LeavesLoop (exit : Option Nat) (s : Session) (τ : List Event) (t : Session) : Prop :=
  (exit = none ∧ τ = [] ∧ s = t) ∨
    ∃ (offset : Nat) (u : Session) (τ₁ τ₂ : List Event) (a b : Unit), exit = some offset ∧
      (patchJump offset).Yields s a τ₁ u ∧ (emit .pop []).Yields u b τ₂ t ∧ τ = τ₁ ++ τ₂

/-- The end of a loop: back to where it goes on, and out of it when there is a condition. -/
theorem closeLoop {p : LoopParts} {τ₁ τ₂ τ₃ τ₄ : List Event} {s₁ s₂ s₃ : Session} {b : Unit}
    {target : Nat} {exit : Option Nat} (hbefore : Wrote s τ₁ (openHead p.before p.condition ++ p.stepPart) s₁)
    (hbody : Wrote s₁ τ₂ p.body s₂) (hscope : s₂.scope = p.after)
    (hloop : (emitLoop target).Yields s₂ b τ₃ s₃)
    (hdistance : s₂.chunk.size + 3 - target = p.backDistance)
    (hexit : exit = p.condition.map fun is => s.chunk.size + Item.size is + 1)
    (hleaves : LeavesLoop exit s₃ τ₄ t) :
    Wrote s (τ₁ ++ τ₂ ++ (τ₃ ++ τ₄)) p.items t ∧ s₂.Stays t ∧ (World.of s₂).Le (World.of t) ∧
      p.backDistance ≤ Session.maxJump ∧
      ∀ is, p.condition = some is → Item.Fits (p.before.op .pop [] :: p.inner) := by
  obtain ⟨hback, hwrote₃, hstays₃⟩ := hloop.emitLoop
  rw [hdistance] at hback hwrote₃
  rw [hscope] at hwrote₃
  rcases hleaves with ⟨hnone, rfl, rfl⟩ | ⟨offset, s₄, τ₅, τ₆, _, _, hsome, hpatch, hpop, rfl⟩
  · have hcondition : p.condition = none := Option.map_eq_none_iff.mp (hexit.symm.trans hnone)
    rw [hcondition] at hbefore
    refine ⟨?_, hstays₃, hwrote₃.le, hback, by simp [hcondition]⟩
    rw [LoopParts.items, hcondition]
    simpa [openHead, LoopParts.inner] using (hbefore.trans hbody).trans hwrote₃
  · obtain ⟨is, hcondition, hoffset⟩ := Option.map_eq_some_iff.mp (hexit.symm.trans hsome)
    rw [hcondition] at hbefore
    have hall : Wrote s (τ₁ ++ τ₂ ++ τ₃) (is ++
        p.before.op .jumpIfFalse (Chunk.bytesOf16 Session.maxJump) ::
          (p.before.op .pop [] :: p.inner)) s₃ := by
      simpa [openHead, LoopParts.inner] using (hbefore.trans hbody).trans hwrote₃
    obtain ⟨hwrote₄, hfits, hstays₄, hle⟩ := hall.patch hpatch (by decide) hoffset.symm
    obtain ⟨hwrote₅, hstays₅⟩ := hpop.emit (by decide)
    rw [hstays₄.scope, hstays₃.scope, hscope] at hwrote₅
    refine ⟨?_, (hstays₃.trans hstays₄).trans hstays₅,
      (hwrote₃.le.trans hle).trans hwrote₅.le, hback, fun _ _ => hfits⟩
    rw [LoopParts.items, hcondition]
    simpa using hwrote₄.trans hwrote₅

/-- A while loop translates to its parts, without a step. -/
theorem Yields.whileStatement (hstatement : TranslatingStatement statement) {budget : Nat}
    (h : (CompileM.whileStatement statement budget).Yields s a τ t) (hs : s.scope.Settled)
    (hkind : s.previous.kind = .whileWord) :
    ∃ st is, TranslatesStmt .statement (s.previous :: s.remaining) s τ st is t ∧
      s.scope.Same t.scope := by
  obtain ⟨start, s₀, τ₀, τ₁, hsize, hrest, rfl⟩ := Yields.bind h
  obtain ⟨rfl, rfl, rfl⟩ := hsize.codeSize
  obtain ⟨_, s₁, τ₁, τ₂, hexpect, hrest₁, rfl⟩ := hrest.bind
  obtain ⟨hopening, rfl, hpasses₁⟩ := hexpect.expect_passes (by decide)
  obtain ⟨_, s₂, τ₃, τ₄, hexpr, hrest₂, rfl⟩ := hrest₁.bind
  obtain ⟨c, is, htranslates⟩ := hexpr.expression
  obtain ⟨_, s₃, τ₅, τ₆, hclose, hrest₃, rfl⟩ := hrest₂.bind
  obtain ⟨hreads₃, hcode₃, hwrote₃, hscope₃⟩ := htranslates.upTo hclose (by decide)
  obtain ⟨exitJump, s₄, τ₇, τ₈, hjump, hrest₄, rfl⟩ := hrest₃.bind
  obtain ⟨hoffset₄, hwrote₄, hstays₄⟩ := hjump.emitJump (by decide)
  obtain ⟨_, s₅, τ₉, τ₁₀, hpop, hrest₅, rfl⟩ := hrest₄.bind
  obtain ⟨hwrote₅, hstays₅⟩ := hpop.emit (by decide)
  obtain ⟨_, s₆, τ₁₁, τ₁₂, hbody, hrest₆, rfl⟩ := hrest₅.bind
  have hs₅ : s₅.scope = s.scope := by
    rw [hstays₅.scope, hstays₄.scope, hscope₃, hpasses₁.scope]
  obtain ⟨body, b, ⟨hreads₆, hcode₆, hcloses₆, hwrote₆⟩, hsame₆⟩ :=
    hstatement hbody (hs₅ ▸ hs)
  obtain ⟨_, s₇, τ₁₃, τ₁₄, hloop, hrest₇, rfl⟩ := hrest₆.bind
  rw [hpasses₁.scope] at hscope₃ hcode₃
  rw [hscope₃] at hwrote₄
  rw [hstays₄.scope, hscope₃] at hwrote₅
  rw [hs₅] at hcode₆ hcloses₆ hsame₆
  rw [hstays₅.tokens.remaining, hstays₄.tokens.remaining] at hreads₆
  let p : LoopParts := ⟨s.scope, s₆.scope, some is, none, b⟩
  have hhead : Wrote s (τ₃ ++ τ₅ ++ (τ₇ ++ τ₉)) (openHead p.before p.condition ++ p.stepPart)
      s₅ := by
    simpa [p, openHead, LoopParts.stepPart] using
      (hpasses₁.wrote.trans hwrote₃).trans (hwrote₄.trans hwrote₅)
  have hdistance : s₆.chunk.size + 3 - s.chunk.size = p.backDistance := by
    rw [hwrote₆.size, hhead.size, Item.size_append, size_openHead]
    simp only [p, LoopParts.stepPart, LoopParts.backDistance, Item.size_nil]
    omega
  have hoffset : exitJump = s.chunk.size + Item.size is + 1 := by
    rw [hoffset₄, (hpasses₁.wrote.trans hwrote₃).size, List.nil_append]
  obtain ⟨_, s₈, τ₁₅, τ₁₆, hpatch, hpop', rfl⟩ := hrest₇.bind
  obtain ⟨hwrote, hstays, hle, hback, hexit⟩ := closeLoop (p := p) hhead hwrote₆ rfl hloop
    hdistance (congrArg some hoffset) (Or.inr ⟨_, _, _, _, _, _, rfl, hpatch, hpop', rfl⟩)
  have hsame : s.scope.Same t.scope := by rwa [hstays.scope]
  have hfits : p.Fits := ⟨hexit, by simp [p], by simp [p], hback⟩
  rw [← hstays.tokens.remaining] at hreads₆
  rw [hpasses₁.remaining]
  have hcondition := hcode₃.mono ((hwrote₄.trans hwrote₅).le.trans (hwrote₆.le.trans hle))
  refine ⟨_, p.items, ⟨.whileLoop hkind hopening hreads₃ hreads₆, ?_, ?_, ?_⟩, hsame⟩
  · rw [hstays.scope]
    exact .whileLoop hcondition (hcode₆.mono hle) hsame₆ hfits
  · rw [hstays.scope]
    exact .whileLoop hcondition (hcloses₆.mono hle)
  · simpa using hwrote

/-- The first clause of a for loop translates to a statement, or to nothing. -/
theorem Yields.forInitializer {budget : Nat}
    (h : (CompileM.forInitializer budget).Yields s a τ t) :
    ∃ st is, TranslatesStmt .forFirst s.remaining s τ st is t := by
  obtain ⟨b, u, τ₁, τ₂, haccept, hrest, rfl⟩ := Yields.bind h
  obtain ⟨rfl, ⟨rfl, hsemicolon, hpasses⟩ | ⟨rfl, -, rfl⟩⟩ := haccept.accept_passes (by decide)
  · obtain ⟨-, rfl, rfl⟩ := Yields.pure hrest
    rw [hpasses.remaining]
    refine ⟨.skip, [], .of_simple (.forNone hsemicolon) ?_ trivial hpasses.wrote⟩
    rw [hpasses.scope]
    exact .skip _
  · obtain ⟨b, u, τ₁, τ₂, haccept, hrest', rfl⟩ := Yields.bind hrest
    obtain ⟨rfl, ⟨rfl, hvar, hpasses⟩ | ⟨rfl, -, rfl⟩⟩ := haccept.accept_passes (by decide)
    · obtain ⟨st, is, hreads, hcode, hwrote⟩ := Yields.varDeclaration hrest'
      rw [hpasses.scope] at hcode
      rw [hpasses.remaining]
      refine ⟨st, is, .of_simple (.forVar hvar hreads) hcode hreads.simple ?_⟩
      simpa using hpasses.wrote.trans hwrote
    · obtain ⟨e, is, hreads, hcode, hwrote, -⟩ := Yields.expressionStatement hrest'
      exact ⟨_, is, .of_simple (.forExpression hreads) hcode trivial hwrote⟩

/-- The second clause translates to the head of the loop, whose jump is left open. -/
theorem Yields.forCondition {budget : Nat} {exit : Option Nat}
    (h : (CompileM.forCondition budget).Yields s exit τ t) :
    ∃ c head, ReadsClause .semicolon s.remaining c t.remaining ∧
      OptionCode (World.of t) s.scope c head ∧ Wrote s τ (openHead s.scope head) t ∧
      t.scope = s.scope ∧ exit = head.map fun is => s.chunk.size + Item.size is + 1 := by
  obtain ⟨b, u, τ₁, τ₂, haccept, hrest, rfl⟩ := Yields.bind h
  obtain ⟨rfl, ⟨rfl, hsemicolon, hpasses⟩ | ⟨rfl, hno, rfl⟩⟩ :=
    haccept.accept_passes (by decide)
  · obtain ⟨rfl, rfl, rfl⟩ := Yields.pure hrest
    rw [hpasses.remaining]
    exact ⟨none, none, .none hsemicolon, .none, hpasses.wrote, hpasses.scope, rfl⟩
  · obtain ⟨_, s₁, τ₃, τ₄, hexpr, hrest₁, rfl⟩ := Yields.bind hrest
    obtain ⟨c, is, htranslates⟩ := hexpr.expression
    obtain ⟨_, s₂, τ₅, τ₆, hclose, hrest₂, rfl⟩ := hrest₁.bind
    obtain ⟨hreads, hcode, hwrote, hscope⟩ := htranslates.upTo hclose (by decide)
    obtain ⟨exitJump, s₃, τ₇, τ₈, hjump, hrest₃, rfl⟩ := hrest₂.bind
    obtain ⟨rfl, hwrote₃, hstays₃⟩ := hjump.emitJump (by decide)
    obtain ⟨_, s₄, τ₉, τ₁₀, hpop, hpure, rfl⟩ := hrest₃.bind
    obtain ⟨hwrote₄, hstays₄⟩ := hpop.emit (by decide)
    obtain ⟨rfl, rfl, rfl⟩ := hpure.pure
    rw [hstays₃.scope, hscope] at hwrote₄
    rw [hscope] at hwrote₃
    rw [← hstays₃.tokens.remaining, ← hstays₄.tokens.remaining] at hreads
    refine ⟨some c, some is, .some ?_ hreads,
      .some (hcode.mono (hwrote₃.le.trans hwrote₄.le)), ?_,
      (hstays₄.scope.trans hstays₃.scope).trans hscope, ?_⟩
    · rwa [Session.kindOf_remaining]
    · simpa [openHead] using hwrote.trans (hwrote₃.trans hwrote₄)
    · rw [hwrote.size]
      rfl

/-- The last clause translates to the step, between two jumps. -/
theorem Yields.forIncrement {budget start target : Nat} {p : LoopParts}
    (h : (CompileM.forIncrement budget start).Yields s target τ t) (hp : p.before = s.scope)
    (hstart : s.chunk.size = start + p.headSize) :
    ∃ step tail, ReadsClause .rightParen s.remaining step t.remaining ∧
      OptionCode (World.of t) s.scope step tail ∧
      Wrote s τ { p with step := tail }.stepPart t ∧ t.scope = s.scope ∧
      (∀ after body, t.chunk.size + Item.size body + 3 - target =
        { p with after := after, step := tail, body := body }.backDistance) ∧
      ∀ is, tail = some is → Item.Fits (p.stepCode is) ∧
        p.headSize + 3 + Item.size is + 4 ≤ Session.maxJump := by
  obtain ⟨b, u, τ₁, τ₂, haccept, hrest, rfl⟩ := Yields.bind h
  obtain ⟨rfl, ⟨rfl, hclosing, hpasses⟩ | ⟨rfl, hno, rfl⟩⟩ :=
    haccept.accept_passes (by decide)
  · obtain ⟨rfl, rfl, rfl⟩ := Yields.pure hrest
    rw [hpasses.remaining]
    refine ⟨none, none, .none hclosing, .none, hpasses.wrote, hpasses.scope,
      fun after body => ?_, by simp⟩
    rw [hpasses.wrote.size, hstart, Item.size_nil]
    show _ = p.headSize + Item.size body + 3
    omega
  · obtain ⟨bodyJump, s₁, τ₃, τ₄, hjump, hrest₁, rfl⟩ := Yields.bind hrest
    obtain ⟨hoffset, hwrote₁, hstays₁⟩ := hjump.emitJump (by decide)
    obtain ⟨increment, s₁', τ₅, τ₆, hsize, hrest₂, rfl⟩ := hrest₁.bind
    obtain ⟨rfl, rfl, rfl⟩ := hsize.codeSize
    obtain ⟨_, s₂, τ₇, τ₈, hexpr, hrest₃, rfl⟩ := hrest₂.bind
    obtain ⟨e, is, hreads, hcode, hwrote₂, hscope₂⟩ := hexpr.expression
    obtain ⟨_, s₃, τ₉, τ₁₀, hpop, hrest₄, rfl⟩ := hrest₃.bind
    obtain ⟨hwrote₃, hstays₃⟩ := hpop.emit (by decide)
    obtain ⟨_, s₄, τ₁₁, τ₁₂, hclose, hrest₅, rfl⟩ := hrest₄.bind
    obtain ⟨hclosing, rfl, hpasses₄⟩ := hclose.expect_passes (by decide)
    obtain ⟨_, s₅, τ₁₃, τ₁₄, hloop, hrest₆, rfl⟩ := hrest₅.bind
    obtain ⟨hback, hwrote₅, hstays₅⟩ := hloop.emitLoop
    obtain ⟨_, s₆, τ₁₅, τ₁₆, hpatch, hpure, rfl⟩ := hrest₆.bind
    obtain ⟨rfl, rfl, rfl⟩ := hpure.pure
    rw [hstays₁.scope] at hcode hscope₂
    rw [hscope₂] at hwrote₃
    have hs₄ : s₄.scope = s.scope := (hpasses₄.scope.trans hstays₃.scope).trans hscope₂
    have hwrote₄ := (hwrote₁.trans (hwrote₂.trans hwrote₃)).trans hpasses₄.wrote
    have hdistance : s₄.chunk.size + 3 - start = p.headSize + 3 + Item.size is + 4 := by
      rw [hwrote₄.size, hstart]
      simp
      omega
    rw [hdistance] at hback hwrote₅
    rw [hs₄, ← hp] at hwrote₅
    have hall : Wrote s (τ₃ ++ (τ₇ ++ τ₉) ++ τ₁₃)
        ([] ++ p.before.op .jump (Chunk.bytesOf16 Session.maxJump) :: p.stepCode is) s₅ := by
      rw [LoopParts.stepCode]
      simpa [hp] using hwrote₄.trans hwrote₅
    obtain ⟨hwrote₆, hfits, hstays₆, hle⟩ := hall.patch hpatch (by decide) hoffset
    rw [hstays₁.tokens.remaining, ← hstays₃.tokens.remaining, hpasses₄.remaining,
      ← hstays₅.tokens.remaining, ← hstays₆.tokens.remaining] at hreads
    have hle₂ := hwrote₃.le.trans (hpasses₄.wrote.le.trans (hwrote₅.le.trans hle))
    refine ⟨some e, some is, .some ?_ ⟨hreads, hclosing⟩, .some (hcode.mono hle₂), ?_,
      (hstays₆.scope.trans hstays₅.scope).trans hs₄, fun after body => ?_, ?_⟩
    · rwa [Session.kindOf_remaining]
    · have hstep : { p with step := some is }.stepPart =
          p.before.jump .jump (p.stepCode is) :: p.stepCode is := rfl
      rw [hstep]
      simpa using hwrote₆
    · rw [hwrote₆.size, hwrote₁.size]
      simp only [LoopParts.backDistance, LoopParts.stepCode, List.nil_append,
        Scope.size_jump_cons, Scope.size_op_cons, Scope.size_back_cons, Item.size_append,
        Item.size_nil, Scope.length_bytesOf16, List.length_nil]
      omega
    · rintro is' ⟨⟩
      exact ⟨hfits, hback⟩

/-- A for loop translates to its parts, in a scope of its own. -/
theorem Yields.forStatement (hstatement : TranslatingStatement statement) {budget : Nat}
    (h : (CompileM.forStatement statement budget).Yields s a τ t) (hs : s.scope.Settled)
    (hkind : s.previous.kind = .forWord) :
    ∃ st is, TranslatesStmt .statement (s.previous :: s.remaining) s τ st is t ∧
      s.scope.Same t.scope := by
  obtain ⟨_, s₁, τ₁, τ₂, hbegin, hrest₁, rfl⟩ := Yields.bind h
  obtain ⟨hwrote₁, hscope₁, htokens₁⟩ := hbegin.beginScope
  obtain ⟨_, s₂, τ₃, τ₄, hexpect, hrest₂, rfl⟩ := hrest₁.bind
  obtain ⟨hopening, rfl, hpasses₂⟩ := hexpect.expect_passes (by decide)
  obtain ⟨_, s₃, τ₅, τ₆, hfirst, hrest₃, rfl⟩ := hrest₂.bind
  obtain ⟨first, a₁, hreads₃, hcode₃, hcloses₃, hwrote₃⟩ := hfirst.forInitializer
  obtain ⟨start, s₃', τ₇, τ₈, hsize, hrest₄, rfl⟩ := hrest₃.bind
  obtain ⟨rfl, rfl, rfl⟩ := hsize.codeSize
  obtain ⟨exit, s₄, τ₉, τ₁₀, hcondition, hrest₅, rfl⟩ := hrest₄.bind
  obtain ⟨c, head, hreads₄, hcode₄, hwrote₄, hscope₄, hexit⟩ := hcondition.forCondition
  obtain ⟨target, s₅, τ₁₁, τ₁₂, hincrement, hrest₆, rfl⟩ := hrest₅.bind
  have hstart : s₄.chunk.size = s₃.chunk.size +
      (LoopParts.mk s₃.scope s₃.scope head none []).headSize := by
    rw [hwrote₄.size, ← size_openHead]
  obtain ⟨step, tail, hreads₅, hcode₅, hwrote₅, hscope₅, hdistance, hfits₅⟩ :=
    hincrement.forIncrement hscope₄.symm hstart
  obtain ⟨_, s₆, τ₁₃, τ₁₄, hbody, hrest₇, rfl⟩ := hrest₆.bind
  obtain ⟨_, s₇, τ₁₅, τ₁₆, hloop, hrest₈, rfl⟩ := hrest₇.bind
  have hleaves : ∃ (s₈ : Session) (τ₁₇ τ₁₈ : List Event), LeavesLoop exit s₇ τ₁₇ s₈ ∧
      CompileM.endScope.Yields s₈ a τ₁₈ t ∧ τ₁₆ = τ₁₇ ++ τ₁₈ := by
    cases exit with
    | none => exact ⟨s₇, [], τ₁₆, Or.inl ⟨rfl, rfl, rfl⟩, hrest₈, rfl⟩
    | some offset =>
        obtain ⟨_, s₈, τ₁₇, τ₁₈, hpatch, hrest₉, rfl⟩ := Yields.bind hrest₈
        obtain ⟨_, s₉, τ₁₉, τ₂₀, hpop, hend, rfl⟩ := hrest₉.bind
        exact ⟨s₉, τ₁₇ ++ τ₁₉, τ₂₀, Or.inr ⟨_, _, _, _, _, _, rfl, hpatch, hpop, rfl⟩, hend,
          (List.append_assoc ..).symm⟩
  obtain ⟨s₈, τ₁₇, τ₁₈, hleaves, hend, rfl⟩ := hleaves
  rw [hpasses₂.scope, hscope₁] at hcode₃ hcloses₃
  have hextends := hcode₃.extends hs.enter
  have hs₅ : s₅.scope = s₃.scope := hscope₅.trans hscope₄
  obtain ⟨body, b, ⟨hreads₆, hcode₆, hcloses₆, hwrote₆⟩, hsame₆⟩ :=
    hstatement hbody (hs₅ ▸ hextends.settled hs.enter)
  rw [hs₅] at hcode₆ hcloses₆ hsame₆
  rw [hscope₄] at hcode₅
  let p : LoopParts := ⟨s₃.scope, s₆.scope, head, tail, b⟩
  have hbefore : Wrote s₃ (τ₉ ++ τ₁₁) (openHead p.before p.condition ++ p.stepPart) s₅ :=
    hwrote₄.trans hwrote₅
  have hback : s₆.chunk.size + 3 - target = p.backDistance := by
    rw [hwrote₆.size]
    exact hdistance s₆.scope b
  obtain ⟨hwrote₈, hstays₈, hle₈, hback', hfits₈⟩ :=
    closeLoop (p := p) hbefore hwrote₆ rfl hloop hback hexit hleaves
  obtain ⟨hwrote₉, hscope₉, htokens₉⟩ := hend.endScope
  rw [hstays₈.scope] at hwrote₉ hscope₉
  have hfits : p.Fits :=
    ⟨hfits₈, fun is his => (hfits₅ is his).1, fun is his => (hfits₅ is his).2, hback'⟩
  have hleave := (hextends.trans hsame₆.extends).leave hs
  have hsame : s.scope.Same t.scope := by
    rw [hscope₉]
    exact hleave.1
  have hle₆ := hle₈.trans hwrote₉.le
  have hle₅ := hwrote₆.le.trans hle₆
  have hle₄ := hwrote₅.le.trans hle₅
  rw [← hstays₈.tokens.remaining, ← htokens₉.remaining] at hreads₆
  rw [← htokens₁.remaining, hpasses₂.remaining]
  refine ⟨_, a₁ ++ p.items ++ s₆.scope.pops,
    ⟨.forLoop hkind hopening hreads₃ hreads₄ hreads₅ hreads₆, ?_, ?_, ?_⟩, hsame⟩
  · rw [hscope₉]
    exact .forLoop (hcode₃.mono (hwrote₄.le.trans hle₄)) (hcode₄.mono hle₄) (hcode₅.mono hle₅)
      (hcode₆.mono hle₆) hsame₆ hfits
  · rw [hscope₉]
    exact .forLoop (hcloses₃.mono (hwrote₄.le.trans hle₄)) (hcode₄.mono hle₄) (hcode₅.mono hle₅)
      (hcloses₆.mono hle₆) hleave
  · simpa using ((hwrote₁.trans hpasses₂.wrote).trans hwrote₃).trans (hwrote₈.trans hwrote₉)

/-! ### Blocks -/

/-- A block translates to its declarations. -/
theorem Yields.block (hdeclaration : TranslatingDeclaration declaration) {budget : Nat}
    (h : (CompileM.block declaration budget).Yields s a τ t) (hs : s.scope.Settled) :
    ∃ st is, TranslatesStmt .block s.remaining s τ st is t := by
  induction budget generalizing s τ with
  | zero => exact h.fault.elim
  | succ budget ih =>
      obtain ⟨kind, u, τ₁, τ₂, hcurrent, hrest, rfl⟩ := Yields.bind h
      obtain ⟨rfl, rfl, rfl⟩ := hcurrent.currentKind
      split at hrest
      next hends =>
        obtain ⟨hclosing, rfl, hpasses⟩ := hrest.expect_passes (by decide)
        rw [hpasses.remaining]
        refine ⟨.skip, [], .of_simple (.blockEnd hclosing) ?_ trivial hpasses.wrote⟩
        rw [hpasses.scope]
        exact .skip _
      next hmore =>
        obtain ⟨_, u, τ₃, τ₄, hfirst, hthen, rfl⟩ := hrest.bind
        obtain ⟨st, is, hreads, hcode, hcloses, hwrote⟩ := hdeclaration hfirst hs
        obtain ⟨body, is', hreads', hcode', hcloses', hwrote'⟩ :=
          ih hthen ((hcode.extends hs).settled hs)
        refine ⟨_, is ++ is', .blockMore ?_ hreads hreads', .seq (hcode.mono hwrote'.le) hcode',
          .seq (hcloses.mono hwrote'.le) hcloses', hwrote.trans hwrote'⟩
        rw [Session.kindOf_remaining]
        intro hbrace
        simp [hbrace] at hmore

/-- A block as a statement translates to them and the pops of its locals. -/
theorem Yields.blockStatement (hdeclaration : TranslatingDeclaration declaration) {budget : Nat}
    (h : (CompileM.blockStatement declaration budget).Yields s a τ t) (hs : s.scope.Settled)
    (hkind : s.previous.kind = .leftBrace) :
    ∃ st is, TranslatesStmt .statement (s.previous :: s.remaining) s τ st is t ∧
      s.scope.Same t.scope := by
  obtain ⟨_, s₁, τ₁, τ₂, hbegin, hrest, rfl⟩ := Yields.bind h
  obtain ⟨hwrote₁, hscope₁, htokens₁⟩ := hbegin.beginScope
  obtain ⟨_, s₂, τ₃, τ₄, hblock, hend, rfl⟩ := hrest.bind
  obtain ⟨body, is, hreads, hcode, hcloses, hwrote₂⟩ :=
    hblock.block hdeclaration (hscope₁ ▸ hs.enter)
  obtain ⟨hwrote₃, hscope₃, htokens₃⟩ := hend.endScope
  rw [hscope₁] at hcode hcloses
  have hleave := (hcode.extends hs.enter).leave hs
  rw [htokens₁.remaining, ← htokens₃.remaining] at hreads
  refine ⟨_, is ++ s₂.scope.pops, ⟨.block hkind hreads, ?_, ?_, ?_⟩, ?_⟩
  · rw [hscope₃]
    exact .block (hcode.mono hwrote₃.le)
  · rw [hscope₃]
    exact .block (hcloses.mono hwrote₃.le) hleave
  · simpa using hwrote₁.trans (hwrote₂.trans hwrote₃)
  · rw [hscope₃]
    exact hleave.1

end CompileM

end LoxBytecode
