import LoxBytecode.Proofs.Code.Variables
import LoxBytecode.Proofs.Syntax.Reading

/-!
# Compiling Expressions

A run of `parsePrecedence` without diagnostics reads an expression and writes its code
(`Translates`). There is one lemma for each form of an expression, about any `parse` that
translates the parts, and an induction on the budget ties them together.
-/

namespace LoxBytecode

/-- The next token is the current one. -/
theorem Session.kindOf_remaining (s : Session) : kindOf s.remaining = s.current.kind := by
  rw [remaining]
  split
  next heof => exact heof.symm
  next => rfl

namespace CompileM

variable {s t u : Session} {τ : List Event} {a : Unit}

/-- From `s` to `t` some part of an expression was read from the tokens `input`, and the items
`is` were written. Together with what was written before, they are the code of `es`. -/
structure Translates (part : ExprPart) (input : List Token) (before : List Item) (s : Session)
    (τ : List Event) (es : List Expr) (is : List Item) (t : Session) : Prop where
  reads : Reads part input es t.remaining
  code : ExprCode (World.of t) s.scope es (before ++ is)
  wrote : Wrote s τ is t
  scope : t.scope = s.scope

/-- A compilation of the parts of an expression does what it should. -/
def Translating (parse : Precedence → CompileM Unit) : Prop :=
  ∀ {p : Precedence} {s t : Session} {τ : List Event} {a : Unit}, p ≠ .none →
    (parse p).Yields s a τ t → ∃ e is, Translates (.expr p) s.remaining [] s τ [e] is t

variable {parse : Precedence → CompileM Unit}

/-! ### Forms that begin an expression -/

/-- Parentheses translate to what is inside them. -/
theorem Yields.grouping (hparse : Translating parse) (h : (CompileM.grouping parse).Yields s a τ t)
    (hkind : s.previous.kind = .leftParen) (c : Bool) :
    ∃ e is, Translates (.start c) (s.previous :: s.remaining) [] s τ [e] is t := by
  obtain ⟨_, u, τ₁, τ₂, hexpr, hclose, rfl⟩ := Yields.bind h
  obtain ⟨e, is, hreads, hcode, hwrote, hscope⟩ := hparse (by decide) hexpr
  obtain ⟨hclosing, rfl, hpasses⟩ := hclose.expect_passes (by decide)
  rw [hpasses.remaining] at hreads
  refine ⟨e, is, .grouping hkind hreads hclosing, hcode.mono hpasses.wrote.le, ?_,
    hpasses.scope.trans hscope⟩
  simpa using hwrote.trans hpasses.wrote

/-- A literal word translates to its instruction. -/
theorem Yields.literal (h : CompileM.literal.Yields s a τ t) {l : Literal}
    (hkind : Literal.ofKind? s.previous.kind = some l) (c : Bool) :
    ∃ e is, Translates (.start c) (s.previous :: s.remaining) [] s τ [e] is t := by
  obtain ⟨kind, u, τ₁, τ₂, hprevious, hemit, rfl⟩ := Yields.bind h
  obtain ⟨rfl, rfl, rfl⟩ := hprevious.previousKind
  have hcode : literalCode s.previous.kind = [l.code] := by
    generalize s.previous.kind = kind at hkind
    cases kind <;> cases hkind <;> rfl
  rw [hcode] at hemit
  obtain ⟨hwrote, hstays⟩ := hemit.emitAll (by cases l <;> decide)
  rw [← hstays.tokens.remaining]
  exact ⟨_, [s.scope.op l.code []], .literal hkind, .literal l, hwrote, hstays.scope⟩

/-- An operator in front of its operand translates to the operand and its instructions. -/
theorem Yields.unary (hparse : Translating parse) (h : (CompileM.unary parse).Yields s a τ t)
    {o : UnaryOp} (hkind : UnaryOp.ofKind? s.previous.kind = some o) (c : Bool) :
    ∃ e is, Translates (.start c) (s.previous :: s.remaining) [] s τ [e] is t := by
  obtain ⟨kind, u, τ₁, τ₂, hprevious, hrest, rfl⟩ := Yields.bind h
  obtain ⟨rfl, rfl, rfl⟩ := hprevious.previousKind
  obtain ⟨_, u, τ₃, τ₄, hexpr, hemit, rfl⟩ := hrest.bind
  obtain ⟨e, is, hreads, hcode, hwrote, hscope⟩ := hparse (by decide) hexpr
  have hops : unaryCode s.previous.kind = [o.code] := by
    generalize s.previous.kind = kind at hkind
    cases kind <;> cases hkind <;> rfl
  rw [hops] at hemit
  obtain ⟨hwrote', hstays⟩ := hemit.emitAll (by cases o <;> decide)
  rw [hscope] at hwrote'
  rw [← hstays.tokens.remaining] at hreads
  exact ⟨_, is ++ [s.scope.op o.code []], .unary hkind hreads, .unary (hcode.mono hwrote'.le), hwrote.trans hwrote',
    hstays.scope.trans hscope⟩

/-- A read of a variable that has been resolved. -/
theorem read_of_resolves {access : Access} {τ₁ τ₂ : List Event} (hwrote : Wrote s τ₁ [] u)
    (hstays : s.Stays u) (haccess : (World.of u).Resolves s.scope s.previous.lexeme access)
    (hemit : (CompileM.emit access.read [access.operand]).Yields u a τ₂ t) :
    Wrote s (τ₁ ++ τ₂) [s.scope.op access.read [access.operand]] t ∧ s.Stays t ∧
      (World.of t).Resolves s.scope s.previous.lexeme access := by
  obtain ⟨hwrote', hstays'⟩ := hemit.emit haccess.ne_closure.1
  rw [hstays.scope] at hwrote'
  exact ⟨hwrote.trans hwrote', hstays.trans hstays', haccess.mono hwrote'.le⟩

/-- A use of a variable. -/
theorem Yields.namedVariable (hparse : Translating parse) {c : Bool}
    (h : (CompileM.namedVariable parse c).Yields s a τ t)
    (hkind : s.previous.kind = .identifier) :
    ∃ e is, Translates (.start c) (s.previous :: s.remaining) [] s τ [e] is t := by
  obtain ⟨access, u, τ₁, τ₂, hresolve, hrest, rfl⟩ := Yields.bind h
  obtain ⟨hwrote, hstays, haccess⟩ := hresolve.resolve
  obtain ⟨equals, v, τ₃, τ₄, haccept, hthen, rfl⟩ := hrest.bind
  obtain ⟨rfl, hcases⟩ := haccept.acceptIf_passes (by decide)
  rcases hcases with ⟨rfl, ⟨rfl, hequal⟩, hpasses⟩ | ⟨rfl, hno, rfl⟩
  · obtain ⟨_, w, τ₅, τ₆, hexpr, hemit, rfl⟩ := Yields.bind hthen
    obtain ⟨e, is, hreads, hcode, hwrote', hscope⟩ := hparse (by decide) hexpr
    obtain ⟨hwrote'', hstays'⟩ := hemit.emit haccess.ne_closure.2
    have hu : v.scope = s.scope := hpasses.scope.trans hstays.scope
    rw [hscope, hu] at hwrote''
    rw [hu] at hcode
    rw [← hstays'.tokens.remaining] at hreads
    rw [← hstays.tokens.remaining, hpasses.remaining]
    refine ⟨_, is ++ [s.scope.op access.write [access.operand]], .assign hkind hequal hreads,
      ?_, ?_, (hstays'.scope.trans hscope).trans hu⟩
    · exact .assign (haccess.mono (hpasses.wrote.le.trans (hwrote'.le.trans hwrote''.le)))
        (hcode.mono hwrote''.le)
    · simpa using ((hwrote.trans hpasses.wrote).trans hwrote').trans hwrote''
  · obtain ⟨hwrote', hstays', haccess'⟩ := read_of_resolves hwrote hstays haccess hthen
    refine ⟨_, [s.scope.op access.read [access.operand]], ?_, .variable haccess', ?_,
      hstays'.scope⟩
    · rw [← hstays'.tokens.remaining]
      refine .variable hkind fun hequal => hno ⟨hequal.1, ?_⟩
      rw [hstays'.tokens.remaining, Session.kindOf_remaining] at hequal
      rw [hstays.tokens.current]
      exact hequal.2
    · simpa using hwrote'

/-- What stands at the start of an expression translates to its code. -/
theorem Yields.atStart (hparse : Translating parse) {c : Bool} {form : PrefixForm}
    (h : (CompileM.atStart parse c form).Yields s a τ t)
    (hform : s.previous.kind.rule.atStart = some form) :
    ∃ e is, Translates (.start c) (s.previous :: s.remaining) [] s τ [e] is t := by
  cases form with
  | grouping =>
      refine Yields.grouping hparse h ?_ c
      generalize s.previous.kind = kind at hform
      cases kind <;> cases hform
      rfl
  | unary =>
      have hkind : ∃ o, UnaryOp.ofKind? s.previous.kind = some o := by
        generalize s.previous.kind = kind at hform
        cases kind <;> cases hform <;> exact ⟨_, rfl⟩
      exact Yields.unary hparse h hkind.choose_spec c
  | identifier =>
      refine Yields.namedVariable hparse h ?_
      generalize s.previous.kind = kind at hform
      cases kind <;> cases hform
      rfl
  | string =>
      obtain ⟨text, is, htext, hwrote, hstays, hcode⟩ := Yields.stringLiteral h
      refine ⟨_, is, ?_, hcode, hwrote, hstays.scope⟩
      rw [← hstays.tokens.remaining]
      refine .string ?_ htext
      generalize s.previous.kind = kind at hform
      cases kind <;> cases hform
      rfl
  | number =>
      obtain ⟨x, is, hx, hwrote, hstays, hcode⟩ := Yields.numberLiteral h
      refine ⟨_, is, ?_, hcode, hwrote, hstays.scope⟩
      rw [← hstays.tokens.remaining]
      refine .number ?_ hx
      generalize s.previous.kind = kind at hform
      cases kind <;> cases hform
      rfl
  | literal =>
      have hkind : ∃ l, Literal.ofKind? s.previous.kind = some l := by
        generalize s.previous.kind = kind at hform
        cases kind <;> cases hform <;> exact ⟨_, rfl⟩
      exact Yields.literal h hkind.choose_spec c

/-! ### Forms that continue an expression -/

/-- An operator behind its left operand translates to the right operand and its instructions. -/
theorem Yields.binary (hparse : Translating parse) (h : (CompileM.binary parse).Yields s a τ t)
    {o : BinaryOp} (hkind : BinaryOp.ofKind? s.previous.kind = some o) (c : Bool) {l : Expr}
    {before : List Item} (hleft : ExprCode (World.of s) s.scope [l] before) :
    ∃ e is, Translates (.behind c l) (s.previous :: s.remaining) before s τ [e] is t := by
  obtain ⟨kind, u, τ₁, τ₂, hprevious, hrest, rfl⟩ := Yields.bind h
  obtain ⟨rfl, rfl, rfl⟩ := hprevious.previousKind
  obtain ⟨_, u, τ₃, τ₄, hexpr, hemit, rfl⟩ := hrest.bind
  have hnext : s.previous.kind.rule.precedence.next ≠ .none := by
    generalize s.previous.kind = kind
    cases kind <;> decide
  obtain ⟨e, is, hreads, hcode, hwrote, hscope⟩ := hparse hnext hexpr
  have hops : binaryCode s.previous.kind = o.code := by
    generalize s.previous.kind = kind at hkind
    cases kind <;> cases hkind <;> rfl
  rw [hops] at hemit
  obtain ⟨hwrote', hstays⟩ := hemit.emitAll (by cases o <;> decide)
  rw [hscope] at hwrote'
  rw [← hstays.tokens.remaining] at hreads
  refine ⟨_, is ++ o.code.map (s.scope.op · []), .binary hkind hreads, ?_,
    hwrote.trans hwrote', hstays.scope.trans hscope⟩
  rw [← List.append_assoc]
  exact .binary (hleft.mono (hwrote.le.trans hwrote'.le)) (hcode.mono hwrote'.le)

/-- The arguments of a call are counted. -/
theorem Yields.arguments (hparse : Translating parse) {budget count n : Nat}
    (h : (CompileM.arguments parse budget count).Yields s n τ t) (hcount : count ≤ 255) :
    ∃ es is, Translates .arguments s.remaining [] s τ es is t ∧ n = count + es.length ∧
      n ≤ 255 := by
  induction budget generalizing s count τ with
  | zero => exact h.fault.elim
  | succ budget ih =>
      obtain ⟨_, u, τ₁, τ₂, hexpr, hrest, rfl⟩ := Yields.bind h
      obtain ⟨e, is, hreads, hcode, hwrote, hscope⟩ := hparse (by decide) hexpr
      dsimp only at hrest
      split at hrest
      · obtain ⟨_, v, τ₃, τ₄, hfail, -, -⟩ := hrest.bind
        exact hfail.fail.elim
      next hroom =>
        obtain ⟨comma, v, τ₃, τ₄, haccept, hthen, rfl⟩ := hrest.bind
        obtain ⟨rfl, hcases⟩ := haccept.accept_passes (by decide)
        rcases hcases with ⟨rfl, hcomma, hpasses⟩ | ⟨rfl, hno, rfl⟩
        · obtain ⟨es, is', ⟨hreads', hcode', hwrote', hscope'⟩, hn, hle⟩ :=
            ih hthen (by omega)
          have hv : v.scope = s.scope := hpasses.scope.trans hscope
          rw [hpasses.remaining] at hreads
          rw [hv] at hcode'
          have hcons : ExprCode (World.of t) s.scope (e :: es) (is ++ is') :=
            .cons (hcode.mono (hpasses.wrote.le.trans hwrote'.le)) hcode'
          refine ⟨e :: es, is ++ is', ⟨.argument hreads hcomma hreads', hcons, ?_,
            hscope'.trans hv⟩, ?_, hle⟩
          · simpa using (hwrote.trans hpasses.wrote).trans hwrote'
          · rw [hn, List.length_cons]
            omega
        · obtain ⟨rfl, rfl, rfl⟩ := Yields.pure hthen
          refine ⟨[e], is, ⟨.lastArgument hreads ?_, hcode, ?_, hscope⟩, rfl, by omega⟩
          · rwa [Session.kindOf_remaining]
          · simpa using hwrote

/-- What closes a call: the parenthesis, and the instruction with the count of arguments. -/
theorem Yields.closeCall {n : Nat}
    (h : (do
      CompileM.expect .rightParen "')' after arguments"
      CompileM.emit .call [← narrow (min n 255)] : CompileM Unit).Yields s a τ t) :
    s.current.kind = .rightParen ∧ s.remaining = s.current :: t.remaining ∧
      ∃ b : UInt8, b.toNat = min n 255 ∧ Wrote s τ [s.scope.op .call [b]] t ∧
        t.scope = s.scope := by
  obtain ⟨_, u, τ₁, τ₂, hexpect, hrest, rfl⟩ := Yields.bind h
  obtain ⟨hclosing, rfl, hpasses⟩ := hexpect.expect_passes (by decide)
  obtain ⟨b, v, τ₃, τ₄, hnarrow, hemit, rfl⟩ := hrest.bind
  obtain ⟨hb, rfl, rfl⟩ := hnarrow.liftM
  obtain ⟨hwrote, hstays⟩ := hemit.emit (by decide)
  rw [hpasses.scope] at hwrote
  refine ⟨hclosing, ?_, b, toNat_of_narrow hb, ?_, hstays.scope.trans hpasses.scope⟩
  · rw [hpasses.remaining, hstays.tokens.remaining]
  · simpa using hpasses.wrote.trans hwrote

/-- A call translates to its arguments and one instruction with their count. -/
theorem Yields.call (hparse : Translating parse) {budget : Nat}
    (h : (CompileM.call parse budget).Yields s a τ t) (hkind : s.previous.kind = .leftParen)
    (c : Bool) {l : Expr} {before : List Item}
    (hleft : ExprCode (World.of s) s.scope [l] before) :
    ∃ e is, Translates (.behind c l) (s.previous :: s.remaining) before s τ [e] is t := by
  obtain ⟨closes, u, τ₁, τ₂, hnext, hrest, rfl⟩ := Yields.bind h
  obtain ⟨rfl, rfl, rfl⟩ := hnext.nextIs
  dsimp only at hrest
  split at hrest
  next hcloses =>
    obtain ⟨n, u, τ₃, τ₄, hzero, hclose, rfl⟩ := hrest.bind
    obtain ⟨rfl, rfl, rfl⟩ := hzero.pure
    obtain ⟨hclosing, hremaining, b, hb, hwrote, hscope⟩ := Yields.closeCall hclose
    rw [hremaining]
    refine ⟨_, [s.scope.op .call [b]], .callNone hkind hclosing, ?_, hwrote, hscope⟩
    have hcode := ExprCode.call (hleft.mono hwrote.le) .nil hb.symm
    rwa [List.append_nil] at hcode
  next hcloses =>
    obtain ⟨n, u, τ₃, τ₄, hargs, hclose, rfl⟩ := hrest.bind
    obtain ⟨es, is, ⟨hreads, hcode, hwrote, hscope⟩, hn, hle⟩ :=
      hargs.arguments hparse (Nat.zero_le _)
    obtain ⟨hclosing, hremaining, b, hb, hwrote', hscope'⟩ := Yields.closeCall hclose
    rw [hremaining] at hreads
    rw [hscope] at hwrote'
    refine ⟨_, is ++ [s.scope.op .call [b]], .call hkind hreads hclosing, ?_,
      hwrote.trans hwrote', hscope'.trans hscope⟩
    rw [← List.append_assoc]
    refine .call (hleft.mono (hwrote.le.trans hwrote'.le)) (hcode.mono hwrote'.le) ?_
    rw [hb, Nat.min_eq_left hle, hn, Nat.zero_add]

/-- A property translates to a read, or to the value and an assignment where `=` follows. -/
theorem Yields.dot (hparse : Translating parse) {c : Bool}
    (h : (CompileM.dot parse c).Yields s a τ t) (hkind : s.previous.kind = .dot) {l : Expr}
    {before : List Item} (hleft : ExprCode (World.of s) s.scope [l] before) :
    ∃ e is, Translates (.behind c l) (s.previous :: s.remaining) before s τ [e] is t := by
  obtain ⟨_, u, τ₁, τ₂, hexpect, hrest, rfl⟩ := Yields.bind h
  obtain ⟨hname, rfl, hpasses⟩ := hexpect.expect_passes (by decide)
  obtain ⟨i, v, τ₃, τ₄, hconstant, hthen, rfl⟩ := hrest.bind
  obtain ⟨hwrote, hstays, htext⟩ := hconstant.nameConstant
  rw [hpasses.previous] at htext
  have hv : v.scope = s.scope := hstays.scope.trans hpasses.scope
  have hbefore : Wrote s τ₃ [] v := by simpa using hpasses.wrote.trans hwrote
  obtain ⟨equals, w, τ₅, τ₆, haccept, hlast, rfl⟩ := hthen.bind
  obtain ⟨rfl, hcases⟩ := haccept.acceptIf_passes (by decide)
  rw [hpasses.remaining, ← hstays.tokens.remaining]
  rcases hcases with ⟨rfl, ⟨rfl, hequal⟩, hpasses'⟩ | ⟨rfl, hno, rfl⟩
  · obtain ⟨_, x, τ₇, τ₈, hexpr, hemit, rfl⟩ := Yields.bind hlast
    obtain ⟨e, is, hreads, hcode, hwrote', hscope⟩ := hparse (by decide) hexpr
    obtain ⟨hwrote'', hstays'⟩ := hemit.emit (by decide)
    have hw : w.scope = s.scope := hpasses'.scope.trans hv
    rw [hscope, hw] at hwrote''
    rw [hw] at hcode
    rw [← hstays'.tokens.remaining] at hreads
    rw [hpasses'.remaining]
    have hle := hpasses'.wrote.le.trans (hwrote'.le.trans hwrote''.le)
    refine ⟨_, is ++ [s.scope.op .setProperty [i]], .set hkind hname hequal hreads, ?_, ?_,
      (hstays'.scope.trans hscope).trans hw⟩
    · rw [← List.append_assoc]
      exact .set (hleft.mono (hbefore.le.trans hle)) (hcode.mono hwrote''.le) (htext.mono hle)
    · simpa using ((hbefore.trans hpasses'.wrote).trans hwrote').trans hwrote''
  · obtain ⟨hwrote', hstays'⟩ := Yields.emit hlast (by decide)
    rw [hv] at hwrote'
    refine ⟨_, [s.scope.op .getProperty [i]], ?_,
      .get (hleft.mono (hbefore.le.trans hwrote'.le)) (htext.mono hwrote'.le), ?_,
      hstays'.scope.trans hv⟩
    · rw [← hstays'.tokens.remaining]
      refine .get hkind hname fun hequal => hno ⟨hequal.1, ?_⟩
      rw [hstays'.tokens.remaining, Session.kindOf_remaining] at hequal
      exact hequal.2
    · simpa using hbefore.trans hwrote'

/-- A conjunction translates to a jump over its right operand. -/
theorem Yields.conjunction (hparse : Translating parse)
    (h : (CompileM.conjunction parse).Yields s a τ t) (hkind : s.previous.kind = .andWord)
    (c : Bool) {l : Expr} {before : List Item}
    (hleft : ExprCode (World.of s) s.scope [l] before) :
    ∃ e is, Translates (.behind c l) (s.previous :: s.remaining) before s τ [e] is t := by
  obtain ⟨endJump, u, τ₁, τ₂, hjump, hrest, rfl⟩ := Yields.bind h
  obtain ⟨hoffset, hwrote₁, hstays₁⟩ := hjump.emitJump (by decide)
  obtain ⟨_, v, τ₃, τ₄, hpop, hthen, rfl⟩ := hrest.bind
  obtain ⟨hwrote₂, hstays₂⟩ := hpop.emit (by decide)
  obtain ⟨_, w, τ₅, τ₆, hexpr, hpatch, rfl⟩ := hthen.bind
  obtain ⟨e, is, hreads, hcode, hwrote₃, hscope⟩ := hparse (by decide) hexpr
  have hv : v.scope = s.scope := hstays₂.scope.trans hstays₁.scope
  rw [hstays₁.scope] at hwrote₂
  rw [hv] at hcode hscope
  have hbody : Wrote s (τ₁ ++ τ₃ ++ τ₅)
      ([] ++ s.scope.op .jumpIfFalse (Chunk.bytesOf16 Session.maxJump) ::
        s.scope.op .pop [] :: is) w :=
    (hwrote₁.trans hwrote₂).trans hwrote₃
  obtain ⟨hwrote, hfits, hstays, hle⟩ := hbody.patch hpatch (by decide) hoffset
  rw [← (hstays₁.trans hstays₂).tokens.remaining]
  rw [← hstays.tokens.remaining] at hreads
  refine ⟨_, _, .and hkind hreads, .and (hleft.mono hwrote.le) (hcode.mono hle) hfits, ?_,
    hstays.scope.trans hscope⟩
  simpa using hwrote

/-- A disjunction translates to two jumps around each other and its right operand. -/
theorem Yields.disjunction (hparse : Translating parse)
    (h : (CompileM.disjunction parse).Yields s a τ t) (hkind : s.previous.kind = .orWord)
    (c : Bool) {l : Expr} {before : List Item}
    (hleft : ExprCode (World.of s) s.scope [l] before) :
    ∃ e is, Translates (.behind c l) (s.previous :: s.remaining) before s τ [e] is t := by
  obtain ⟨elseJump, u, τ₁, τ₂, hjump₁, hrest, rfl⟩ := Yields.bind h
  obtain ⟨hoffset₁, hwrote₁, hstays₁⟩ := hjump₁.emitJump (by decide)
  obtain ⟨endJump, v, τ₃, τ₄, hjump₂, hrest', rfl⟩ := hrest.bind
  obtain ⟨hoffset₂, hwrote₂, hstays₂⟩ := hjump₂.emitJump (by decide)
  obtain ⟨_, w, τ₅, τ₆, hpatch₁, hthen, rfl⟩ := hrest'.bind
  rw [hstays₁.scope] at hwrote₂
  have hjumps : Wrote s (τ₁ ++ τ₃)
      ([] ++ s.scope.op .jumpIfFalse (Chunk.bytesOf16 Session.maxJump) ::
        [s.scope.op .jump (Chunk.bytesOf16 Session.maxJump)]) v :=
    hwrote₁.trans hwrote₂
  obtain ⟨hwrote₃, -, hstays₃, -⟩ := hjumps.patch hpatch₁ (by decide) hoffset₁
  obtain ⟨_, x, τ₇, τ₈, hpop, hlast, rfl⟩ := hthen.bind
  obtain ⟨hwrote₄, hstays₄⟩ := hpop.emit (by decide)
  obtain ⟨_, y, τ₉, τ₁₀, hexpr, hpatch₂, rfl⟩ := hlast.bind
  obtain ⟨e, is, hreads, hcode, hwrote₅, hscope⟩ := hparse (by decide) hexpr
  have hstays := ((hstays₁.trans hstays₂).trans hstays₃).trans hstays₄
  have hw : w.scope = s.scope := ((hstays₁.trans hstays₂).trans hstays₃).scope
  rw [hw] at hwrote₄
  rw [hstays.scope] at hcode hscope
  have hbody : Wrote s (τ₁ ++ τ₃ ++ τ₅ ++ τ₇ ++ τ₉)
      ([s.scope.jump .jumpIfFalse [s.scope.op .jump (Chunk.bytesOf16 Session.maxJump)]] ++
        s.scope.op .jump (Chunk.bytesOf16 Session.maxJump) :: s.scope.op .pop [] :: is) y :=
    (hwrote₃.trans hwrote₄).trans hwrote₅
  have hoffset : endJump = s.chunk.size + Item.size
      [s.scope.jump .jumpIfFalse [s.scope.op .jump (Chunk.bytesOf16 Session.maxJump)]] + 1 := by
    rw [hoffset₂, hwrote₁.size]
    simp
  obtain ⟨hwrote, hfits, hstays₅, hle⟩ := hbody.patch hpatch₂ (by decide) hoffset
  rw [← hstays.tokens.remaining]
  rw [← hstays₅.tokens.remaining] at hreads
  have hjump : s.scope.jump .jumpIfFalse [s.scope.op .jump (Chunk.bytesOf16 Session.maxJump)] =
      s.scope.jump .jumpIfFalse [s.scope.jump .jump (s.scope.op .pop [] :: is)] :=
    Scope.jump_congr (by simp)
  rw [hjump] at hwrote
  refine ⟨_, _, .or hkind hreads, .or (hleft.mono hwrote.le) (hcode.mono hle) hfits, ?_,
    hstays₅.scope.trans hscope⟩
  simpa using hwrote

/-- What stands behind an expression translates to its code behind that of the expression. -/
theorem Yields.behind (hparse : Translating parse) {budget : Nat} {c : Bool} {form : InfixForm}
    (h : (CompileM.behind parse budget c form).Yields s a τ t)
    (hform : s.previous.kind.rule.behind = some form) {l : Expr} {before : List Item}
    (hleft : ExprCode (World.of s) s.scope [l] before) :
    ∃ e is, Translates (.behind c l) (s.previous :: s.remaining) before s τ [e] is t := by
  cases form with
  | call =>
      refine Yields.call hparse h ?_ c hleft
      generalize s.previous.kind = kind at hform
      cases kind <;> cases hform
      rfl
  | dot =>
      refine Yields.dot hparse h ?_ hleft
      generalize s.previous.kind = kind at hform
      cases kind <;> cases hform
      rfl
  | binary =>
      have hkind : ∃ o, BinaryOp.ofKind? s.previous.kind = some o := by
        generalize s.previous.kind = kind at hform
        cases kind <;> cases hform <;> exact ⟨_, rfl⟩
      exact Yields.binary hparse h hkind.choose_spec c hleft
  | and =>
      refine Yields.conjunction hparse h ?_ c hleft
      generalize s.previous.kind = kind at hform
      cases kind <;> cases hform
      rfl
  | or =>
      refine Yields.disjunction hparse h ?_ c hleft
      generalize s.previous.kind = kind at hform
      cases kind <;> cases hform
      rfl

/-! ### Expressions -/

/-- A token that binds at all continues expressions, and it is not the end of the source. -/
theorem exists_behind {p : Precedence} (hp : p ≠ .none) {kind : TokenKind}
    (h : p ≤ kind.rule.precedence) : (∃ form, kind.rule.behind = some form) ∧ kind ≠ .eof := by
  have hrank : 0 < p.rank := by
    cases p with
    | none => exact absurd rfl hp
    | _ => decide
  have hlt : 0 < kind.rule.precedence.rank := Nat.lt_of_lt_of_le hrank h
  cases kind <;> first | exact ⟨⟨_, rfl⟩, by decide⟩ | exact absurd hlt (by decide)

/-- Operators translate one after the other, as long as they bind tightly enough. -/
theorem Yields.operators (hparse : Translating parse) {p : Precedence} (hp : p ≠ .none)
    {budget : Nat}
    (h : (CompileM.operators parse p (decide (p ≤ .assignment)) budget).Yields s a τ t)
    {l : Expr} {before : List Item} (hleft : ExprCode (World.of s) s.scope [l] before) :
    ∃ e is, Translates (.operators p l) s.remaining before s τ [e] is t := by
  induction budget generalizing s τ l before with
  | zero => exact h.fault.elim
  | succ budget ih =>
      obtain ⟨kind, u, τ₁, τ₂, hcurrent, hrest, rfl⟩ := Yields.bind h
      obtain ⟨rfl, rfl, rfl⟩ := hcurrent.currentKind
      split at hrest
      next hle =>
        obtain ⟨_, u, τ₃, τ₄, hadvance, hthen, rfl⟩ := hrest.bind
        obtain ⟨⟨form, hform⟩, heof⟩ := exists_behind hp hle
        obtain ⟨rfl, rfl⟩ := hadvance.advance
        have hpasses := hadvance.before.passes hadvance.after heof
        obtain ⟨kind, u, τ₅, τ₆, hprevious, hthen', rfl⟩ := hthen.bind
        obtain ⟨rfl, rfl, rfl⟩ := hprevious.previousKind
        rw [hpasses.previous, hform] at hthen'
        obtain ⟨_, u, τ₇, τ₈, hbehind, hmore, rfl⟩ := Yields.bind hthen'
        rw [← hpasses.scope] at hleft
        obtain ⟨e, is, hreads, hcode, hwrote, hscope⟩ := Yields.behind hparse hbehind
          (hpasses.previous ▸ hform) (hleft.mono hpasses.wrote.le)
        rw [← hscope] at hcode
        obtain ⟨e', is', hreads', hcode', hwrote', hscope'⟩ := ih hmore hcode
        rw [hscope, hpasses.scope, List.append_assoc] at hcode'
        rw [hpasses.previous, ← hpasses.remaining] at hreads
        refine ⟨e', is ++ is', .step ?_ hreads hreads', hcode', ?_,
          (hscope'.trans hscope).trans hpasses.scope⟩
        · rwa [Session.kindOf_remaining]
        · simpa using (hpasses.wrote.trans hwrote).trans hwrote'
      next hle =>
        obtain ⟨-, rfl, rfl⟩ := hrest.pure
        refine ⟨l, [], .stop ?_, ?_, .refl h.before.orderly, rfl⟩
        · rwa [Session.kindOf_remaining]
        · rwa [List.append_nil]

/-- Expressions of every level translate, by induction on the budget. -/
theorem translating_parsePrecedence (budget : Nat) : Translating (parsePrecedence budget) := by
  induction budget with
  | zero => exact fun _ h => h.fault.elim
  | succ budget ih =>
      intro p s t τ a hp h
      obtain ⟨_, u, τ₁, τ₂, hadvance, hrest, rfl⟩ := Yields.bind h
      obtain ⟨rfl, rfl⟩ := hadvance.advance
      obtain ⟨kind, u, τ₃, τ₄, hprevious, hthen, rfl⟩ := hrest.bind
      obtain ⟨rfl, rfl, rfl⟩ := hprevious.previousKind
      split at hthen
      next => exact hthen.fail.elim
      next form hform =>
        have heof : s.current.kind ≠ .eof := by
          intro heof
          rw [Session.previous_advance, heof] at hform
          cases hform
        have hpasses := hadvance.before.passes hadvance.after heof
        obtain ⟨_, u, τ₅, τ₆, hstart, hthen', rfl⟩ := Yields.bind hthen
        obtain ⟨l, is, hreads, hcode, hwrote, hscope⟩ := Yields.atStart ih hstart hform
        rw [← hscope] at hcode
        obtain ⟨_, v, τ₇, τ₈, hoperators, hequal, rfl⟩ := hthen'.bind
        obtain ⟨e, is', hreads', hcode', hwrote', hscope'⟩ :=
          Yields.operators ih hp hoperators hcode
        obtain ⟨equals, w, τ₉, τ₁₀, haccept, hlast, rfl⟩ := hequal.bind
        obtain ⟨rfl, hcases⟩ := haccept.acceptIf_passes (by decide)
        rcases hcases with ⟨rfl, -, -⟩ | ⟨rfl, -, rfl⟩
        · exact (Yields.fail hlast).elim
        · obtain ⟨-, rfl, rfl⟩ := Yields.pure hlast
          rw [hpasses.previous, ← hpasses.remaining] at hreads
          rw [hscope, hpasses.scope] at hcode'
          refine ⟨e, is ++ is', .expr hreads hreads', hcode', ?_,
            (hscope'.trans hscope).trans hpasses.scope⟩
          simpa using (hpasses.wrote.trans hwrote).trans hwrote'

/-- An expression that is compiled without diagnostics is read and has its code. -/
theorem Yields.expression {budget : Nat} (h : (CompileM.expression budget).Yields s a τ t) :
    ∃ e is, Translates (.expr .assignment) s.remaining [] s τ [e] is t :=
  translating_parsePrecedence budget (by decide) h

end CompileM

end LoxBytecode
