import LoxBytecode.Proofs.Compile.Budget
import LoxBytecode.Proofs.Compile.Lexemes
import LoxBytecode.Proofs.Session.Tight

/-!
# Compiling Makes Progress

Why compiling ends on every source, well formed or not. Every loop of the compiler goes by rounds
(`Loop`), and a round that is followed by another one has passed a token; so has a declaration,
unless no token is left. In front of the end of the source every handler comes back on three
levels of the recursion (`Handler.exists_run_of_eof`). So the depth of the recursion is linear in
the length of the source: from two levels for each of its characters on, a larger budget changes
nothing (`compile_ends`).

A report moves nothing, so what passes a token is never a handler's own error path: it is the
first step of an expression, the token that a statement was chosen by, or the comma that lets
another parameter or argument follow.
-/

namespace LoxBytecode

open Heap

namespace CompileM

variable {σ α β : Type} {s t : Session}

/-! ### Loops -/

/-- A loop of the compiler in rounds. A round has the budget that is left to the loop, and
answers from where the loop goes on, or what it ends with. -/
structure Loop (σ α : Type) where
  loop : Nat → σ → CompileM α
  round : Nat → σ → CompileM (σ ⊕ α)
  /-- Rounds are counted by the budget. -/
  outOfBudget : ∀ x, loop 0 x = fault .outOfBudget
  /-- The loop is one round, and goes on as it answers. -/
  goesOn : ∀ n x s, (loop (n + 1) x).run s = (round n x >>= Sum.elim (loop n) pure).run s

/-- From here, a round that is followed by another one passes a token. -/
def Loop.Consumes (L : Loop σ α) (s : Session) : Prop :=
  ∀ n x y t, (L.round n x).run s = .ok (.inl y, t) → t.left < s.left

/-- The declarations of a script. -/
def topLevel (budget : Nat) : Loop Unit Unit where
  loop left _ := declarations.loop budget left
  round _ _ := do
    if ← accept .eof then return .inr ()
    else
      declaration budget
      return .inl ()
  outOfBudget _ := rfl
  goesOn n _ s := by
    simp only [declarations.loop, run_bind, run_accept]
    split <;> simp [run_bind]

/-- The declarations of a block. -/
def inBlock (budget : Nat) : Loop Unit Unit where
  loop left _ := block (declaration budget) left
  round _ _ := do
    let kind ← currentKind
    if kind == .rightBrace || kind == .eof then
      expect .rightBrace "'\x7d' after block"
      return .inr ()
    else
      declaration budget
      return .inl ()
  outOfBudget _ := rfl
  goesOn n _ s := by
    simp only [block, run_bind, run_currentKind, ok_bind]
    split <;> simp [run_bind]

/-- The operators behind an expression. -/
def behindExpression (parse : Precedence → CompileM Unit) (p : Precedence) (canAssign : Bool) :
    Loop Unit Unit where
  loop left _ := operators parse p canAssign left
  round left _ := do
    if p ≤ (← currentKind).rule.precedence then
      advance
      match (← previousKind).rule.behind with
      | some form => behind parse left canAssign form
      | none => pure ()
      return .inl ()
    else return .inr ()
  outOfBudget _ := rfl
  goesOn n _ s := by
    simp only [operators, run_bind, run_currentKind, ok_bind]
    split
    · simp only [run_bind, run_advance, ok_bind, run_previousKind, Session.previous_advance]
      cases s.current.kind.rule.behind <;> simp [run_bind]
    · rfl

/-- What is skipped to the next statement. -/
def synchronizing : Loop Unit Unit where
  loop left _ := skipToStatement left
  round _ _ := do
    let current ← currentKind
    let previous ← previousKind
    if current == .eof || previous == .semicolon || current.startsStatement then return .inr ()
    else
      advance
      return .inl ()
  outOfBudget _ := rfl
  goesOn n _ s := by
    simp only [skipToStatement, run_bind, run_currentKind, run_previousKind, ok_bind]
    split <;> simp [run_bind]

/-- The parameters of a function. -/
def inParameters : Loop Unit Unit where
  loop left _ := parameters left
  round _ _ := do
    parameter
    if ← accept .comma then return .inl () else return .inr ()
  outOfBudget _ := rfl
  goesOn n _ s := by
    simp only [parameters, run_bind, bind_assoc]
    congr 1
    funext r
    simp only [run_accept]
    split <;> simp

/-- The arguments of a call. -/
def inArguments (parse : Precedence → CompileM Unit) : Loop Nat Nat where
  loop left count := arguments parse left count
  round _ count := do
    parse .assignment
    if count = 255 then fail .tooManyArguments
    if ← accept .comma then return .inl (count + 1) else return .inr (count + 1)
  outOfBudget _ := rfl
  goesOn n count s := by
    by_cases hcount : count = 255
    · simp only [arguments, hcount, if_true, run_bind, bind_assoc]
      congr 1
      funext r
      congr 1
      funext r
      simp only [run_accept]
      split <;> simp
    · simp only [arguments, hcount, if_false, run_bind, bind_assoc]
      congr 1
      funext r
      simp only [run_accept]
      split <;> simp

/-! ### What a round passes -/

/-- What passes a token leaves fewer. -/
theorem Passes.left_lt {m : CompileM α} {a : α} (h : m.Passes) (hs : s.Orderly)
    (hne : s.current.kind ≠ .eof) (hrun : m.run s = .ok (a, t)) : t.left < s.left := by
  have hpassed := h s t a hs hrun
  have hpos := Session.left_pos hne
  omega

/-- A round passes a token when it goes on. -/
def GoesPast (m : CompileM (σ ⊕ α)) : Prop :=
  ∀ (s : Session) (y : σ) (t : Session), s.Orderly → m.run s = .ok (.inl y, t) → t.left < s.left

/-- A loop whose rounds go past a token consumes tokens. -/
theorem GoesPast.consumes {L : Loop σ α} (h : ∀ n x, (L.round n x).GoesPast) (hs : s.Orderly) :
    L.Consumes s :=
  fun n x y t hrun => h n x s y t hs hrun

/-- What comes before does not matter if the rest goes past a token. -/
theorem GoesPast.next {first : CompileM β} {next : β → CompileM (σ ⊕ α)}
    (h : ∀ b, (next b).GoesPast) : (first >>= next).GoesPast := by
  intro s y t hs hrun
  rw [run_bind] at hrun
  obtain ⟨⟨b, u⟩, hfirst, hnext⟩ := bind_eq_ok.mp hrun
  exact Nat.lt_of_lt_of_le (h b u y t (first.orderly hs hfirst) hnext) (first.left_le hs hfirst)

/-- What goes on behind a comma has passed it. -/
theorem goesPast_comma (more : σ) (last : α) :
    (accept .comma >>= fun b => if b = true then pure (.inl more) else pure (.inr last) :
      CompileM (σ ⊕ α)).GoesPast := by
  intro s y t hs hrun
  rw [run_bind, run_accept] at hrun
  split at hrun
  next hcomma =>
    cases hrun
    exact passes_advance.left_lt hs (fun heof => by simp [heof] at hcomma) rfl
  next => cases hrun

/-- At the top each round goes past a token or is the last. -/
theorem goesPast_topLevel (budget left : Nat) (x : Unit) :
    ((topLevel budget).round left x).GoesPast := by
  intro s y t hs hrun
  simp only [topLevel] at hrun
  rw [run_bind, run_accept] at hrun
  split at hrun
  next => cases hrun
  next hne => exact (passes_declaration budget).first.left_lt hs hne hrun

/-- Each round of a block goes past a token or is the last. -/
theorem goesPast_inBlock (budget left : Nat) (x : Unit) :
    ((inBlock budget).round left x).GoesPast := by
  intro s y t hs hrun
  simp only [inBlock] at hrun
  rw [run_bind_of_ok (run_currentKind s)] at hrun
  split at hrun
  next =>
    rw [run_bind_of_ok (run_expect ..)] at hrun
    cases hrun
  next hmore =>
    have hne : s.current.kind ≠ .eof := fun heof => hmore (by simp [heof])
    exact (passes_declaration budget).first.left_lt hs hne hrun

/-- Each round of the operators behind an expression goes past a token or is the last. -/
theorem goesPast_behindExpression {parse : Precedence → CompileM Unit} {p : Precedence}
    (hp : p ≠ .none) (canAssign : Bool) (left : Nat) (x : Unit) :
    ((behindExpression parse p canAssign).round left x).GoesPast := by
  intro s y t hs hrun
  simp only [behindExpression] at hrun
  rw [run_bind_of_ok (run_currentKind s)] at hrun
  split at hrun
  next hle => exact passes_advance.first.left_lt hs (ne_eof_of_le hp hle) hrun
  next => cases hrun

/-- Each round of skipping goes past a token or is the last. -/
theorem goesPast_synchronizing (left : Nat) (x : Unit) : (synchronizing.round left x).GoesPast := by
  intro s y t hs hrun
  simp only [synchronizing] at hrun
  rw [run_bind_of_ok (run_currentKind s), run_bind_of_ok (run_previousKind s)] at hrun
  split at hrun
  next => cases hrun
  next hmore =>
    cases hrun
    exact passes_advance.left_lt hs (fun heof => hmore (by simp [heof])) rfl

/-- Each round of the parameters goes past a token or is the last. -/
theorem goesPast_inParameters (left : Nat) (x : Unit) : (inParameters.round left x).GoesPast :=
  .next fun _ => goesPast_comma _ _

/-- Each round of the arguments goes past a token or is the last. -/
theorem goesPast_inArguments (parse : Precedence → CompileM Unit) (left count : Nat) :
    ((inArguments parse).round left count).GoesPast := by
  refine .next fun _ => ?_
  split
  · exact .next fun _ => goesPast_comma _ _
  · exact goesPast_comma _ _

/-! ### In front of the end -/

/-- The handlers of the compiler: what compiles a phrase, or the part of one behind a token. -/
inductive Handler where
  | atStart (canAssign : Bool) (form : PrefixForm)
  | behind (canAssign : Bool) (form : InfixForm)
  | operators (p : Precedence) (canAssign : Bool)
  | expression (p : Precedence)
  | printStatement
  | delStatement
  | returnStatement
  | expressionStatement
  | varDeclaration
  | classDeclaration
  | ifStatement
  | whileStatement
  | forStatement
  | block
  | blockStatement
  | parameters
  | function
  | funDeclaration
  | statement
  | declaration
  | synchronize
  | declarations

namespace Handler

/-- What a handler does on a budget. -/
def compile (budget : Nat) : Handler → CompileM Unit
  | .atStart canAssign form => CompileM.atStart (parsePrecedence budget) canAssign form
  | .behind canAssign form => CompileM.behind (parsePrecedence budget) budget canAssign form
  | .operators p canAssign => CompileM.operators (parsePrecedence budget) p canAssign budget
  | .expression p => parsePrecedence budget p
  | .printStatement => CompileM.printStatement budget
  | .delStatement => CompileM.delStatement budget
  | .returnStatement => CompileM.returnStatement budget
  | .expressionStatement => CompileM.expressionStatement budget
  | .varDeclaration => CompileM.varDeclaration budget
  | .classDeclaration => CompileM.classDeclaration
  | .ifStatement => CompileM.ifStatement (CompileM.statement budget) budget
  | .whileStatement => CompileM.whileStatement (CompileM.statement budget) budget
  | .forStatement => CompileM.forStatement (CompileM.statement budget) budget
  | .block => CompileM.block (CompileM.declaration budget) budget
  | .blockStatement => CompileM.blockStatement (CompileM.declaration budget) budget
  | .parameters => CompileM.parameters budget
  | .function => CompileM.function (CompileM.declaration budget) budget
  | .funDeclaration => CompileM.funDeclaration (CompileM.declaration budget) budget
  | .statement => CompileM.statement budget
  | .declaration => CompileM.declaration budget
  | .synchronize => CompileM.synchronize budget
  | .declarations => CompileM.declarations budget

/-- What stands at the start of an expression is chosen by the token just passed, and an
expression has operators of some level. -/
def Suits (s : Session) : Handler → Prop
  | .atStart _ form => s.previous.kind.rule.atStart = some form
  | .operators p _ | .expression p => p ≠ .none
  | _ => True

/-- In front of the end of the source every handler comes back, on three levels of the recursion
and on every larger budget. -/
theorem exists_run_of_eof (handler : Handler) (hs : s.Bounded) (heof : s.current.kind = .eof)
    (hsuits : handler.Suits s) {budget : Nat} (hbudget : 3 ≤ budget) :
    ∃ t, (handler.compile budget).run s = .ok ((), t) := by
  have hleft : s.left < 1 := by
    rw [Session.left_of_eof heof]
    exact Nat.one_pos
  have hparse {p : Precedence} {k : Nat} (hp : p ≠ .none) :
      (parsePrecedence budget p).Completes .nothing 1 k :=
    (completes_parsePrecedence hp budget).mono (by omega) (Nat.le_refl _)
  have hstatement {k : Nat} : (CompileM.statement budget).Completes .nothing 1 k :=
    (completes_statement_declaration budget).1 (by omega)
  have hdeclaration {k : Nat} : (CompileM.declaration budget).Completes .nothing 1 k :=
    (completes_statement_declaration budget).2 (by omega)
  have hpasses := passes_declaration budget
  have hone : 1 ≤ budget := by omega
  have hcompletes {m : CompileM Unit} (h : m.Completes .nothing 1 0) :
      ∃ t, m.run s = .ok ((), t) := by
    obtain ⟨⟨⟩, t, hrun, -⟩ := h s hs hleft (Nat.zero_le _) trivial
    exact ⟨t, hrun⟩
  cases handler with
  | atStart canAssign form =>
      obtain ⟨⟨⟩, t, hrun, -⟩ :=
        exists_atStart hparse canAssign hs hleft (Nat.zero_le s.chunk.size) hsuits
      exact ⟨t, hrun⟩
  | behind canAssign form => exact hcompletes (completes_behind hparse hone canAssign form)
  | operators p canAssign => exact hcompletes (completes_operators hparse hsuits canAssign hone)
  | expression p => exact hcompletes (hparse hsuits)
  | printStatement => exact hcompletes (completes_printStatement hone)
  | delStatement => exact hcompletes (completes_delStatement hone)
  | returnStatement => exact hcompletes (completes_returnStatement hone)
  | expressionStatement => exact hcompletes (completes_expressionStatement hone)
  | varDeclaration => exact hcompletes (completes_varDeclaration hone)
  | classDeclaration => exact hcompletes completes_classDeclaration
  | ifStatement => exact hcompletes (completes_ifStatement hone hstatement)
  | whileStatement => exact hcompletes (completes_whileStatement hone hstatement)
  | forStatement => exact hcompletes (completes_forStatement hone hstatement)
  | block => exact hcompletes (completes_block hone hdeclaration hpasses)
  | blockStatement => exact hcompletes (completes_blockStatement hone hdeclaration hpasses)
  | parameters => exact hcompletes (completes_parameters hone)
  | function => exact hcompletes (completes_function hone hdeclaration hpasses)
  | funDeclaration => exact hcompletes (completes_funDeclaration hone hdeclaration hpasses)
  | statement => exact hcompletes hstatement
  | declaration => exact hcompletes hdeclaration
  | synchronize =>
      exact hcompletes (Completes.bind (Safe.completes trivial)
        fun _ => completes_skipToStatement hone)
  | declarations => exact hcompletes (completes_loop (by omega) hone)

end Handler

end CompileM

/-! ### Every source -/

/-- What compiling makes of the tokens that are left. Wherever a declaration is compiled and
wherever one of the loops goes on, tokens are passed, and no handler goes on at the end. -/
structure Session.Progresses (s : Session) : Prop where
  declaration : s.current.kind ≠ .eof → ∀ budget t,
    (CompileM.declaration budget).run s = .ok ((), t) → t.left < s.left
  topLevel : ∀ budget, (CompileM.topLevel budget).Consumes s
  inBlock : ∀ budget, (CompileM.inBlock budget).Consumes s
  behindExpression : ∀ parse p canAssign, p ≠ .none →
    (CompileM.behindExpression parse p canAssign).Consumes s
  synchronizing : CompileM.synchronizing.Consumes s
  inParameters : CompileM.inParameters.Consumes s
  inArguments : ∀ parse, (CompileM.inArguments parse).Consumes s
  atEnd : s.current.kind = .eof → ∀ handler : CompileM.Handler, handler.Suits s →
    ∀ budget, 3 ≤ budget → ∃ t, (handler.compile budget).run s = .ok ((), t)

open CompileM in
/-- From every bounded session on all declarations and loops make progress. -/
theorem Session.Bounded.progresses {s : Session} (hs : s.Bounded) : s.Progresses where
  declaration hne budget _ hrun := (passes_declaration budget).left_lt hs.orderly hne hrun
  topLevel budget := GoesPast.consumes (goesPast_topLevel budget) hs.orderly
  inBlock budget := GoesPast.consumes (goesPast_inBlock budget) hs.orderly
  behindExpression _ _ canAssign hp :=
    GoesPast.consumes (goesPast_behindExpression hp canAssign) hs.orderly
  synchronizing := GoesPast.consumes goesPast_synchronizing hs.orderly
  inParameters := GoesPast.consumes goesPast_inParameters hs.orderly
  inArguments parse := GoesPast.consumes (goesPast_inArguments parse) hs.orderly
  atEnd heof handler hsuits _ hbudget := handler.exists_run_of_eof hs heof hsuits hbudget

/-- Every token covers a character. -/
theorem length_ahead_scanFrom_le (found : List Token) (line : UInt32) (cs : List Char) :
    (scanFrom found line cs).ahead.length ≤ found.length + cs.length := by
  induction found, line, cs using scanFrom.induct with
  | case1 found line cs endLine hgap =>
      rw [scanFrom, hgap]
      simp
  | case2 found line cs startLine c rest hgap piece endLine ih =>
      have hskip := length_skipGap_le line false cs
      have hcut : piece.rest.length < (c :: rest).length := Piece.length_rest_lt c rest
      rw [hgap] at hskip
      rw [scanFrom, hgap]
      refine Nat.le_trans ih ?_
      simp only [List.length_cons] at hskip hcut ⊢
      omega

/-- Compiling ends on every source. The depth of the recursion is linear in the length of the
source: the session at the end is the same on every budget of two levels for each character and
three more. On the way there every declaration and every loop makes progress. -/
theorem compile_ends (source : String) {h : Heap} (hw : h.Wf) (host : List Value) :
    ∃ s c, (∀ budget, 2 * source.length + 3 ≤ budget →
        (CompileM.script budget).run (Session.start (TokenStream.ofSource source) h host) =
          .ok ((), s)) ∧
      s.finish = .ok c ∧ compile source h host = .ok c ∧
      ∀ budget u, (CompileM.declarations budget).Visits
        (Session.start (TokenStream.ofSource source) h host).advance u → u.Progresses := by
  have htokens := TokenStream.kind_of_mem_ofSource source
  have hquoted : ∀ t ∈ (TokenStream.ofSource source).ahead, t.Quoted :=
    fun t ht => (TokenStream.legible_of_mem_ofSource source t ht).quoted
  have hlength : (TokenStream.ofSource source).ahead.length ≤ source.length := by
    have hle := length_ahead_scanFrom_le [] 1 source.toList
    rwa [List.length_nil, Nat.zero_add, String.length_toList, ← TokenStream.ofSource_eq] at hle
  obtain ⟨c, hc⟩ := exists_compile source hw host
  obtain ⟨⟨⟨⟩, s⟩, hrun, hfinish⟩ := bind_eq_ok.mp hc
  refine ⟨s, c, fun budget hbudget => ?_, hfinish, hc, fun budget u hu => ?_⟩
  · obtain ⟨s', hrun', -, -⟩ := exists_run_script_of_le hw host budget htokens hquoted
      (by omega)
    -- either of the two budgets may be the larger one
    rcases Nat.le_total budget (Session.budget (TokenStream.ofSource source)) with hle | hle
    · rw [CompileM.embeds_script hle _ _ hrun'] at hrun
      cases hrun
      exact hrun'
    · exact CompileM.embeds_script hle _ _ hrun
  · exact (CompileM.visits_keeps (fun a _ _ _ hs ha => a.bounded hs ha)
      (bounded_advance_start hw htokens hquoted) hu).progresses

/-- A parameter list that the source breaks off in. -/
theorem compile_ends_unfinished : ∃ s c, (∀ budget, 2 * "fun f(a".length + 3 ≤ budget →
      (CompileM.script budget).run
        (Session.start (TokenStream.ofSource "fun f(a") (ofConfig ⟨true, 0, 2⟩) []) =
          .ok ((), s)) ∧
    s.finish = .ok c ∧ compile "fun f(a" (ofConfig ⟨true, 0, 2⟩) [] = .ok c ∧
    ∀ budget u, (CompileM.declarations budget).Visits
      (Session.start (TokenStream.ofSource "fun f(a") (ofConfig ⟨true, 0, 2⟩) []).advance u →
        u.Progresses :=
  compile_ends "fun f(a" (Reachable.ofConfig ⟨true, 0, 2⟩).wf []

end LoxBytecode
