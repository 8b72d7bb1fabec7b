import LoxBytecode.Proofs.Compile.Completes
import LoxBytecode.Proofs.Compile.Source

/-!
# Compiling Always Ends

Every script is compiled without a fault, whatever its tokens are (`exists_compileTokens`). Each
declaration passes a token, so the loops over declarations end; a block takes two levels of the
recursion and passes one token, which is why the budget of a session is a multiple of its tokens.
-/

namespace LoxBytecode

namespace CompileM

variable {α β : Type} {c : Closing} {n k : Nat}

attribute [local simp] Action.Safe Action.Level

/-! ### Tokens that are passed -/

/-- The compilation passes at least one token, if there is one. -/
def Passes (m : CompileM α) : Prop :=
  ∀ (s t : Session) (a : α), s.Orderly → m.run s = .ok (a, t) → t.left ≤ s.left - 1

/-- Moving on passes a token. -/
theorem passes_advance : CompileM.advance.Passes := by
  rintro s _ _ hs ⟨⟩
  exact Nat.le_of_eq (Session.left_advance hs)

/-- A chain passes a token if its first part does. -/
theorem Passes.first {first : CompileM β} {next : β → CompileM α} (h : first.Passes) :
    (first >>= next).Passes := by
  intro s t a hs hrun
  rw [run_bind] at hrun
  obtain ⟨⟨b, u⟩, hfirst, hnext⟩ := bind_eq_ok.mp hrun
  exact Nat.le_trans ((next b).left_le (first.orderly hs hfirst) hnext) (h s u b hs hfirst)

/-- A branch on a token passes that token or does so if the other side does. -/
theorem Passes.acceptThen {kind : TokenKind} {yes no : CompileM α} (hno : no.Passes) :
    (accept kind >>= fun b => if b = true then yes else no).Passes := by
  intro s t a hs hrun
  rw [run_bind, run_accept] at hrun
  split at hrun
  · have hyes : (advance >>= fun _ => yes).Passes := passes_advance.first
    exact hyes s t a hs hrun
  · exact hno s t a hs hrun

/-- An expression passes its first token, whether or not it can be one. -/
theorem passes_parsePrecedence (budget : Nat) (p : Precedence) :
    (parsePrecedence budget p).Passes := by
  cases budget with
  | zero => rintro s t a _ ⟨⟩
  | succ budget => exact passes_advance.first

/-- An expression statement passes its first token. -/
theorem passes_expressionStatement (budget : Nat) : (expressionStatement budget).Passes :=
  (passes_parsePrecedence budget .assignment).first

/-- Every statement passes its first token. -/
theorem passes_statement (budget : Nat) : (statement budget).Passes := by
  cases budget with
  | zero => rintro s t a _ ⟨⟩
  | succ budget =>
      intro s t a hs hrun
      rw [statement, run_part] at hrun
      exact (Passes.acceptThen <| .acceptThen <| .acceptThen <| .acceptThen <| .acceptThen <|
        .acceptThen <| .acceptThen <| passes_expressionStatement budget) s t a hs hrun

/-- Every declaration passes its first token. -/
theorem passes_declaration (budget : Nat) : (declaration budget).Passes := by
  cases budget with
  | zero => rintro s t a _ ⟨⟩
  | succ budget =>
      intro s t a hs hrun
      rw [declaration, run_part] at hrun
      exact (Passes.acceptThen <| .acceptThen <| .acceptThen <| (passes_statement budget).first)
        s t a hs hrun

/-- What follows a token that was passed. -/
theorem Completes.passThen {first : CompileM β} {next : β → CompileM α} {s : Session}
    (hpasses : first.Passes) (hfirst : first.Completes .nothing n k)
    (hnext : ∀ b, (next b).Completes c (n - 1) k) (hs : s.Bounded) (hpos : 0 < s.left)
    (hleft : s.left < n) (hsize : k ≤ s.chunk.size) (hpossible : c.Possible s.functions) :
    ∃ a t, (first >>= next).run s = .ok (a, t) ∧ c.Relates s.functions t.functions := by
  obtain ⟨b, u, hrun, hadvances⟩ := hfirst s hs hleft hsize trivial
  have hpassed := hpasses s u b hs.orderly hrun
  obtain ⟨a, t, hrun', hrelates⟩ := hnext b u (first.bounded hs hrun) (by omega)
    (Nat.le_trans hsize hadvances.size_le) (hpossible.of_advances hadvances)
  exact ⟨a, t, (run_bind_of_ok hrun).trans hrun', hrelates.after hadvances⟩

/-! ### Statements -/

/-- Skipping runs through on a budget of as many tokens as are left. -/
theorem completes_skipToStatement {budget : Nat} (hbudget : n ≤ budget) :
    (skipToStatement budget).Completes .nothing n k := by
  induction budget generalizing n with
  | zero =>
      obtain rfl := Nat.le_zero.mp hbudget
      exact completes_fault
  | succ budget ih =>
      intro s hs hleft hsize _
      rw [skipToStatement, run_bind_of_ok (run_currentKind s),
        run_bind_of_ok (run_previousKind s)]
      split
      next => exact ⟨(), s, rfl, .refl _⟩
      next hmore =>
        have hne : s.current.kind ≠ .eof := fun heof => hmore (by simp [heof])
        exact Completes.passThen passes_advance (Safe.completes trivial)
          (fun _ => ih (by omega)) hs (Session.left_pos hne) hleft hsize trivial

section

variable {budget : Nat} (hbudget : n ≤ budget)

include hbudget

/-- An expression runs through on a budget of as many tokens as are left. -/
theorem completes_expression' : (expression budget).Completes .nothing n k :=
  (completes_expression budget).mono hbudget (Nat.le_refl _)

/-- A print statement runs through on a budget of the tokens left. -/
theorem completes_printStatement : (printStatement budget).Completes .nothing n k :=
  (completes_expression' hbudget).bind fun _ => Safe.completes (by simp)

/-- An expression statement runs through on a budget of the tokens left. -/
theorem completes_expressionStatement : (expressionStatement budget).Completes .nothing n k :=
  (completes_expression' hbudget).bind fun _ => Safe.completes (by simp)

/-- A deletion runs through on a budget of the tokens left. -/
theorem completes_delStatement : (delStatement budget).Completes .nothing n k := by
  refine Completes.bind (Safe.completes (by simp)) fun _ => ?_
  refine (completes_namedVariable (fun hp => ?_) Bool.false).bind fun _ =>
    Safe.completes (by simp)
  exact (completes_parsePrecedence hp budget).mono hbudget (Nat.le_refl _)

/-- A return runs through on a budget of the tokens left. -/
theorem completes_returnStatement : (returnStatement budget).Completes .nothing n k := by
  have hvalue : (do
      if ← accept .semicolon then emitReturn
      else
        expression budget
        expect .semicolon "';' after return value"
        emit .ret [] : CompileM Unit).Completes .nothing n k :=
    .acceptThen (by decide) (Safe.completes (by simp)) <|
      (completes_expression' hbudget).bind fun _ => Safe.completes (by simp)
  refine Completes.bind (Safe.completes (by simp)) fun kind => .ite ?_ hvalue
  exact Completes.bind (Safe.completes trivial) fun _ => hvalue

/-- A variable declaration runs through on a budget of the tokens left. -/
theorem completes_varDeclaration : (varDeclaration budget).Completes .nothing n k := by
  have hrest : ∀ global, (do
      expect .semicolon "';' after variable declaration"
      defineVariable global).Completes .nothing n k :=
    fun global => Safe.completes (by simp)
  refine Completes.bind (Safe.completes (by simp)) fun global => ?_
  refine .acceptThen (by decide) ?_ ?_
  · exact ((completes_expression' hbudget).bind fun _ => hrest global).mono (Nat.sub_le ..)
      (Nat.le_refl _)
  · exact Completes.bind (Safe.completes trivial) fun _ => hrest global

omit hbudget in
/-- A class declaration always runs through. -/
theorem completes_classDeclaration : classDeclaration.Completes .nothing n k :=
  Safe.completes (by simp [classDeclaration])

section

variable {statement : CompileM Unit} (hstatement : ∀ {k}, statement.Completes .nothing n k)

include hstatement

/-- A branch runs through if both sides do, and patches its jumps within the code. -/
theorem completes_ifStatement : (ifStatement statement budget).Completes .nothing n k := by
  refine Completes.bind (Safe.completes (by simp)) fun _ =>
    (completes_expression' hbudget).bind fun _ => Completes.bind (Safe.completes (by simp))
      fun _ => Completes.emitJumpThen fun thenJump => Completes.bind (Safe.completes trivial)
        fun _ => hstatement.bind fun _ => Completes.emitJumpThen fun elseJump =>
          (completes_patchJump (by omega)).bind fun _ =>
            Completes.bind (Safe.completes trivial) fun _ => ?_
  refine .acceptThen (by decide) ?_ (completes_patchJump (by omega))
  exact (hstatement.bind fun _ => completes_patchJump (by omega)).mono (Nat.sub_le ..)
    (Nat.le_refl _)

/-- A while loop runs through if its body does, and leads back within the code. -/
theorem completes_whileStatement : (whileStatement statement budget).Completes .nothing n k := by
  refine Completes.codeSizeThen fun start => Completes.bind (Safe.completes (by simp)) fun _ =>
    (completes_expression' hbudget).bind fun _ => Completes.bind (Safe.completes (by simp))
      fun _ => Completes.emitJumpThen fun exitJump => Completes.bind (Safe.completes trivial)
        fun _ => hstatement.bind fun _ => ?_
  exact (completes_emitLoop (by omega)).bind fun _ =>
    (completes_patchJump (by omega)).bind fun _ => Safe.completes trivial

end

/-- The first clause of a for loop runs through on a budget of the tokens left. -/
theorem completes_forInitializer : (forInitializer budget).Completes .nothing n k := by
  refine .acceptThen (by decide) (Safe.completes trivial) (.acceptThen (by decide) ?_ ?_)
  · exact (completes_varDeclaration hbudget).mono (Nat.sub_le ..) (Nat.le_refl _)
  · exact completes_expressionStatement hbudget

/-- The exit of a loop, where it has one, lies within the code. -/
theorem Completes.forConditionThen {next : Option Nat → CompileM α}
    (hnone : (next none).Completes c n k)
    (hsome : ∀ j, (next (some j)).Completes c n (max k (j + 2))) :
    (forCondition budget >>= next).Completes c n k := by
  refine .acceptThenBind (by decide) ?_ (.assoc ?_)
  · exact Completes.mono (m := next none) hnone (Nat.sub_le ..) (Nat.le_refl _)
  · exact (completes_expression' hbudget).bind fun _ => .assoc <|
      Completes.bind (Safe.completes (by simp)) fun _ => .assoc <| .emitJumpThen fun j => .assoc <|
        Completes.bind (Safe.completes trivial) fun _ => hsome j

/-- Where the body of a loop goes back to lies within the code. -/
theorem Completes.forIncrementThen {start : Nat} (hstart : start ≤ k) {next : Nat → CompileM α}
    (hnext : ∀ j, (next j).Completes c n (max k j)) :
    (forIncrement budget start >>= next).Completes c n k := by
  refine .acceptThenBind (by decide) ?_ (.assoc ?_)
  · exact Completes.mono (m := next start) (hnext start) (Nat.sub_le ..) (by omega)
  · refine .emitJumpThen fun bodyJump => .assoc <| .codeSizeThen fun increment => .assoc <|
      (completes_expression' hbudget).bind fun _ => .assoc <|
        Completes.bind (Safe.completes trivial) fun _ => .assoc <|
          Completes.bind (Safe.completes (by simp)) fun _ => .assoc <|
            (completes_emitLoop (by omega)).bind fun _ => .assoc <|
              (completes_patchJump (by omega)).bind fun _ => ?_
    exact Completes.mono (m := next increment) (hnext increment) (Nat.le_refl _) (by omega)

/-- A for loop runs through in a scope of its own if its body does. -/
theorem completes_forStatement {statement : CompileM Unit}
    (hstatement : ∀ {k}, statement.Completes .nothing n k) :
    (forStatement statement budget).Completes .nothing n k := by
  refine .scoped <| Completes.bind (Safe.completes (by simp)) fun _ =>
    (completes_forInitializer hbudget).bind fun _ => .codeSizeThen fun start =>
      .forConditionThen hbudget ?_ fun exitJump => ?_
  · refine .forIncrementThen hbudget (by omega) fun target => hstatement.bind fun _ => ?_
    exact (completes_emitLoop (by omega)).bind fun _ => completes_endScope
  · refine .forIncrementThen hbudget (by omega) fun target => hstatement.bind fun _ => ?_
    exact (completes_emitLoop (by omega)).bind fun _ => (completes_patchJump (by omega)).bind
      fun _ => Completes.bind (Safe.completes trivial) fun _ => completes_endScope

/-- Parameters run through on a budget of the tokens left. -/
theorem completes_parameters : (parameters budget).Completes .nothing n k := by
  induction budget generalizing n with
  | zero =>
      obtain rfl := Nat.le_zero.mp hbudget
      exact completes_fault
  | succ budget ih =>
      exact Completes.bind (Safe.completes (by simp [parameter])) fun _ =>
        .acceptThen (by decide) (ih (by omega)) (Safe.completes trivial)

section

variable {declaration : CompileM Unit}
  (hdeclaration : ∀ {k}, declaration.Completes .nothing n k) (hpasses : declaration.Passes)

include hdeclaration hpasses

/-- The declarations of a block run through if each of them does. -/
theorem completes_block : (block declaration budget).Completes .nothing n k := by
  induction budget generalizing n with
  | zero =>
      obtain rfl := Nat.le_zero.mp hbudget
      exact completes_fault
  | succ budget ih =>
      intro s hs hleft hsize _
      rw [block, run_bind_of_ok (run_currentKind s)]
      split
      next =>
        exact Safe.completes (m := expect .rightBrace "'\x7d' after block") (by simp) s hs hleft
          hsize trivial
      next hmore =>
        have hne : s.current.kind ≠ .eof := fun heof => hmore (by simp [heof])
        refine Completes.passThen hpasses hdeclaration (fun _ => ih (by omega) ?_) hs
          (Session.left_pos hne) hleft hsize trivial
        exact hdeclaration.mono (Nat.sub_le ..) (Nat.le_refl _)

/-- A block as a statement runs through and ends the scope that it begins. -/
theorem completes_blockStatement :
    (blockStatement declaration budget).Completes .nothing n k :=
  .scoped <| (completes_block hbudget hdeclaration hpasses).bind fun _ => completes_endScope

/-- The body of a function runs through and ends the function. -/
theorem completes_functionBody : (functionBody declaration budget).Completes .function n k :=
  Completes.bind (Safe.completes (by simp)) fun _ => Completes.bind (Safe.completes (by simp))
    fun _ => (completes_block hbudget hdeclaration hpasses).bind fun _ =>
      Completes.bind (Safe.completes (by simp)) fun _ => completes_closeFunction

/-- A function runs through, and ends what it begins. -/
theorem completes_function : (function declaration budget).Completes .nothing n k := by
  refine .inFunction <| Completes.bind (Safe.completes trivial) fun _ => .inScope <|
    Completes.bind (Safe.completes (by simp)) fun _ => Completes.bind (Safe.completes (by simp))
      fun _ => .ite ?_ ?_
  · exact completes_functionBody hbudget hdeclaration hpasses
  · exact (completes_parameters hbudget).bind fun _ =>
      completes_functionBody hbudget hdeclaration hpasses

/-- The declaration of a function runs through. -/
theorem completes_funDeclaration : (funDeclaration declaration budget).Completes .nothing n k :=
  Completes.bind (Safe.completes (by simp)) fun _ => Completes.bind (Safe.completes (by simp))
    fun _ => (completes_function hbudget hdeclaration hpasses).bind fun _ =>
      Safe.completes (by simp)

end

end

/-! ### The whole script -/

/-- Without tokens to be left there is nothing to show. -/
theorem Completes.zero {m : CompileM α} : m.Completes c 0 k :=
  fun _ _ hleft => absurd hleft (Nat.not_lt_zero _)

/-- A declaration completes with the recovery behind it. -/
theorem Completes.recovered {budget : Nat} (hbudget : n ≤ budget) {body : CompileM Unit}
    (hbody : body.Completes .nothing n k) :
    (body >>= fun _ => isRecovering >>= fun b =>
      if b = true then synchronize budget else Pure.pure ()).Completes .nothing n k := by
  refine hbody.bind fun _ => Completes.bind (Safe.completes trivial) fun _ =>
    .ite ?_ (Safe.completes trivial)
  exact Completes.bind (Safe.completes trivial) fun _ => completes_skipToStatement hbudget

/-- The recursion through statements and declarations, on the budget of both. A block takes two
levels of it and passes one token. -/
theorem completes_statement_declaration (budget : Nat) :
    (∀ {n k}, 2 * n ≤ budget → (statement budget).Completes .nothing n k) ∧
      ∀ {n k}, 2 * n + 1 ≤ budget → (declaration budget).Completes .nothing n k := by
  induction budget with
  | zero =>
      refine ⟨fun {n k} hbudget => ?_, fun hbudget => absurd hbudget (by omega)⟩
      obtain rfl : n = 0 := by omega
      exact .zero
  | succ budget ih =>
      obtain ⟨hstatement, hdeclaration⟩ := ih
      refine ⟨fun {n k} hbudget => ?_, fun {n k} hbudget => ?_⟩
      · cases n with
        | zero => exact .zero
        | succ n =>
            rw [statement]
            refine .part (.acceptThen (by decide) ?_ (.acceptThen (by decide) ?_
              (.acceptThen (by decide) ?_ (.acceptThen (by decide) ?_ (.acceptThen (by decide) ?_
                (.acceptThen (by decide) ?_ (.acceptThen (by decide) ?_ ?_)))))))
            · exact completes_printStatement (by omega)
            · exact completes_delStatement (by omega)
            · exact completes_returnStatement (by omega)
            · exact completes_ifStatement (by omega) (hstatement (by omega))
            · exact completes_whileStatement (by omega) (hstatement (by omega))
            · exact completes_forStatement (by omega) (hstatement (by omega))
            · exact completes_blockStatement (by omega) (hdeclaration (by omega))
                (passes_declaration budget)
            · exact completes_expressionStatement (by omega)
      · cases n with
        | zero => exact .zero
        | succ n =>
            rw [declaration]
            refine .part (.acceptThen (by decide) (.recovered (by omega) ?_)
              (.acceptThen (by decide) (.recovered (by omega) ?_) (.acceptThen (by decide)
                (.recovered (by omega) ?_) (.recovered (by omega) ?_))))
            · exact completes_classDeclaration
            · exact completes_funDeclaration (by omega) (hdeclaration (by omega))
                (passes_declaration budget)
            · exact completes_varDeclaration (by omega)
            · exact hstatement (by omega)

/-- Every declaration passes a token, so there are no more than tokens. -/
theorem completes_loop {budget left : Nat} (hbudget : 2 * n + 1 ≤ budget) (hleft : n ≤ left) :
    (declarations.loop budget left).Completes .nothing n k := by
  induction left generalizing n with
  | zero =>
      obtain rfl := Nat.le_zero.mp hleft
      exact .zero
  | succ left ih =>
      intro s hs hlt hsize _
      rw [declarations.loop, run_bind, run_accept]
      split
      next heof =>
        have hfunctions := Session.functions_advance s
        exact ⟨(), s.advance, rfl, hfunctions ▸ .refl _⟩
      next hne =>
        exact Completes.passThen (passes_declaration budget)
          ((completes_statement_declaration budget).2 hbudget) (fun _ => ih (by omega) (by omega))
          hs (Session.left_pos hne) hlt hsize trivial

end CompileM

section

variable {h : Heap} {host : List Value} {tokens : TokenStream}

/-- A compilation is bounded when it has read its first token. -/
theorem bounded_advance_start (hw : h.Wf) (htokens : ∀ t ∈ tokens.ahead, t.kind ≠ .eof)
    (hquoted : ∀ t ∈ tokens.ahead, t.Quoted) :
    (Session.start tokens h host).advance.Bounded where
  orderly := orderly_advance_start hw htokens
  quoted := Session.quoted_readFrom (Token.quoted_eof 1) hquoted
  fits := by
    rw [Session.functions_advance]
    intro st hst
    obtain rfl := List.mem_singleton.mp hst
    exact ⟨Nat.le_of_ble_eq_true rfl, Nat.zero_le _, .nil⟩

/-- Behind the first token no more are left than there were. -/
theorem left_advance_start_le (htokens : ∀ t ∈ tokens.ahead, t.kind ≠ .eof) :
    (Session.start tokens h host).advance.left ≤ tokens.ahead.length := by
  have hremaining : (Session.start tokens h host).advance.remaining =
      tokens.ahead.filter (·.kind ≠ .error) := (Session.readFrom_spec _ htokens).1
  rw [Session.left, hremaining]
  exact List.length_filter_le ..

/-- The compilation of a script ends on every budget that leaves two levels for each token, and
what it begins inside the script it ends. -/
theorem exists_advances_script (hw : h.Wf) (host : List Value) (budget : Nat)
    (htokens : ∀ t ∈ tokens.ahead, t.kind ≠ .eof) (hquoted : ∀ t ∈ tokens.ahead, t.Quoted)
    (hbudget : 2 * tokens.ahead.length + 3 ≤ budget) :
    ∃ s, (CompileM.script budget).run (Session.start tokens h host) = .ok ((), s) ∧
      s.Bounded ∧ (Session.start tokens h host).functions.Advances s.functions := by
  have hbounded : (Session.start tokens h host).advance.Bounded :=
    bounded_advance_start hw htokens hquoted
  have hleft : (Session.start tokens h host).advance.left ≤ tokens.ahead.length :=
    left_advance_start_le htokens
  have hrest : (CompileM.declarations budget >>= fun _ =>
      CompileM.emitReturn).Completes .nothing (tokens.ahead.length + 1) 0 := by
    refine CompileM.Completes.bind ?_ fun _ =>
      CompileM.Safe.completes (by simp [Action.Safe, Action.Level])
    exact CompileM.completes_loop (by omega) (by omega)
  obtain ⟨⟨⟩, s, hrun, hadvances⟩ :=
    hrest _ hbounded (Nat.lt_succ_of_le hleft) (Nat.zero_le _) trivial
  refine ⟨s, hrun, CompileM.bounded _ hbounded hrun, ?_⟩
  rwa [Session.functions_advance] at hadvances

/-- On every budget that leaves two levels for each token the compilation of a script ends, with all
its functions ended. -/
theorem exists_run_script_of_le (hw : h.Wf) (host : List Value) (budget : Nat)
    (htokens : ∀ t ∈ tokens.ahead, t.kind ≠ .eof) (hquoted : ∀ t ∈ tokens.ahead, t.Quoted)
    (hbudget : 2 * tokens.ahead.length + 3 ≤ budget) :
    ∃ s, (CompileM.script budget).run (Session.start tokens h host) = .ok ((), s) ∧
      s.Bounded ∧ s.functions.enclosing = [] := by
  obtain ⟨s, hrun, hbounded, hadvances⟩ :=
    exists_advances_script hw host budget htokens hquoted hbudget
  exact ⟨s, hrun, hbounded, List.forall₂_nil_left_iff.mp (List.forall₂_cons.mp hadvances).2⟩

/-- The compilation of a script ends on the budget of a session. -/
theorem exists_run_script (hw : h.Wf) (host : List Value) (htokens : ∀ t ∈ tokens.ahead, t.kind ≠ .eof)
    (hquoted : ∀ t ∈ tokens.ahead, t.Quoted) :
    ∃ s, (CompileM.script (Session.budget tokens)).run (Session.start tokens h host) =
        .ok ((), s) ∧ s.Bounded ∧ s.functions.enclosing = [] :=
  exists_run_script_of_le hw host _ htokens hquoted (by rw [Session.budget]; omega)

/-- A compilation runs through, stores its script, and answers with it or with diagnostics. -/
theorem exists_finish (hw : h.Wf) (host : List Value) (htokens : ∀ t ∈ tokens.ahead, t.kind ≠ .eof)
    (hquoted : ∀ t ∈ tokens.ahead, t.Quoted) :
    ∃ s k, (CompileM.script (Session.budget tokens)).run (Session.start tokens h host) =
        .ok ((), s) ∧
      s.Orderly ∧ s.functions.enclosing = [] ∧
      s.heap.modifyFunction s.functions.current.function (fun o =>
        { o with
          arity := s.functions.current.arity
          upvalueCount := s.functions.current.upvalues.length
          chunk := s.functions.current.chunk }) = .ok k ∧
      compileTokens tokens h host = .ok ⟨if s.diagnostics.isEmpty
        then .ok s.functions.current.function else .error s.diagnostics.toList, k⟩ := by
  obtain ⟨s, hrun, hbounded, henclosing⟩ := exists_run_script hw host htokens hquoted
  have hscript : s.functions.script = s.functions.current := by
    rw [FunctionStack.script, henclosing]
    rfl
  obtain ⟨k, hk⟩ := Heap.exists_modifyFunction (hbounded.orderly.sound.live_handle
    (f := s.functions.current.function) (List.mem_cons_self ..)) fun o =>
      { o with
        arity := s.functions.current.arity
        upvalueCount := s.functions.current.upvalues.length
        chunk := s.functions.current.chunk }
  have hstore : s.store s.functions.current = .ok { s with heap := k } := by
    simp only [Session.store, Session.changeHeap, hk]
  refine ⟨s, k, hrun, hbounded.orderly, henclosing, hk, ?_⟩
  rw [compileTokens, hrun, ok_bind]
  show s.finish = _
  rw [Session.finish, hscript, hstore, ok_bind]
  split <;> rfl

/-- Tokens are compiled without a fault, into a script or into diagnostics. -/
theorem exists_compileTokens (hw : h.Wf) (htokens : ∀ t ∈ tokens.ahead, t.kind ≠ .eof)
    (hquoted : ∀ t ∈ tokens.ahead, t.Quoted) : ∃ c, compileTokens tokens h host = .ok c := by
  obtain ⟨s, k, -, -, -, -, hcompile⟩ := exists_finish hw host htokens hquoted
  exact ⟨_, hcompile⟩

end

end LoxBytecode
