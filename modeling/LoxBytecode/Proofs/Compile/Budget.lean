import LoxBytecode.Proofs.Compile.Function

/-!
# Budgets Decide Nothing

A budget bounds the depth of the recursion in a compilation, and does nothing else: where a
compilation ends on one budget, it ends in the same way on every larger one (`embeds_script`).
One compilation embeds in another when each run of it that ends is a run of the other, which the
rules below carry from the parts of a form to the form.
-/

namespace LoxBytecode

namespace CompileM

variable {α β : Type}

/-- Each run of the first compilation that ends without a fault is one of the second. -/
def Embeds (m m' : CompileM α) : Prop :=
  ∀ (s : Session) (r : α × Session), m.run s = .ok r → m'.run s = .ok r

/-! ### Rules -/

/-- Where a budget has a level to spend, so has a larger one. -/
theorem exists_level {n n' : Nat} (h : n + 1 ≤ n') : ∃ m, n' = m + 1 ∧ n ≤ m :=
  ⟨n' - 1, by omega, by omega⟩

/-- Every compilation embeds in itself. -/
theorem Embeds.refl (m : CompileM α) : m.Embeds m :=
  fun _ _ h => h

/-- What ends with a fault embeds in anything. -/
theorem embeds_fault (f : Fault) (m : CompileM α) : (fault f).Embeds m := by
  rintro s r ⟨⟩

/-- A chain embeds in another if both parts do. -/
theorem Embeds.bind {first first' : CompileM β} {next next' : β → CompileM α}
    (hfirst : first.Embeds first') (hnext : ∀ b, (next b).Embeds (next' b)) :
    (first >>= next).Embeds (first' >>= next') := by
  intro s r hrun
  rw [run_bind] at hrun ⊢
  obtain ⟨⟨b, t⟩, hb, hr⟩ := bind_eq_ok.mp hrun
  exact bind_eq_ok.mpr ⟨(b, t), hfirst s _ hb, hnext b t r hr⟩

/-- A branch embeds in another if both sides do. -/
theorem Embeds.ite {p : Prop} [Decidable p] {yes yes' no no' : CompileM α}
    (hyes : yes.Embeds yes') (hno : no.Embeds no') :
    (if p then yes else no).Embeds (if p then yes' else no') := by
  split
  · exact hyes
  · exact hno

/-- A part embeds in another if its body does. -/
theorem Embeds.part {phrase : Phrase} {m m' : CompileM α} (h : m.Embeds m') :
    (CompileM.part phrase m).Embeds (CompileM.part phrase m') := h

/-! ### Expressions -/

section

variable {parse parse' : Precedence → CompileM Unit} {n n' : Nat}
  (hparse : ∀ p, (parse p).Embeds (parse' p))

include hparse

/-- The use of a variable embeds if the expressions in it do. -/
theorem embeds_namedVariable (canAssign : Bool) :
    (namedVariable parse canAssign).Embeds (namedVariable parse' canAssign) :=
  (Embeds.refl _).bind fun _ => (Embeds.refl _).bind fun _ =>
    .ite ((hparse _).bind fun _ => .refl _) (.refl _)

/-- What stands at the start of an expression embeds if the expressions in it do. -/
theorem embeds_atStart (canAssign : Bool) (form : PrefixForm) :
    (atStart parse canAssign form).Embeds (atStart parse' canAssign form) := by
  cases form with
  | grouping => exact (hparse _).bind fun _ => .refl _
  | unary => exact (Embeds.refl _).bind fun _ => (hparse _).bind fun _ => .refl _
  | identifier => exact embeds_namedVariable hparse canAssign
  | string | number | literal => exact .refl _

/-- Arguments embed in those on a budget that is no smaller. -/
theorem embeds_arguments (hn : n ≤ n') (count : Nat) :
    (arguments parse n count).Embeds (arguments parse' n' count) := by
  induction n generalizing n' count with
  | zero => exact embeds_fault _ _
  | succ n ih =>
      obtain ⟨n', rfl, hle⟩ := exists_level hn
      have hmore : (do
          if ← accept .comma then arguments parse n (count + 1)
          else return count + 1 : CompileM Nat).Embeds (do
          if ← accept .comma then arguments parse' n' (count + 1)
          else return count + 1) :=
        (Embeds.refl _).bind fun _ => .ite (ih hle _) (.refl _)
      refine (hparse _).bind fun _ => ?_
      split
      · exact (Embeds.refl _).bind fun _ => hmore
      · exact hmore

/-- A call embeds in one on a budget that is no smaller. -/
theorem embeds_call (hn : n ≤ n') : (call parse n).Embeds (call parse' n') := by
  refine (Embeds.refl _).bind fun none => .ite (.refl _) ?_
  exact (embeds_arguments hparse hn 0).bind fun _ => .refl _

/-- What stands behind an expression embeds if the expressions in it do. -/
theorem embeds_behind (hn : n ≤ n') (canAssign : Bool) (form : InfixForm) :
    (behind parse n canAssign form).Embeds (behind parse' n' canAssign form) := by
  cases form with
  | call => exact embeds_call hparse hn
  | dot =>
      exact (Embeds.refl _).bind fun _ => (Embeds.refl _).bind fun _ => (Embeds.refl _).bind
        fun _ => .ite ((hparse _).bind fun _ => .refl _) (.refl _)
  | binary => exact (Embeds.refl _).bind fun _ => (hparse _).bind fun _ => .refl _
  | and =>
      exact (Embeds.refl _).bind fun _ => (Embeds.refl _).bind fun _ => (hparse _).bind
        fun _ => .refl _
  | or =>
      exact (Embeds.refl _).bind fun _ => (Embeds.refl _).bind fun _ => (Embeds.refl _).bind
        fun _ => (Embeds.refl _).bind fun _ => (hparse _).bind fun _ => .refl _

/-- Operators in a row embed in those on a budget that is no smaller. -/
theorem embeds_operators (hn : n ≤ n') (p : Precedence) (canAssign : Bool) :
    (operators parse p canAssign n).Embeds (operators parse' p canAssign n') := by
  induction n generalizing n' with
  | zero => exact embeds_fault _ _
  | succ n ih =>
      obtain ⟨n', rfl, hle⟩ := exists_level hn
      refine (Embeds.refl _).bind fun kind => .ite ?_ (.refl _)
      refine (Embeds.refl _).bind fun _ => (Embeds.refl _).bind fun previous => ?_
      cases previous.rule.behind with
      | none => exact ih hle
      | some form => exact (embeds_behind hparse hle canAssign form).bind fun _ => ih hle

end

/-- Expressions of every level embed in those on a greater budget. -/
theorem embeds_parsePrecedence {n n' : Nat} (hn : n ≤ n') (p : Precedence) :
    (parsePrecedence n p).Embeds (parsePrecedence n' p) := by
  induction n generalizing n' p with
  | zero => exact embeds_fault _ _
  | succ n ih =>
      obtain ⟨n', rfl, hle⟩ := exists_level hn
      refine (Embeds.refl _).bind fun _ => (Embeds.refl _).bind fun previous => ?_
      cases previous.rule.atStart with
      | none => exact .refl _
      | some form =>
          exact (embeds_atStart (ih hle) _ form).bind fun _ =>
            (embeds_operators (ih hle) hle p _).bind fun _ => .refl _

/-! ### Statements -/

/-- Skipping embeds in skipping on a greater budget. -/
theorem embeds_skipToStatement {n n' : Nat} (hn : n ≤ n') :
    (skipToStatement n).Embeds (skipToStatement n') := by
  induction n generalizing n' with
  | zero => exact embeds_fault _ _
  | succ n ih =>
      obtain ⟨n', rfl, hle⟩ := exists_level hn
      refine (Embeds.refl _).bind fun _ => (Embeds.refl _).bind fun _ => .ite (.refl _) ?_
      exact (Embeds.refl _).bind fun _ => ih hle

section

variable {n n' : Nat} (hn : n ≤ n')

include hn

/-- An expression embeds in one on a greater budget. -/
theorem embeds_expression : (expression n).Embeds (expression n') :=
  embeds_parsePrecedence hn .assignment

/-- An expression statement embeds in one on a greater budget. -/
theorem embeds_expressionStatement : (expressionStatement n).Embeds (expressionStatement n') :=
  (embeds_expression hn).bind fun _ => .refl _

/-- A deletion embeds in one on a greater budget. -/
theorem embeds_delStatement : (delStatement n).Embeds (delStatement n') :=
  (Embeds.refl _).bind fun _ =>
    (embeds_namedVariable (embeds_parsePrecedence hn) _).bind fun _ => .refl _

/-- A return embeds in one on a greater budget. -/
theorem embeds_returnStatement : (returnStatement n).Embeds (returnStatement n') := by
  have hvalue : (do
      if ← accept .semicolon then emitReturn
      else
        expression n
        expect .semicolon "';' after return value"
        emit .ret [] : CompileM Unit).Embeds (do
      if ← accept .semicolon then emitReturn
      else
        expression n'
        expect .semicolon "';' after return value"
        emit .ret []) :=
    (Embeds.refl _).bind fun _ => .ite (.refl _) ((embeds_expression hn).bind fun _ => .refl _)
  exact (Embeds.refl _).bind fun _ => .ite ((Embeds.refl _).bind fun _ => hvalue) hvalue

/-- A variable declaration embeds in one on a greater budget. -/
theorem embeds_varDeclaration : (varDeclaration n).Embeds (varDeclaration n') :=
  (Embeds.refl _).bind fun _ => (Embeds.refl _).bind fun _ =>
    .ite ((embeds_expression hn).bind fun _ => .refl _) (.refl _)

/-- The first clause of a for loop embeds in one on a greater budget. -/
theorem embeds_forInitializer : (forInitializer n).Embeds (forInitializer n') :=
  (Embeds.refl _).bind fun _ => .ite (.refl _) <| (Embeds.refl _).bind fun _ =>
    .ite (embeds_varDeclaration hn) (embeds_expressionStatement hn)

/-- The second clause of a for loop embeds in one on a greater budget. -/
theorem embeds_forCondition : (forCondition n).Embeds (forCondition n') :=
  (Embeds.refl _).bind fun _ => .ite (.refl _) ((embeds_expression hn).bind fun _ => .refl _)

/-- The last clause of a for loop embeds in one on a greater budget. -/
theorem embeds_forIncrement (start : Nat) :
    (forIncrement n start).Embeds (forIncrement n' start) :=
  (Embeds.refl _).bind fun _ => .ite (.refl _) <| (Embeds.refl _).bind fun _ =>
    (Embeds.refl _).bind fun _ => (embeds_expression hn).bind fun _ => .refl _

/-- Parameters embed in those on a greater budget. -/
theorem embeds_parameters : (parameters n).Embeds (parameters n') := by
  induction n generalizing n' with
  | zero => exact embeds_fault _ _
  | succ n ih =>
      obtain ⟨n', rfl, hle⟩ := exists_level hn
      exact (Embeds.refl _).bind fun _ => (Embeds.refl _).bind fun _ =>
        .ite (ih hle) (.refl _)

section

variable {statement statement' : CompileM Unit} (hstatement : statement.Embeds statement')

include hstatement

/-- A branch embeds if the statements in it do. -/
theorem embeds_ifStatement : (ifStatement statement n).Embeds (ifStatement statement' n') := by
  refine (Embeds.refl _).bind fun _ => (embeds_expression hn).bind fun _ =>
    (Embeds.refl _).bind fun _ => (Embeds.refl _).bind fun _ => (Embeds.refl _).bind fun _ =>
      hstatement.bind fun _ => (Embeds.refl _).bind fun _ => (Embeds.refl _).bind fun _ =>
        (Embeds.refl _).bind fun _ => (Embeds.refl _).bind fun _ => ?_
  exact .ite (hstatement.bind fun _ => .refl _) (.refl _)

/-- A while loop embeds if the statements in it do. -/
theorem embeds_whileStatement :
    (whileStatement statement n).Embeds (whileStatement statement' n') :=
  (Embeds.refl _).bind fun _ => (Embeds.refl _).bind fun _ => (embeds_expression hn).bind
    fun _ => (Embeds.refl _).bind fun _ => (Embeds.refl _).bind fun _ => (Embeds.refl _).bind
      fun _ => hstatement.bind fun _ => .refl _

/-- A for loop embeds if the statements in it do. -/
theorem embeds_forStatement : (forStatement statement n).Embeds (forStatement statement' n') :=
  (Embeds.refl _).bind fun _ => (Embeds.refl _).bind fun _ => (embeds_forInitializer hn).bind
    fun _ => (Embeds.refl _).bind fun start => (embeds_forCondition hn).bind fun _ =>
      (embeds_forIncrement hn start).bind fun _ => hstatement.bind fun _ => .refl _

end

section

variable {declaration declaration' : CompileM Unit}
  (hdeclaration : declaration.Embeds declaration')

include hdeclaration

/-- A block embeds if the declarations in it do. -/
theorem embeds_block : (block declaration n).Embeds (block declaration' n') := by
  induction n generalizing n' with
  | zero => exact embeds_fault _ _
  | succ n ih =>
      obtain ⟨n', rfl, hle⟩ := exists_level hn
      exact (Embeds.refl _).bind fun _ => .ite (.refl _)
        (hdeclaration.bind fun _ => ih hle)

/-- A function embeds if the declarations in it do. -/
theorem embeds_function : (function declaration n).Embeds (function declaration' n') := by
  have hbody : (functionBody declaration n).Embeds (functionBody declaration' n') :=
    (Embeds.refl _).bind fun _ => (Embeds.refl _).bind fun _ =>
      (embeds_block hn hdeclaration).bind fun _ => .refl _
  refine (Embeds.refl _).bind fun _ => (Embeds.refl _).bind fun _ => (Embeds.refl _).bind fun _ =>
    (Embeds.refl _).bind fun _ => (Embeds.refl _).bind fun _ => .ite hbody ?_
  exact (embeds_parameters hn).bind fun _ => hbody

end

end

/-- Statements and declarations embed in those on a greater budget, by induction on the smaller
one. -/
theorem embeds_statement_declaration {n n' : Nat} (hn : n ≤ n') :
    (statement n).Embeds (statement n') ∧ (declaration n).Embeds (declaration n') := by
  induction n generalizing n' with
  | zero => exact ⟨embeds_fault _ _, embeds_fault _ _⟩
  | succ n ih =>
      obtain ⟨n', rfl, hle⟩ := exists_level hn
      obtain ⟨hstatement, hdeclaration⟩ := ih hle
      have hkind {α : Type} {kind : TokenKind} {yes yes' no no' : CompileM α}
          (hyes : yes.Embeds yes') (hno : no.Embeds no') :
          (accept kind >>= fun b => if b = true then yes else no).Embeds
            (accept kind >>= fun b => if b = true then yes' else no') :=
        (Embeds.refl _).bind fun _ => .ite hyes hno
      have hrecovered {body body' : CompileM Unit} (hbody : body.Embeds body') :
          (body >>= fun _ => isRecovering >>= fun b =>
            if b = true then synchronize n else Pure.pure ()).Embeds
          (body' >>= fun _ => isRecovering >>= fun b =>
            if b = true then synchronize n' else Pure.pure ()) :=
        hbody.bind fun _ => (Embeds.refl _).bind fun _ =>
          .ite ((Embeds.refl _).bind fun _ => embeds_skipToStatement hle) (.refl _)
      rw [statement, statement, declaration, declaration]
      refine ⟨.part ?_, .part ?_⟩
      · exact hkind ((embeds_expression hle).bind fun _ => .refl _) <|
          hkind (embeds_delStatement hle) <| hkind (embeds_returnStatement hle) <|
          hkind (embeds_ifStatement hle hstatement) <|
          hkind (embeds_whileStatement hle hstatement) <|
          hkind (embeds_forStatement hle hstatement) <|
          hkind ((Embeds.refl _).bind fun _ => (embeds_block hle hdeclaration).bind
            fun _ => .refl _) <|
          embeds_expressionStatement hle
      · refine hkind (hrecovered (.refl _)) <| hkind (hrecovered ?_) <|
          hkind (hrecovered (embeds_varDeclaration hle)) (hrecovered hstatement)
        exact (Embeds.refl _).bind fun _ => (Embeds.refl _).bind fun _ =>
          (embeds_function hle hdeclaration).bind fun _ => .refl _

/-! ### The whole script -/

/-- The declarations of a script embed in those on a greater budget. -/
theorem embeds_loop {n n' left left' : Nat} (hn : n ≤ n') (hleft : left ≤ left') :
    (declarations.loop n left).Embeds (declarations.loop n' left') := by
  induction left generalizing left' with
  | zero => exact embeds_fault _ _
  | succ left ih =>
      obtain ⟨left', rfl, hle⟩ := exists_level hleft
      refine (Embeds.refl _).bind fun b => .ite (.refl _) ?_
      exact (embeds_statement_declaration hn).2.bind fun _ => ih hle

/-- A script that is compiled on one budget is compiled alike on every larger one. -/
theorem embeds_script {n n' : Nat} (hn : n ≤ n') : (script n).Embeds (script n') :=
  (Embeds.refl _).bind fun _ => (embeds_loop hn hn).bind fun _ => .refl _

end CompileM

end LoxBytecode
