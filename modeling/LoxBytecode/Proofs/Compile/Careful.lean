import LoxBytecode.Proofs.Compile.Function
import LoxBytecode.Proofs.Compile.Only
import LoxBytecode.Proofs.Session.Careful

/-!
# The Compiler is Careful

Compiling never initializes slot 0, and never loads a number or a string where none was passed, on
error paths either (`respects_statement_declaration`). Between the declaration of a local and its
initialization stands an expression, which leaves the scopes of all functions alone, or a function,
which pushes one and takes it back. Statements leave the functions around alone. That is the
`Spared` part of the stack, and `Respects` carries it through all forms of the language.
-/

namespace LoxBytecode

/-- What a compilation leaves alone of the scopes on the stack: all of them, those of the
functions around, or those of the functions around the one that it ends. -/
inductive Spared where
  | all
  | outer
  | ends
deriving DecidableEq

def Spared.Relates : Spared → Session → Session → Prop
  | .all, s, t => t.lexicals = s.lexicals
  | .outer, s, t => t.lexicals.tail = s.lexicals.tail
  | .ends, s, t => t.lexicals = s.lexicals.tail

namespace CompileM

variable {α β γ : Type} {fr : Spared} {declared : Bool} {s : Session}

/-- From a session the compilation is careful, and leaves alone what it should. -/
def RespectsFrom (fr : Spared) (m : CompileM α) (s : Session) : Prop :=
  m.Careful s ∧ ∀ a t, m.run s = .ok (a, t) → fr.Relates s t

/-- The compilation does so from every session, or from those where a local was declared. -/
def Respects (declared : Bool) (fr : Spared) (m : CompileM α) : Prop :=
  ∀ s : Session, s.Grounded → (declared = true → s.Declared) → m.RespectsFrom fr s

/-! ### Rules -/

/-- What is respected from every session is so from those where a local was declared. -/
theorem Respects.of_any {m : CompileM α} (h : m.Respects false fr) : m.Respects declared fr :=
  fun s hs _ => h s hs (fun hfalse => Bool.noConfusion hfalse)

/-- Grounded sessions are among those that a compilation starts from. -/
theorem Respects.start {m : CompileM α} (h : m.Respects false fr) (hs : s.Grounded) :
    m.RespectsFrom fr s :=
  h s hs fun hfalse => Bool.noConfusion hfalse

/-- What leaves all scopes alone leaves those around alone. -/
theorem Respects.outer {m : CompileM α} (h : m.Respects declared .all) :
    m.Respects declared .outer := by
  intro s hs hdeclared
  obtain ⟨hcareful, hframe⟩ := h s hs hdeclared
  exact ⟨hcareful, fun a t hrun => congrArg List.tail (hframe a t hrun)⟩

/-- A chain is careful if both parts are, where the first leaves all scopes alone. -/
theorem RespectsFrom.bind {first : CompileM β} {next : β → CompileM α}
    (hfirst : first.RespectsFrom .all s)
    (hnext : ∀ b t, first.run s = .ok (b, t) → (next b).RespectsFrom fr t) :
    (first >>= next).RespectsFrom fr s := by
  refine ⟨⟨hfirst.1, fun b t hrun => (hnext b t hrun).1⟩, fun a t hrun => ?_⟩
  rw [run_bind] at hrun
  obtain ⟨⟨b, u⟩, hb, ha⟩ := bind_eq_ok.mp hrun
  have hu : u.lexicals = s.lexicals := hfirst.2 b u hb
  have hrelates := (hnext b u hb).2 a t ha
  cases fr <;> simpa only [Spared.Relates, hu] using hrelates

/-- What comes before leaves all scopes alone. -/
theorem Respects.bind {first : CompileM β} {next : β → CompileM α}
    (hfirst : first.Respects false .all) (hnext : ∀ b, (next b).Respects declared fr) :
    (first >>= next).Respects declared fr := by
  intro s hs hdeclared
  have hfrom := hfirst.of_any s hs hdeclared
  refine hfrom.bind fun b t hb => hnext b t (hfrom.1.grounded hs hb) fun hd => ?_
  exact (hdeclared hd).of_lexicals (hfrom.2 b t hb)

/-- What comes before leaves the scopes around alone. -/
theorem Respects.andThen {first : CompileM β} {next : β → CompileM α}
    (hfr : fr ≠ .all) (hfirst : first.Respects declared .outer)
    (hnext : ∀ b, (next b).Respects false fr) : (first >>= next).Respects declared fr := by
  intro s hs hdeclared
  obtain ⟨hcareful, hframe⟩ := hfirst s hs hdeclared
  have hafter (b : β) (t : Session) (hb : first.run s = .ok (b, t)) :=
    (hnext b).start (hcareful.grounded hs hb)
  refine ⟨⟨hcareful, fun b t hb => (hafter b t hb).1⟩, fun a t hrun => ?_⟩
  rw [run_bind] at hrun
  obtain ⟨⟨b, u⟩, hb, ha⟩ := bind_eq_ok.mp hrun
  have hu : u.lexicals.tail = s.lexicals.tail := hframe b u hb
  have hrelates := (hafter b u hb).2 a t ha
  cases fr with
  | all => exact absurd rfl hfr
  | outer | ends => exact Eq.trans hrelates hu

/-- What comes after leaves all scopes alone that there are still. -/
theorem Respects.before {first : CompileM β} {next : β → CompileM α}
    (hfirst : first.Respects declared fr) (hnext : ∀ b, (next b).Respects false .all) :
    (first >>= next).Respects declared fr := by
  intro s hs hdeclared
  obtain ⟨hcareful, hframe⟩ := hfirst s hs hdeclared
  have hafter (b : β) (t : Session) (hb : first.run s = .ok (b, t)) :=
    (hnext b).start (hcareful.grounded hs hb)
  refine ⟨⟨hcareful, fun b t hb => (hafter b t hb).1⟩, fun a t hrun => ?_⟩
  rw [run_bind] at hrun
  obtain ⟨⟨b, u⟩, hb, ha⟩ := bind_eq_ok.mp hrun
  have ht : t.lexicals = u.lexicals := (hafter b u hb).2 a t ha
  have hrelates := hframe b u hb
  cases fr <;> simpa only [Spared.Relates, ht] using hrelates

/-- A branch respects what both sides do. -/
theorem Respects.ite {p : Prop} [Decidable p] {yes no : CompileM α}
    (hyes : yes.Respects declared fr) (hno : no.Respects declared fr) :
    (if p then yes else no).Respects declared fr := by
  split
  · exact hyes
  · exact hno

/-- Marking a phrase changes nothing. -/
theorem Respects.part {phrase : Phrase} {m : CompileM α} (h : m.Respects declared fr) :
    (CompileM.part phrase m).Respects declared fr := h

/-- A chain whose first part is a chain. -/
theorem Respects.assoc {first : CompileM β} {next : β → CompileM γ} {last : γ → CompileM α}
    (h : (first >>= fun b => next b >>= last).Respects declared fr) :
    ((first >>= next) >>= last).Respects declared fr := by
  intro s hs hdeclared
  obtain ⟨⟨hfirst, hrest⟩, hframe⟩ := h s hs hdeclared
  refine ⟨⟨⟨hfirst, fun b t hb => (hrest b t hb).1⟩, fun c t hc => ?_⟩, fun a t hrun => ?_⟩
  · rw [run_bind] at hc
    obtain ⟨⟨b, u⟩, hb, hc⟩ := bind_eq_ok.mp hc
    exact (hrest b u hb).2 c t hc
  · refine hframe a t ?_
    simpa only [run_bind, bind_assoc] using hrun

/-- A compilation that goes wrong leaves no session to ask about. -/
theorem respects_fault {f : Fault} : (fault f : CompileM α).Respects declared fr :=
  fun _ _ _ => ⟨trivial, by rintro a t ⟨⟩⟩

/-! ### Compilations that leave all scopes alone -/

/-- The compilation leaves all scopes alone, and is careful wherever it is carried out. -/
abbrev Tame (m : CompileM α) : Prop :=
  m.Only (fun _ => True) fun a => a.Tame ∧ ∀ s, a.Careful s

/-- An action that leaves all scopes alone only has to be careful. -/
theorem respects_act {a : Action α} (ha : a.Tame) (hcareful : ∀ s, a.Careful s) :
    (act a).Respects false .all :=
  fun s _ _ => ⟨hcareful s, fun _ _ hrun => Action.lexicals_of_tame hrun ha⟩

/-- A compilation that leaves all scopes alone respects them. -/
theorem Tame.respects {m : CompileM α} (hm : m.Tame) : m.Respects declared .all := by
  refine Respects.of_any ?_
  induction m with
  | done result =>
      cases result with
      | error fault => exact respects_fault
      | ok a =>
          refine fun s _ _ => ⟨trivial, ?_⟩
          rintro _ _ ⟨⟩
          rfl
  | ask q =>
      refine fun s _ _ => ⟨trivial, ?_⟩
      rintro _ _ ⟨⟩
      rfl
  | act a => exact respects_act hm.1 hm.2
  | chain first next ihFirst ihNext => exact (ihFirst hm.1).bind fun b => ihNext b (hm.2 b)
  | part phrase body ih => exact ih hm

/-- A compilation that leaves all scopes alone leaves those of the functions around alone. -/
theorem Respects.tame {m : CompileM α} (hm : m.Tame) : m.Respects declared .outer :=
  hm.respects.outer

/-- What comes before is tame. -/
theorem Respects.skip {first : CompileM β} (hfirst : first.Tame) {next : β → CompileM α}
    (hnext : ∀ b, (next b).Respects declared fr) : (first >>= next).Respects declared fr :=
  hfirst.respects.bind hnext

attribute [local simp] Action.Tame Action.Careful

/-! ### Scopes and declarations -/

/-- What happens to the current function leaves those around alone. -/
theorem respects_modifyFunction {a : Action Unit} {f : FunctionState → FunctionState}
    (ha : ∀ s, a.apply s = .ok ((), s.modifyFunction f)) (hcareful : ∀ s, a.Careful s) :
    (act a).Respects false .outer := by
  refine fun s _ _ => ⟨hcareful s, fun _ t hrun => ?_⟩
  rw [run_act, ha] at hrun
  cases hrun
  rfl

/-- Beginning a scope leaves the functions around alone. -/
theorem respects_beginScope : beginScope.Respects false .outer :=
  respects_modifyFunction (fun _ => rfl) fun _ => trivial

/-- Ending a scope leaves the functions around alone. -/
theorem respects_endScope : CompileM.endScope.Respects false .outer := by
  refine Respects.before (fun s _ _ => ⟨trivial, fun flags t hrun => ?_⟩)
    fun flags => Tame.respects (by simp)
  obtain ⟨⟨flags', st⟩, -, ht⟩ := bind_eq_ok.mp hrun
  cases ht
  rfl

/-- Behind a declaration a local may be initialized. -/
theorem Respects.declareThen {next : Unit → CompileM α} (hfr : fr ≠ .all)
    (hnext : (next ()).Respects true fr) : (declareVariable >>= next).Respects false fr := by
  intro s hs _
  have hdeclare : s.declare.lexicals.tail = s.lexicals.tail := by
    rw [Session.declare]
    split
    · rfl
    · exact congrArg List.tail (Session.lexicals_of_functions (Session.functions_report ..))
  have hafter : ∀ t, declareVariable.run s = .ok ((), t) →
      t.Grounded ∧ t.Declared ∧ t.lexicals.tail = s.lexicals.tail := by
    intro t hrun
    by_cases htop : s.functions.current.scopeDepth = 0
    · simp [declareVariable, atTopScope, Query.answer, htop] at hrun
      cases hrun
      exact ⟨hs, Or.inl htop, rfl⟩
    · simp [declareVariable, atTopScope, Query.answer, htop, Action.apply] at hrun
      cases hrun
      exact ⟨hs.declare.1, hs.declare.2, hdeclare⟩
  have hcareful : declareVariable.Careful s := by
    refine ⟨trivial, fun top t _ => ?_⟩
    cases top <;> exact trivial
  have hrest (t : Session) (hrun : declareVariable.run s = .ok ((), t)) :
      (next ()).RespectsFrom fr t :=
    hnext t (hafter t hrun).1 fun _ => (hafter t hrun).2.1
  refine ⟨⟨hcareful, fun _ t hrun => (hrest t hrun).1⟩, fun a t hrun => ?_⟩
  rw [run_bind] at hrun
  obtain ⟨⟨⟨⟩, u⟩, hu, ha⟩ := bind_eq_ok.mp hrun
  have hrelates := (hrest u hu).2 a t ha
  cases fr with
  | all => exact absurd rfl hfr
  | outer | ends => exact Eq.trans hrelates (hafter u hu).2.2

/-- Behind a name a local may be initialized. -/
theorem Respects.nameThen {what : String} {next : UInt8 → CompileM α} (hfr : fr ≠ .all)
    (hnext : ∀ global, (next global).Respects true fr) :
    (parseVariable what >>= next).Respects false fr := by
  have hname : (do
      if ← atTopScope then nameConstant else return 0 : CompileM UInt8).Tame := by simp
  exact .assoc <| .skip (by simp) fun _ => .assoc <|
    .declareThen hfr <| (hname.respects).bind hnext

/-- A local that was initialized may be initialized again. -/
theorem Respects.initializedThen {next : Unit → CompileM α} (hfr : fr ≠ .all)
    (hnext : (next ()).Respects true fr) : (markInitialized >>= next).Respects true fr := by
  intro s hs hdeclared
  have hd := hdeclared rfl
  have hrun' : markInitialized.run s = .ok ((), s.modifyFunction FunctionState.markInitialized) :=
    rfl
  have hcareful : markInitialized.Careful s := hd
  have hafter : (s.modifyFunction FunctionState.markInitialized).Declared := by
    show FunctionState.scopeDepth (FunctionState.markInitialized _) = 0 ∨
      2 ≤ (FunctionState.markInitialized _).locals.length
    rw [FunctionState.markInitialized]
    split
    next hdepth hlocals => exact hd.imp id fun h => by simpa [hlocals] using h
    next => exact hd
  have hrest := hnext _ (hcareful.grounded hs hrun') fun _ => hafter
  refine ⟨⟨hcareful, fun _ t hrun => ?_⟩, fun a t hrun => ?_⟩
  · cases hrun
    exact hrest.1
  · have hrelates := hrest.2 a t hrun
    cases fr with
    | all => exact absurd rfl hfr
    | outer | ends => exact hrelates

/-- A variable can be defined once its local was declared. -/
theorem respects_defineVariable (global : UInt8) :
    (defineVariable global).Respects true .outer := by
  refine .skip (by simp) fun top => .ite ?_ ?_
  · exact .tame (by simp)
  · refine fun s hs hd => ⟨hd rfl, ?_⟩
    rintro _ _ ⟨⟩
    rfl

/-! ### Expressions -/

section

variable {parse : Precedence → CompileM Unit} (hparse : ∀ p, (parse p).Respects false .all)

include hparse

/-- A name leaves all scopes alone, whether it is read or assigned. -/
theorem respects_namedVariable (canAssign : Bool) :
    (namedVariable parse canAssign).Respects false .all := by
  refine Respects.skip (by simp) fun access =>
    Respects.bind (Tame.respects ?_) fun _ => .ite ?_ (Tame.respects (by simp))
  · cases canAssign <;> simp
  · exact (hparse _).bind fun _ => Tame.respects (by simp)

/-- Arguments leave all scopes alone if an operand does. -/
theorem respects_arguments (budget count : Nat) :
    (arguments parse budget count).Respects false .all := by
  induction budget generalizing count with
  | zero => exact respects_fault
  | succ budget ih =>
      have hmore : (do
          if ← accept .comma then arguments parse budget (count + 1)
          else return count + 1 : CompileM Nat).Respects false .all :=
        .skip (by simp) fun _ => .ite (ih _) (Tame.respects (by simp))
      refine (hparse _).bind fun _ => ?_
      split
      · exact .skip (by simp) fun _ => hmore
      · exact hmore

/-- An operator behind an operand leaves all scopes alone. -/
theorem respects_behind (budget : Nat) (canAssign : Bool) (form : InfixForm) :
    (behind parse budget canAssign form).Respects false .all := by
  have haccept : (acceptIf canAssign .equal).Respects false .all := by
    cases canAssign <;> exact Tame.respects (by simp)
  cases form with
  | call =>
      refine .skip (by simp) fun none => .ite ?_ ?_
      · exact Tame.respects (by simp)
      · exact (respects_arguments hparse budget 0).bind fun _ => Tame.respects (by simp)
  | dot =>
      refine .skip (by simp) fun _ =>
        .skip (by simp) fun _ => haccept.bind fun _ =>
          .ite ?_ (Tame.respects (by simp))
      exact (hparse _).bind fun _ => Tame.respects (by simp)
  | binary =>
      exact .skip (by simp) fun operator => (hparse _).bind
        fun _ => Tame.respects (by simp)
  | and =>
      exact .skip (by simp) fun _ => .skip (by simp) fun _ => (hparse _).bind fun _ =>
        Tame.respects (by simp)
  | or =>
      exact .skip (by simp) fun _ => .skip (by simp) fun _ => .skip (by simp) fun _ =>
        .skip (by simp) fun _ => (hparse _).bind fun _ => Tame.respects (by simp)

/-- A number is loaded behind a number, and a string behind a string. -/
theorem respectsFrom_atStart {form : PrefixForm} (canAssign : Bool) (hs : s.Grounded)
    (hform : s.previous.kind.rule.atStart = some form) :
    (atStart parse canAssign form).RespectsFrom .all s := by
  have hany {m : CompileM Unit} (h : m.Respects false .all) : m.RespectsFrom .all s :=
    h.start hs
  cases form with
  | grouping => exact hany <| (hparse _).bind fun _ => Tame.respects (by simp)
  | unary =>
      exact hany <| .skip (by simp) fun _ => (hparse _).bind
        fun _ => Tame.respects (by simp)
  | identifier => exact hany <| respects_namedVariable hparse canAssign
  | literal =>
      exact hany <| .skip (by simp) fun _ => Tame.respects (by simp)
  | number | string =>
      refine ⟨?_, fun _ _ hrun => Action.lexicals_of_tame hrun trivial⟩
      show s.previous.kind = _
      generalize s.previous.kind = kind at hform
      cases kind <;> cases hform
      rfl

/-- Any number of operators leave all scopes alone. -/
theorem respects_operators (p : Precedence) (canAssign : Bool) (budget : Nat) :
    (operators parse p canAssign budget).Respects false .all := by
  induction budget with
  | zero => exact respects_fault
  | succ budget ih =>
      refine .skip (by simp) fun kind => .ite ?_ (Tame.respects (by simp))
      refine .skip (by simp) fun _ =>
        .skip (by simp) fun previous => ?_
      cases previous.rule.behind with
      | none => exact ih
      | some form => exact (respects_behind hparse budget canAssign form).bind fun _ => ih

end

/-- Operands at any level leave all scopes alone, by induction on the budget. -/
theorem respects_parsePrecedence (budget : Nat) (p : Precedence) :
    (parsePrecedence budget p).Respects false .all := by
  induction budget generalizing p with
  | zero => exact respects_fault
  | succ budget ih =>
      intro s hs hd
      have hadvance : CompileM.advance.RespectsFrom .all s :=
        (Tame.respects (m := CompileM.advance) (by simp)) s hs hd
      refine hadvance.bind fun _ t ht => ?_
      have hground : t.Grounded := hadvance.1.grounded hs ht
      have hkind : previousKind.RespectsFrom .all t := by
        refine ⟨trivial, ?_⟩
        rintro _ _ ⟨⟩
        rfl
      refine hkind.bind fun previous u hu => ?_
      cases hu
      have hanswer : Query.answer t .previousKind = t.previous.kind := rfl
      rw [hanswer]
      cases hform : t.previous.kind.rule.atStart with
      | none => exact Respects.start (Tame.respects (by simp)) hground
      | some form =>
          have hstart := respectsFrom_atStart ih (decide (p ≤ .assignment)) hground hform
          refine hstart.bind fun _ u hu => Respects.start ?_ (hstart.1.grounded hground hu)
          refine (respects_operators ih p _ budget).bind fun _ => ?_
          cases decide (p ≤ .assignment) <;> exact Tame.respects (by simp)

/-- Expressions leave all scopes alone. -/
theorem respects_expression (budget : Nat) : (expression budget).Respects false .all :=
  respects_parsePrecedence budget .assignment

/-! ### Statements -/

/-- Expression statements leave all scopes alone. -/
theorem respects_expressionStatement (budget : Nat) :
    (expressionStatement budget).Respects false .all :=
  (respects_expression budget).bind fun _ => Tame.respects (by simp)

/-- Deletions leave all scopes alone. -/
theorem respects_delStatement (budget : Nat) : (delStatement budget).Respects false .all :=
  .skip (by simp) fun _ =>
    (respects_namedVariable (respects_parsePrecedence budget) false).bind fun _ =>
      Tame.respects (by simp)

/-- Returns leave all scopes alone. -/
theorem respects_returnStatement (budget : Nat) : (returnStatement budget).Respects false .all := by
  have hvalue : (do
      if ← accept .semicolon then emitReturn
      else
        expression budget
        expect .semicolon "';' after return value"
        emit .ret [] : CompileM Unit).Respects false .all :=
    .skip (by simp) fun _ => .ite (Tame.respects (by simp)) <|
      (respects_expression budget).bind fun _ => Tame.respects (by simp)
  refine .skip (by simp) fun kind => .ite ?_ hvalue
  exact .skip (by simp) fun _ => hvalue

/-- Between the declaration of a variable and its initialization stands an expression. -/
theorem respects_varDeclaration (budget : Nat) : (varDeclaration budget).Respects false .outer := by
  have hrest (global : UInt8) : (do
      expect .semicolon "';' after variable declaration"
      defineVariable global).Respects true .outer :=
    .skip (by simp) fun _ => respects_defineVariable global
  refine .nameThen (by decide) fun global => .skip (by simp) fun _ =>
    .ite ?_ ?_
  · exact (respects_expression budget).bind fun _ => hrest global
  · exact .skip (by simp) fun _ => hrest global

/-- A class declares a name in the innermost function at most. -/
theorem respects_classDeclaration : classDeclaration.Respects false .outer := by
  refine .skip (by simp) fun _ => .skip (by simp)
    fun name => .declareThen (by decide) ?_
  refine .skip (by simp) fun _ => ?_
  exact (respects_defineVariable name).andThen (by decide) fun _ =>
    .tame (by simp)

section

variable {statement : CompileM Unit} (hstatement : statement.Respects false .outer)

include hstatement

/-- A branch leaves the functions around alone if statements do. -/
theorem respects_ifStatement (budget : Nat) :
    (ifStatement statement budget).Respects false .outer := by
  refine .skip (by simp) fun _ => (respects_expression budget).bind
    fun _ => .skip (by simp) fun _ => .skip (by simp) fun _ => .skip (by simp) fun _ =>
        hstatement.andThen (by decide) fun _ => .skip (by simp) fun _ =>
          .skip (by simp) fun _ => .skip (by simp) fun _ => .skip (by simp) fun _ => ?_
  refine .ite ?_ (.tame (by simp))
  exact hstatement.andThen (by decide) fun _ => .tame (by simp)

/-- A while loop leaves the functions around alone if statements do. -/
theorem respects_whileStatement (budget : Nat) :
    (whileStatement statement budget).Respects false .outer := by
  refine .skip (by simp) fun start => .skip (by simp) fun _ =>
    (respects_expression budget).bind fun _ => .skip (by simp) fun _ => .skip (by simp) fun _ =>
      .skip (by simp) fun _ => hstatement.andThen (by decide) fun _ => ?_
  exact Respects.skip (by simp) fun _ => .tame (by simp)

end

/-- The first clause of a for loop declares at most one local. -/
theorem respects_forInitializer (budget : Nat) :
    (forInitializer budget).Respects false .outer :=
  .skip (by simp) fun _ =>
    .ite (.tame (by simp)) <|
      .skip (by simp) fun _ =>
        .ite (respects_varDeclaration budget) (respects_expressionStatement budget).outer

/-- The condition of a for loop leaves all scopes alone. -/
theorem respects_forCondition (budget : Nat) : (forCondition budget).Respects false .all :=
  .skip (by simp) fun _ => .ite (Tame.respects (by simp)) <|
    (respects_expression budget).bind fun _ => Tame.respects (by simp)

/-- The last clause of a for loop leaves all scopes alone. -/
theorem respects_forIncrement (budget start : Nat) :
    (forIncrement budget start).Respects false .all := by
  refine .skip (by simp) fun _ => .ite (Tame.respects (by simp)) ?_
  refine .skip (by simp) fun _ => .skip (by simp)
    fun _ => (respects_expression budget).bind fun _ => .skip (by simp)
      fun _ => .skip (by simp) fun _ => ?_
  exact Tame.respects (by simp)

/-- A for loop leaves the functions around alone if statements do. -/
theorem respects_forStatement {statement : CompileM Unit}
    (hstatement : statement.Respects false .outer) (budget : Nat) :
    (forStatement statement budget).Respects false .outer := by
  refine respects_beginScope.andThen (by decide) fun _ => .skip (by simp) fun _ =>
    (respects_forInitializer budget).andThen (by decide) fun _ => .skip (by simp) fun start =>
      (respects_forCondition budget).bind fun exitJump =>
        (respects_forIncrement budget start).bind fun target =>
          hstatement.andThen (by decide) fun _ => .skip (by simp) fun _ => ?_
  cases exitJump with
  | none => exact respects_endScope
  | some exitJump =>
      exact .skip (by simp) fun _ => .skip (by simp) fun _ => respects_endScope

/-! ### Functions -/

/-- Parameters are locals of the innermost function. -/
theorem respects_parameters (budget : Nat) : (parameters budget).Respects false .outer := by
  induction budget with
  | zero => exact respects_fault
  | succ budget ih =>
      have hname : (parseVariable "parameter name" >>= defineVariable).Respects false .outer :=
        .nameThen (by decide) respects_defineVariable
      have hparameter : parameter.Respects false .outer := by
        refine .skip (by simp) fun _ => .skip (by simp) fun arity => .ite ?_ hname
        exact .skip (by simp) fun _ => hname
      exact hparameter.andThen (by decide) fun _ => .skip (by simp)
        fun _ => .ite ih (.tame (by simp))

/-- What a function contains, if it ends the function. -/
theorem Respects.inFunction {m : CompileM α} (h : m.Respects false .ends) :
    (act .beginFunction >>= fun _ => m).Respects false .all := by
  intro s hs _
  have hfrom : m.RespectsFrom .ends s.beginFunction :=
    h.start (Action.Careful.grounded (a := .beginFunction) trivial hs rfl)
  refine ⟨⟨trivial, ?_⟩, fun a t hrun => hfrom.2 a t hrun⟩
  rintro _ _ ⟨⟩
  exact hfrom.1

section

variable {declaration : CompileM Unit} (hdeclaration : declaration.Respects false .outer)

include hdeclaration

/-- A block leaves the functions around alone if declarations do. -/
theorem respects_block (budget : Nat) : (block declaration budget).Respects false .outer := by
  induction budget with
  | zero => exact respects_fault
  | succ budget ih =>
      exact .skip (by simp) fun kind => .ite
        (.tame (by simp)) (hdeclaration.andThen (by decide) fun _ => ih)

/-- The body of a function ends the function and leaves those around it alone. -/
theorem respects_functionBody (budget : Nat) :
    (functionBody declaration budget).Respects false .ends := by
  have hclose : closeFunction.Respects false .ends := by
    refine Respects.before (fun s _ _ => ⟨trivial, fun _ t hrun => ?_⟩) fun ended =>
      Tame.respects (by simp)
    exact Session.lexicals_endFunction hrun
  exact .skip (by simp) fun _ => .skip (by simp) fun _ =>
    (respects_block hdeclaration budget).andThen (by decide) fun _ => .skip (by simp)
      fun _ => hclose

/-- A function leaves all scopes alone: it takes back what it pushes. -/
theorem respects_function (budget : Nat) : (function declaration budget).Respects false .all := by
  have hbody := respects_functionBody hdeclaration budget
  refine .inFunction <| .skip (by simp) fun _ => respects_beginScope.andThen (by decide) fun _ =>
    .skip (by simp) fun _ => .skip (by simp) fun empty => .ite hbody ?_
  exact (respects_parameters budget).andThen (by decide) fun _ => hbody

/-- Between the declaration of a function and its initialization stands the function. -/
theorem respects_funDeclaration (budget : Nat) :
    (funDeclaration declaration budget).Respects false .outer :=
  .nameThen (by decide) fun global => .initializedThen (by decide) <|
    (respects_function hdeclaration budget).bind fun _ => respects_defineVariable global

end

/-! ### The whole script -/

/-- Statements and declarations leave the functions around alone, by induction on the budget. -/
theorem respects_statement_declaration (budget : Nat) :
    (statement budget).Respects false .outer ∧ (declaration budget).Respects false .outer := by
  induction budget with
  | zero => exact ⟨respects_fault, respects_fault⟩
  | succ budget ih =>
      obtain ⟨hstatement, hdeclaration⟩ := ih
      have hkind {kind : TokenKind} {yes no : CompileM Unit} (hyes : yes.Respects false .outer)
          (hno : no.Respects false .outer) :
          (accept kind >>= fun b => if b = true then yes else no).Respects false .outer :=
        .skip (by simp) fun _ => .ite hyes hno
      have hrecovered {body : CompileM Unit} (hbody : body.Respects false .outer) :
          (body >>= fun _ => isRecovering >>= fun b =>
            if b = true then synchronize budget else Pure.pure ()).Respects false .outer := by
        refine hbody.andThen (by decide) fun _ => .skip (by simp) fun _ =>
          .ite ?_ (.tame (by simp))
        exact .skip (by simp) fun _ => .tame (by simp)
      rw [statement, declaration]
      refine ⟨.part ?_, .part ?_⟩
      · exact hkind ((respects_expression budget).bind fun _ =>
            .tame (by simp)) <|
          hkind (respects_delStatement budget).outer <|
          hkind (respects_returnStatement budget).outer <|
          hkind (respects_ifStatement hstatement budget) <|
          hkind (respects_whileStatement hstatement budget) <|
          hkind (respects_forStatement hstatement budget) <|
          hkind (respects_beginScope.andThen (by decide) fun _ =>
            (respects_block hdeclaration budget).andThen (by decide) fun _ => respects_endScope) <|
          (respects_expressionStatement budget).outer
      · exact hkind (hrecovered respects_classDeclaration) <|
          hkind (hrecovered (respects_funDeclaration hdeclaration budget)) <|
          hkind (hrecovered (respects_varDeclaration budget)) (hrecovered hstatement)

/-- The declarations of a file leave the functions around alone. -/
theorem respects_loop (budget left : Nat) :
    (declarations.loop budget left).Respects false .outer := by
  induction left with
  | zero => exact respects_fault
  | succ left ih =>
      refine .skip (by simp) fun ended =>
        .ite (.tame (by simp)) ?_
      exact (respects_statement_declaration budget).2.andThen (by decide) fun _ => ih

/-- The compilation of a script is careful. -/
theorem respects_script (budget : Nat) : (script budget).Respects false .outer :=
  .skip (by simp) fun _ =>
    (respects_loop budget budget).andThen (by decide) fun _ => .tame (by simp)

end CompileM

end LoxBytecode
