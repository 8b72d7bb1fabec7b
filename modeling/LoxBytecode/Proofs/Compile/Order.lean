import LoxBytecode.Proofs.Compile.Forms
import LoxBytecode.Proofs.Compile.Lexemes
import LoxBytecode.Proofs.Session.Places

/-!
# Diagnostics in the Order of the Source

The diagnostics of a failed compilation were reported at tokens whose places in the source never
decrease, pieces that are no token among them, so neither do their lines (`compile_in_order`).
Diagnostics count again from the end of a declaration on. What was reported before may lie ahead
of the token just passed then, and nothing is reported at that token before the next advance:
declarations, statements and expressions begin with one, and a block may end with a report at
the current token. `Orders` says that of the compilations, by what they need of the session in
front of them and what they leave behind.
-/

namespace LoxBytecode

open Heap

/-- What is known of the places of a session. -/
inductive Standing where
  | reading
  | settled
deriving DecidableEq

def Standing.Holds (tokens : TokenStream) (s : Session) (p : Places) : Standing → Prop
  | .reading => p.Reading tokens s
  | .settled => p.Reading tokens s ∧ p.Settled tokens s

namespace CompileM

variable {α β : Type} {m : CompileM α} {x y z : Standing}

/-- From a session of one standing the compilation leads to one of another. -/
def Orders (x y : Standing) (m : CompileM α) : Prop :=
  ∀ (tokens : TokenStream) (s t : Session) (p : Places) (a : α), x.Holds tokens s p →
    m.run s = .ok (a, t) → y.Holds tokens t (m.places tokens.ahead.length s p)

/-! ### Rules -/

/-- What ends with a fault leads nowhere. -/
theorem orders_fault {f : Fault} : (fault f : CompileM α).Orders x y := by
  rintro tokens s t p a - ⟨⟩

/-- The places behind a chain are those behind its second part, from where the first ends. -/
theorem places_bind {first : CompileM β} {next : β → CompileM α} {total : Nat} {s t : Session}
    {p : Places} {b : β} (h : first.run s = .ok (b, t)) :
    (first >>= next).places total s p = (next b).places total t (first.places total s p) := by
  show (chain first next).places total s p = _
  rw [places, h]

/-- A chain leads from where its first part begins to where the second ends. -/
theorem Orders.bind {first : CompileM β} {next : β → CompileM α} (hfirst : first.Orders x y)
    (hnext : ∀ b, (next b).Orders y z) : (first >>= next).Orders x z := by
  intro tokens s t p a hs hrun
  rw [run_bind] at hrun
  obtain ⟨⟨b, u⟩, hb, ha⟩ := bind_eq_ok.mp hrun
  rw [places_bind hb]
  exact hnext b tokens u t _ a (hfirst tokens s u p b hs hb) ha

/-- What needs less may be given more. -/
theorem Orders.of_reading (h : m.Orders .reading y) : m.Orders x y := by
  intro tokens s t p a hs
  refine h tokens s t p a ?_
  cases x with
  | reading => exact hs
  | settled => exact hs.1

/-- What leaves more behind leaves less behind. -/
theorem Orders.forget (h : m.Orders x .settled) : m.Orders x y := by
  intro tokens s t p a hs hrun
  have ht := h tokens s t p a hs hrun
  cases y with
  | reading => exact ht.1
  | settled => exact ht

/-- A branch leads to where both sides do. -/
theorem Orders.ite {c : Prop} [Decidable c] {yes no : CompileM α} (hyes : yes.Orders x y)
    (hno : no.Orders x y) : (if c then yes else no).Orders x y := by
  split
  · exact hyes
  · exact hno

/-- A part leads to where its body does. -/
theorem Orders.part {phrase : Phrase} (h : m.Orders x y) :
    (CompileM.part phrase m).Orders x y := h

/-- A query changes no standing. -/
theorem orders_ask (q : Query α) : (ask q).Orders x x := by
  rintro tokens s t p a hs ⟨⟩
  exact hs

/-- An answer changes no standing. -/
theorem orders_pure (a : α) : (Pure.pure a : CompileM α).Orders x x := by
  rintro tokens s t p b hs ⟨⟩
  exact hs

/-- Behind an advance every session is settled. -/
theorem orders_advance : CompileM.advance.Orders .reading .settled := by
  rintro tokens s t p a hs ⟨⟩
  exact ⟨hs.toOrdered.advance, hs.advance⟩

/-- Behind an accepted token a session is settled. -/
theorem Orders.acceptThen {kind : TokenKind} {yes no : CompileM α}
    (hyes : yes.Orders .settled y) (hno : no.Orders x y) :
    (accept kind >>= fun b => if b = true then yes else no).Orders x y := by
  intro tokens s t p a hs hrun
  by_cases hkind : s.current.kind = kind
  · have haccept : (accept kind).run s = .ok (true, s.advance) := by simp [hkind]
    rw [run_bind, haccept] at hrun
    have hplaces : (accept kind).places tokens.ahead.length s p =
        Action.advance.places tokens.ahead.length s s.advance p := by
      rw [accept, places_bind (run_nextIs s kind), if_pos (beq_iff_eq.mpr hkind)]
      rfl
    rw [places_bind haccept, hplaces]
    refine hyes tokens s.advance t _ a ?_ hrun
    exact orders_advance.of_reading tokens s s.advance p () hs rfl
  · have haccept : (accept kind).run s = .ok (false, s) := by simp [hkind]
    rw [run_bind, haccept] at hrun
    have hplaces : (accept kind).places tokens.ahead.length s p = p := by
      rw [accept, places_bind (run_nextIs s kind), if_neg (by simpa using hkind)]
      rfl
    rw [places_bind haccept, hplaces]
    exact hno tokens s t p a hs hrun

/-- Whether or not the token is there, the session is settled. -/
theorem orders_expect (kind : TokenKind) (what : String) :
    (expect kind what).Orders .reading .settled := by
  have hnext : (nextIs kind).Orders .reading .reading :=
    (orders_ask _).bind fun _ => orders_pure _
  refine hnext.bind fun _ => .ite orders_advance ?_
  rintro tokens s t p a hs ⟨⟩
  exact hs.failHere _

/-! ### Compilations that let no diagnostics count again -/

/-- No action of the compilation lets diagnostics count again. -/
abbrev Calm (m : CompileM α) : Prop :=
  m.Only (fun _ => True) Action.Calm

/-- A settled session stays settled as long as no diagnostics count again. -/
theorem Calm.orders (hm : m.Calm) : m.Orders .settled .settled := by
  induction m with
  | done result =>
      cases result with
      | error fault => exact orders_fault
      | ok a => exact orders_pure a
  | ask q => exact orders_ask q
  | act a =>
      intro tokens s t p b hs hrun
      rw [places, show a.apply s = .ok (b, t) from hrun]
      exact hs.1.act hs.2 hm hrun
  | chain first next ihFirst ihNext => exact (ihFirst hm.1).bind fun b => ihNext b (hm.2 b)
  | part phrase body ih => exact ih hm

/-- What comes before lets no diagnostics count again. -/
theorem Orders.skip {first : CompileM β} {next : β → CompileM α} (hfirst : first.Calm)
    (hnext : ∀ b, (next b).Orders .settled y) : (first >>= next).Orders .settled y :=
  hfirst.orders.bind hnext

/-- No form of the language lets diagnostics count again by itself. -/
theorem compositional_calm : Compositional Action.OfDeclaration Calm :=
  compositional_only (fun _ _ => trivial) fun {_ a} ha => by
    cases a with
    | resume => exact ha.elim
    | _ => trivial

@[simp] theorem calm_expression (budget : Nat) : (expression budget).Calm :=
  compositional_calm.ofExpression.expression budget

attribute [local simp] Action.Calm

/-! ### Expressions -/

/-- An expression begins with an advance. -/
theorem orders_expression (budget : Nat) : (expression budget).Orders .reading .settled := by
  cases budget with
  | zero => exact orders_fault
  | succ budget =>
      have hcalm := calm_expression (budget + 1)
      exact orders_advance.bind fun _ => Calm.orders (hcalm.2 ())

/-! ### Statements -/

/-- An expression statement begins with an advance. -/
theorem orders_expressionStatement (budget : Nat) :
    (expressionStatement budget).Orders .reading .settled :=
  (orders_expression budget).bind fun _ => Calm.orders (by simp)

section

variable {statement : CompileM Unit} (hstatement : statement.Orders .reading .settled)

include hstatement

/-- The sides of a branch begin with an advance. -/
theorem orders_ifStatement (budget : Nat) :
    (ifStatement statement budget).Orders .settled .settled := by
  refine .skip (by simp) fun _ => .skip (by simp) fun _ => .skip (by simp) fun _ =>
    .skip (by simp) fun _ => .skip (by simp) fun _ => hstatement.of_reading.bind fun _ =>
      .skip (by simp) fun _ => .skip (by simp) fun _ => .skip (by simp) fun _ => ?_
  refine .acceptThen ?_ (Calm.orders (by simp))
  exact hstatement.of_reading.bind fun _ => Calm.orders (by simp)

/-- The body of a while loop begins with an advance. -/
theorem orders_whileStatement (budget : Nat) :
    (whileStatement statement budget).Orders .settled .settled := by
  refine .skip (by simp) fun start => .skip (by simp) fun _ => .skip (by simp) fun _ =>
    .skip (by simp) fun _ => .skip (by simp) fun _ => .skip (by simp) fun _ => ?_
  exact hstatement.of_reading.bind fun _ => Calm.orders (by simp)

/-- The body of a for loop begins with an advance. -/
theorem orders_forStatement (budget : Nat) :
    (forStatement statement budget).Orders .settled .settled := by
  have hcalm := compositional_calm
  refine .skip (by simp) fun _ => .skip (by simp) fun _ =>
    .skip (hcalm.forInitializer budget) fun _ => .skip (by simp) fun start =>
      .skip (hcalm.ofExpression.forCondition budget) fun exitJump =>
        .skip (hcalm.ofExpression.forIncrement budget start) fun target => ?_
  refine hstatement.of_reading.bind fun _ => .skip (by simp) fun _ => ?_
  have hend : CompileM.endScope.Orders .settled .settled := hcalm.endScope.orders
  cases exitJump with
  | none => exact hend
  | some exitJump => exact .skip (by simp) fun _ => .skip (by simp) fun _ => hend

end

section

variable {declaration : CompileM Unit} (hdeclaration : declaration.Orders .reading .reading)

include hdeclaration

/-- A block ends with its brace or with a report that it is not there. -/
theorem orders_block (budget : Nat) : (block declaration budget).Orders .reading .settled := by
  induction budget with
  | zero => exact orders_fault
  | succ budget ih =>
      exact (orders_ask _).bind fun kind => .ite (orders_expect _ _) (hdeclaration.bind fun _ => ih)

/-- A block as a statement ends settled. -/
theorem orders_blockStatement (budget : Nat) :
    (blockStatement declaration budget).Orders .settled .settled :=
  .skip (by simp) fun _ => (orders_block hdeclaration budget).of_reading.bind fun _ =>
    compositional_calm.endScope.orders

/-- The body of a function ends settled. -/
theorem orders_functionBody (budget : Nat) :
    (functionBody declaration budget).Orders .settled .settled := by
  have hclose : closeFunction.Calm := by simp [closeFunction]
  exact .skip (by simp) fun _ => .skip (by simp) fun _ =>
    (orders_block hdeclaration budget).of_reading.bind fun _ => .skip (by simp) fun _ =>
      hclose.orders

/-- The declaration of a function ends settled. -/
theorem orders_funDeclaration (budget : Nat) :
    (funDeclaration declaration budget).Orders .settled .settled := by
  have hbody := orders_functionBody hdeclaration budget
  have hfunction : (function declaration budget).Orders .settled .settled := by
    refine .skip (by simp) fun _ => .skip (by simp) fun _ => .skip (by simp) fun _ =>
      .skip (by simp) fun _ => .skip (by simp) fun empty => .ite hbody ?_
    exact .skip (compositional_calm.parameters budget) fun _ => hbody
  exact .skip (by simp) fun global => .skip (by simp) fun _ => hfunction.bind fun _ =>
    Calm.orders (by simp)

end

/-! ### The whole script -/

/-- Recovering leaves what was reported ahead of the token just passed. -/
theorem orders_synchronize (budget : Nat) :
    (synchronize budget).Orders .settled .reading := by
  have hresume : (act .resume).Orders .settled .reading := by
    rintro tokens s t p a hs ⟨⟩
    exact hs.1.resume
  refine hresume.bind fun _ => ?_
  cases budget with
  | zero => exact orders_fault
  | succ budget =>
      refine (orders_ask _).bind fun _ => (orders_ask _).bind fun _ => .ite (orders_pure ()) ?_
      have hskip := compositional_calm.ofExpression.skipToStatement budget
      exact orders_advance.bind fun _ => hskip.orders.forget

/-- A statement ends settled; a declaration may have recovered, so that the session only reads
on. -/
theorem orders_statement_declaration (budget : Nat) :
    (statement budget).Orders .reading .settled ∧
      (declaration budget).Orders .reading .reading := by
  induction budget with
  | zero => exact ⟨orders_fault, orders_fault⟩
  | succ budget ih =>
      obtain ⟨hstatement, hdeclaration⟩ := ih
      have hcalm := compositional_calm
      rw [statement, declaration]
      have hrecovered {x : Standing} {body : CompileM Unit} (hbody : body.Orders x .settled) :
          (body >>= fun _ => isRecovering >>= fun b =>
            if b = true then synchronize budget else Pure.pure ()).Orders x .reading :=
        hbody.bind fun _ => (orders_ask _).bind fun _ =>
          .ite (orders_synchronize budget) (orders_pure ()).forget
      refine ⟨.part ?_, .part ?_⟩
      · exact .acceptThen (hcalm.ofExpression.printStatement budget).orders <|
          .acceptThen (hcalm.ofExpression.delStatement budget).orders <|
          .acceptThen (hcalm.ofExpression.returnStatement budget).orders <|
          .acceptThen (orders_ifStatement hstatement budget) <|
          .acceptThen (orders_whileStatement hstatement budget) <|
          .acceptThen (orders_forStatement hstatement budget) <|
          .acceptThen (orders_blockStatement hdeclaration budget) <|
          orders_expressionStatement budget
      · exact .acceptThen (hrecovered hcalm.classDeclaration.orders) <|
          .acceptThen (hrecovered (orders_funDeclaration hdeclaration budget)) <|
          .acceptThen (hrecovered (hcalm.varDeclaration budget).orders) <|
          hrecovered hstatement

/-- The end of the source is passed like any other token. -/
theorem orders_loop (budget left : Nat) :
    (declarations.loop budget left).Orders .reading .settled := by
  induction left with
  | zero => exact orders_fault
  | succ left ih =>
      exact .acceptThen (orders_pure ()) <|
        (orders_statement_declaration budget).2.bind fun _ => ih

/-- Behind the first token a script keeps its diagnostics in order. -/
theorem orders_declarations (budget : Nat) :
    (declarations budget >>= fun _ => emitReturn).Orders .reading .settled :=
  (orders_loop budget budget).bind fun _ => Calm.orders (by simp)

end CompileM

/-! ### Sources -/

/-- The places of the tokens at which the compilation of a source reports, in the order of its
diagnostics. -/
def reportPlaces (source : String) (h : Heap) (host : List Value) : List Nat :=
  let tokens := TokenStream.ofSource source
  ((CompileM.script (Session.budget tokens)).places tokens.ahead.length
    (Session.start tokens h host) .start).reported

end LoxBytecode
