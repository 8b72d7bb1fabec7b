import LoxBytecode.Proofs.Compile.Only
import LoxBytecode.Proofs.Session.Orderly
import LoxBytecode.Proofs.Walk.Expression

/-!
# Compiling Consumes What Is Read

Compiling an expression passes the tokens that are read as one, whatever state the session is in
(`consuming_parsePrecedence`). Limits that are reported on the way, and diagnostics that are
dropped while recovering, change nothing about that: only the tokens decide which way an
expression is compiled, and what does not move on is `Still`.
-/

namespace LoxBytecode

open Session

/-! ### Where a session stands -/

/-- A session stands behind one token and in front of some others, whose first is the current
one. The end of the source follows the last of them. -/
structure Session.StandsAt (s : Session) (prev : Token) (ts : List Token) (endLine : Nat) :
    Prop where
  previous : s.previous = prev
  next : (s.current, s.upcoming) = (⟨ts, endLine⟩ : TokenStream).next

namespace Session.StandsAt

variable {s t : Session} {prev tok : Token} {ts : List Token} {endLine : Nat}

/-- The current token is the first of them. -/
theorem kind (h : s.StandsAt prev ts endLine) : s.current.kind = kindOf ts := by
  rw [(Prod.mk.inj h.next).1]
  cases ts <;> rfl

/-- Where a session stands depends on its tokens alone. -/
theorem of_sameTokens (h : s.StandsAt prev ts endLine) (hsame : SameTokens s t) :
    t.StandsAt prev ts endLine :=
  ⟨hsame.previous.trans h.previous, by rw [hsame.current, hsame.upcoming, h.next]⟩

/-- Moving on passes one token, when the next one is not an error. -/
theorem advance (h : s.StandsAt prev (tok :: ts) endLine) (hts : kindOf ts ≠ .error) :
    s.advance.StandsAt tok ts endLine := by
  obtain ⟨hcurrent, hupcoming⟩ := Prod.mk.inj h.next
  refine ⟨(previous_advance s).trans hcurrent, ?_⟩
  rw [Session.advance, hupcoming]
  cases ts with
  | nil => rfl
  | cons tok' ts =>
      rw [kindOf_cons] at hts
      simp only [readFrom, if_neg hts, TokenStream.next]

end Session.StandsAt

namespace CompileM

variable {α β γ : Type}

/-! ### What does not move on -/

/-- A compilation that does not move on to another token. -/
abbrev Still (m : CompileM α) : Prop :=
  m.Only (fun _ => True) fun a => ¬ a.Moves

/-- What does not move on leaves all tokens where they are. -/
theorem Still.sameTokens {m : CompileM α} (hm : m.Still) {s t : Session} {a : α}
    (h : m.run s = .ok (a, t)) : SameTokens s t :=
  Only.relates .refl .trans (fun ha h => Action.sameTokens ha h) hm h

attribute [local simp] Action.Moves

/-! ### What moves on from some tokens to others -/

/-- A compilation comes from some tokens to others with an answer, if it runs through. -/
structure Consumes (m : CompileM α) (prev : Token) (ts : List Token) (a : α) (prev' : Token)
    (rest : List Token) : Prop where
  of_run : ∀ {s t : Session} {b : α} {endLine : Nat}, s.StandsAt prev ts endLine →
    m.run s = .ok (b, t) → b = a ∧ t.StandsAt prev' rest endLine

section

variable {m : CompileM α} {first : CompileM β} {next : β → CompileM α} {prev prev₁ prev' : Token}
  {ts ts₁ rest : List Token} {tok : Token} {a : α} {b : β} {k : TokenKind}

/-- What consumes one part and then the other consumes both. -/
theorem Consumes.bind (hfirst : first.Consumes prev ts b prev₁ ts₁)
    (hnext : (next b).Consumes prev₁ ts₁ a prev' rest) :
    (first >>= next).Consumes prev ts a prev' rest := by
  refine ⟨fun {s t _ _} hs h => ?_⟩
  obtain ⟨⟨b', u⟩, hu, ht⟩ := bind_eq_ok.mp ((run_bind s first next).symm.trans h)
  obtain ⟨rfl, hu⟩ := hfirst.of_run hs hu
  exact hnext.of_run hu ht

/-- Whatever answer a compilation has that does not move on, what follows consumes the rest. -/
theorem Consumes.still (hfirst : first.Still)
    (hnext : ∀ b, (next b).Consumes prev ts a prev' rest) :
    (first >>= next).Consumes prev ts a prev' rest := by
  refine ⟨fun {s t _ _} hs h => ?_⟩
  obtain ⟨⟨b, u⟩, hu, ht⟩ := bind_eq_ok.mp ((run_bind s first next).symm.trans h)
  exact (hnext b).of_run (hs.of_sameTokens (hfirst.sameTokens hu)) ht

/-- What does not move on consumes nothing. -/
theorem Still.consumes {m : CompileM Unit} (hm : m.Still) : m.Consumes prev ts () prev ts :=
  ⟨fun hs h => ⟨rfl, hs.of_sameTokens (hm.sameTokens h)⟩⟩

/-- An action that does not move on consumes nothing. -/
theorem consumes_act {action : Action Unit} (h : ¬ action.Moves) :
    (act action).Consumes prev ts () prev ts :=
  Still.consumes h

/-- An answer consumes nothing. -/
theorem consumes_pure (a : α) : (pure a : CompileM α).Consumes prev ts a prev ts := by
  refine ⟨fun hs h => ?_⟩
  cases h
  exact ⟨rfl, hs⟩

/-- The kind of the current token is that of the first. -/
theorem consumes_currentKind : currentKind.Consumes prev ts (kindOf ts) prev ts := by
  refine ⟨fun hs h => ?_⟩
  cases h
  exact ⟨hs.kind, hs⟩

/-- The kind of the token just passed is known. -/
theorem consumes_previousKind : previousKind.Consumes prev ts prev.kind prev ts := by
  refine ⟨fun hs h => ?_⟩
  cases h
  exact ⟨congrArg Token.kind hs.previous, hs⟩

/-- Whether the current token has a kind is read off the first. -/
theorem consumes_nextIs : (nextIs k).Consumes prev ts (kindOf ts == k) prev ts :=
  consumes_currentKind.bind (consumes_pure (kindOf ts == k))

/-- Moving on consumes one token, if no error follows it. -/
theorem consumes_advance (hts : kindOf ts ≠ .error) :
    CompileM.advance.Consumes prev (tok :: ts) () tok ts := by
  refine ⟨fun hs h => ?_⟩
  cases h
  exact ⟨rfl, hs.advance hts⟩

/-- A token that has to be there is consumed if it is. -/
theorem consumes_expect {what : String} (hkind : tok.kind = k) (hts : kindOf ts ≠ .error) :
    (expect k what).Consumes prev (tok :: ts) () tok ts := by
  refine consumes_nextIs.bind ?_
  rw [kindOf_cons, hkind, beq_self_eq_true, if_pos rfl]
  exact consumes_advance hts

/-- A token that may be there is consumed if it is. -/
theorem consumes_accept_true (hkind : tok.kind = k) (hts : kindOf ts ≠ .error) :
    (accept k).Consumes prev (tok :: ts) true tok ts := by
  refine consumes_nextIs.bind ?_
  rw [kindOf_cons, hkind, beq_self_eq_true, if_pos rfl]
  exact (consumes_advance hts).bind (consumes_pure true)

/-- One that is not there is not consumed. -/
theorem consumes_accept_false (hkind : kindOf ts ≠ k) :
    (accept k).Consumes prev ts false prev ts := by
  refine consumes_nextIs.bind ?_
  rw [beq_false_of_ne hkind, if_neg Bool.false_ne_true]
  exact consumes_pure false

/-- A token that may not stand there is not consumed. -/
theorem consumes_acceptIf_false {allowed : Bool} (h : ¬ (allowed = true ∧ kindOf ts = k)) :
    (acceptIf allowed k).Consumes prev ts false prev ts := by
  cases allowed with
  | false => exact consumes_pure false
  | true => exact consumes_accept_false fun hkind => h ⟨rfl, hkind⟩

end

/-! ### Expressions -/

/-- A compilation comes to some tokens. -/
def ConsumesTo (m : CompileM Unit) (prev : Token) (ts rest : List Token) : Prop :=
  ∃ prev', m.Consumes prev ts () prev' rest

/-- Compiling an expression consumes what is read as one. -/
def Consuming (parse : Precedence → CompileM Unit) : Prop :=
  ∀ {p : Precedence} {ts rest : List Token} {e : Expr}, Reads (.expr p) ts [e] rest →
    kindOf rest ≠ .error → (p ≤ .assignment → kindOf rest ≠ .equal) →
      ∀ prev, (parse p).ConsumesTo prev ts rest

section

variable {parse : Precedence → CompileM Unit} {ts rest : List Token} {t prev : Token} {e l : Expr}
  {es : List Expr} {c : Bool} {p : Precedence}

/-- No expression begins with an error. -/
theorem kind_ne_error_of_atStart (h : (kindOf ts).rule.atStart ≠ none) : kindOf ts ≠ .error :=
  fun herror => h (by rw [herror]; rfl)

/-- Neither an expression nor the arguments of a call begin with an error. -/
theorem kind_ne_error (h : Reads (.expr p) ts es rest) : kindOf ts ≠ .error :=
  kind_ne_error_of_atStart h.atStart

/-- An operator is no error. -/
theorem kind_ne_error_of_behind (h : Reads (.behind c l) ts [e] rest) : kindOf ts ≠ .error := by
  cases h with
  | binary ho =>
      intro herror
      rw [kindOf_cons] at herror
      rw [herror] at ho
      cases ho
  | and hkind | or hkind | call hkind | callNone hkind | get hkind | set hkind =>
      rw [kindOf_cons, hkind]
      decide

/-- Operators begin with an operator, or with what follows them. -/
theorem kind_ne_error_of_operators (h : Reads (.operators p l) ts [e] rest)
    (hrest : kindOf rest ≠ .error) : kindOf ts ≠ .error := by
  cases h with
  | stop => exact hrest
  | step _ hbehind => exact kind_ne_error_of_behind hbehind

/-- What stands at the start of an expression is consumed. -/
theorem Consuming.atStart (hparse : Consuming parse) (h : Reads (.start c) (t :: ts) [e] rest)
    (hrest : kindOf rest ≠ .error) (hfollow : c = true → kindOf rest ≠ .equal) :
    kindOf ts ≠ .error ∧ ∃ form, t.kind.rule.atStart = some form ∧
      (CompileM.atStart parse c form).ConsumesTo t ts rest := by
  cases h with
  | grouping hopening hreads hclosing =>
      obtain ⟨prev', hinner⟩ := hparse hreads (by rw [kindOf_cons, hclosing]; decide)
        (fun _ => by rw [kindOf_cons, hclosing]; decide) t
      exact ⟨kind_ne_error hreads, .grouping, by rw [hopening]; rfl, _,
        hinner.bind (consumes_expect hclosing hrest)⟩
  | literal hl =>
      exact ⟨hrest, .literal, (literalCode_of_ofKind? hl).2, t,
        consumes_previousKind.bind (Still.consumes (by simp))⟩
  | number hkind => exact ⟨hrest, .number, by rw [hkind]; rfl, t, consumes_act id⟩
  | string hkind => exact ⟨hrest, .string, by rw [hkind]; rfl, t, consumes_act id⟩
  | unary ho hreads =>
      obtain ⟨prev', hoperand⟩ := hparse hreads hrest (fun hle => absurd hle (by decide)) t
      exact ⟨kind_ne_error hreads, .unary, (unaryCode_of_ofKind? ho).2, prev',
        consumes_previousKind.bind (hoperand.bind (Still.consumes (by simp)))⟩
  | «variable» hkind hequal =>
      exact ⟨hrest, .identifier, by rw [hkind]; rfl, t, .still (by simp) fun _ =>
        (consumes_acceptIf_false hequal).bind (consumes_act id)⟩
  | assign hkind hequal hreads =>
      obtain ⟨prev', hvalue⟩ := hparse hreads hrest (fun _ => hfollow rfl) _
      refine ⟨by rw [kindOf_cons, hequal]; decide, .identifier, by rw [hkind]; rfl, prev', ?_⟩
      exact .still (by simp) fun _ =>
        (consumes_accept_true hequal (kind_ne_error hreads)).bind
          (hvalue.bind (consumes_act id))

/-- Arguments are consumed, and counted. -/
theorem Consuming.arguments (hparse : Consuming parse) {budget n : Nat}
    (h : Reads .arguments ts es rest) (hclose : kindOf rest = .rightParen) :
    ∃ prev', (CompileM.arguments parse budget n).Consumes prev ts (n + es.length) prev' rest := by
  have hrest : kindOf rest ≠ .error := by rw [hclose]; decide
  induction budget generalizing ts es prev n with
  | zero => exact ⟨prev, ⟨fun _ h => by cases h⟩⟩
  | succ budget ih =>
      have hmany {m : CompileM Nat} {us us' : List Token} {prev prev' : Token} {k : Nat}
          (hm : m.Consumes prev us k prev' us') :
          (if n = 255 then fail .tooManyArguments >>= fun _ => m else m).Consumes prev us k prev'
            us' := by
        split
        · exact .still id fun _ => hm
        · exact hm
      rw [CompileM.arguments]
      cases h with
      | lastArgument hreads hcomma =>
          obtain ⟨prev', hfirst⟩ := hparse hreads hrest (fun _ => by rw [hclose]; decide) prev
          exact ⟨prev', hfirst.bind (hmany ((consumes_accept_false hcomma).bind
            (consumes_pure _)))⟩
      | @argument e es comma _ _ _ hreads hcomma hothers =>
          obtain ⟨prev₁, hfirst⟩ := hparse hreads (by rw [kindOf_cons, hcomma]; decide)
            (fun _ => by rw [kindOf_cons, hcomma]; decide) prev
          obtain ⟨prev', hmore⟩ := ih (n := n + 1) hothers
          rw [List.length_cons, Nat.add_comm es.length, ← Nat.add_assoc]
          exact ⟨prev', hfirst.bind (hmany ((consumes_accept_true hcomma
            (kind_ne_error_of_atStart hothers.atStart)).bind hmore))⟩

/-- The end of a call consumes its closing parenthesis. -/
theorem consumes_closeCall {closing : Token} (hclosing : closing.kind = .rightParen)
    (hrest : kindOf rest ≠ .error) (n : Nat) :
    (do expect .rightParen "')' after arguments"; emit .call [← narrow (min n 255)] :
      CompileM Unit).Consumes prev (closing :: rest) () closing rest :=
  (consumes_expect hclosing hrest).bind (.still (by simp) fun _ => consumes_act id)

/-- What stands behind an expression is consumed. -/
theorem Consuming.behind (hparse : Consuming parse) {budget : Nat}
    (h : Reads (.behind c l) (t :: ts) [e] rest) (hrest : kindOf rest ≠ .error)
    (hfollow : c = true → kindOf rest ≠ .equal) :
    kindOf ts ≠ .error ∧ ∃ form, t.kind.rule.behind = some form ∧
      (CompileM.behind parse budget c form).ConsumesTo t ts rest := by
  cases h with
  | binary ho hreads =>
      have hlevel : ¬ t.kind.rule.precedence.next ≤ .assignment := by
        generalize t.kind = kind at ho
        cases kind <;> first | decide | cases ho
      obtain ⟨prev', hright⟩ := hparse hreads hrest (fun hle => absurd hle hlevel) t
      exact ⟨kind_ne_error hreads, .binary, (binaryCode_of_ofKind? ho).2, prev',
        consumes_previousKind.bind (hright.bind (Still.consumes (by simp)))⟩
  | and hkind hreads =>
      obtain ⟨prev', hright⟩ := hparse hreads hrest (fun hle => absurd hle (by decide)) t
      refine ⟨kind_ne_error hreads, .and, by rw [hkind]; rfl, prev', ?_⟩
      exact .still (by simp) fun _ =>
        (consumes_act id).bind (hright.bind (consumes_act id))
  | or hkind hreads =>
      obtain ⟨prev', hright⟩ := hparse hreads hrest (fun hle => absurd hle (by decide)) t
      refine ⟨kind_ne_error hreads, .or, by rw [hkind]; rfl, prev', ?_⟩
      exact .still (by simp) fun _ => .still (by simp) fun _ =>
        (consumes_act id).bind ((consumes_act id).bind (hright.bind (consumes_act id)))
  | @call _ _ _ _ closing _ _ hkind hargs hclosing =>
      have hne : kindOf ts ≠ .rightParen := fun hparen =>
        absurd hargs.atStart (by rw [hparen]; exact fun h => h rfl)
      obtain ⟨prev', hmany⟩ := hparse.arguments (n := 0) hargs
        hclosing
      refine ⟨kind_ne_error_of_atStart hargs.atStart, .call, by rw [hkind]; rfl, closing,
        consumes_nextIs.bind ?_⟩
      rw [beq_false_of_ne hne]
      exact hmany.bind (consumes_closeCall hclosing hrest _)
  | @callNone _ _ _ closing _ hkind hclosing =>
      refine ⟨by rw [kindOf_cons, hclosing]; decide, .call, by rw [hkind]; rfl, closing,
        consumes_nextIs.bind ?_⟩
      rw [kindOf_cons, hclosing]
      exact (consumes_pure 0).bind (consumes_closeCall hclosing hrest _)
  | @get _ _ _ name _ hkind hname hequal =>
      refine ⟨by rw [kindOf_cons, hname]; decide, .dot, by rw [hkind]; rfl, name, ?_⟩
      exact (consumes_expect hname hrest).bind (.still id fun _ =>
        (consumes_acceptIf_false hequal).bind (consumes_act id))
  | set hkind hname hequal hreads =>
      obtain ⟨prev', hvalue⟩ := hparse hreads hrest (fun _ => hfollow rfl) _
      refine ⟨by rw [kindOf_cons, hname]; decide, .dot, by rw [hkind]; rfl, prev', ?_⟩
      exact (consumes_expect hname (by rw [kindOf_cons, hequal]; decide)).bind (.still id fun _ =>
        (consumes_accept_true hequal (kind_ne_error hreads)).bind
          (hvalue.bind (consumes_act id)))

/-- Operators are consumed as long as they bind tightly enough. -/
theorem Consuming.operators (hparse : Consuming parse) {budget : Nat}
    (h : Reads (.operators p l) ts [e] rest) (hrest : kindOf rest ≠ .error)
    (hfollow : p ≤ .assignment → kindOf rest ≠ .equal) :
    (CompileM.operators parse p (decide (p ≤ .assignment)) budget).ConsumesTo prev ts rest := by
  induction budget generalizing ts prev l with
  | zero => exact ⟨prev, ⟨fun _ h => by cases h⟩⟩
  | succ budget ih =>
      rw [CompileM.operators]
      cases h with
      | stop hstop =>
          refine ⟨prev, consumes_currentKind.bind ?_⟩
          rw [if_neg hstop]
          exact consumes_pure ()
      | @step _ _ _ _ _ ts₁ _ hle hbehind hoperators =>
          have hts₁ : kindOf ts₁ ≠ .error := kind_ne_error_of_operators hoperators hrest
          have hequal := ne_equal_of_operators hoperators hfollow
          obtain ⟨t, ts', rfl, -⟩ := exists_operator hbehind
          obtain ⟨hts', form, hform, prev₁, hfirst⟩ := hparse.behind hbehind hts₁
            fun hc => hequal (of_decide_eq_true hc)
          obtain ⟨prev', hmore⟩ := ih hoperators
          refine ⟨prev', consumes_currentKind.bind ?_⟩
          rw [if_pos hle]
          refine (consumes_advance hts').bind (consumes_previousKind.bind ?_)
          simp only [hform]
          exact hfirst.bind hmore

/-- Every level consumes what is read at it, by induction on the budget. -/
theorem consuming_parsePrecedence (budget : Nat) : Consuming (parsePrecedence budget) := by
  induction budget with
  | zero => exact fun _ _ _ prev => ⟨prev, ⟨fun _ h => by cases h⟩⟩
  | succ budget ih =>
      intro p ts rest e h hrest hfollow prev
      rw [parsePrecedence]
      cases h with
      | @expr _ _ _ _ ts₁ _ hstart hoperators =>
          have hts₁ : kindOf ts₁ ≠ .error := kind_ne_error_of_operators hoperators hrest
          have hequal := ne_equal_of_operators hoperators hfollow
          obtain ⟨t, ts', rfl⟩ := exists_start hstart
          obtain ⟨hts', form, hform, prev₁, hfirst⟩ := ih.atStart hstart hts₁
            fun hc => hequal (of_decide_eq_true hc)
          obtain ⟨prev', hmore⟩ := ih.operators hoperators hrest
            hfollow
          refine ⟨prev', (consumes_advance hts').bind (consumes_previousKind.bind ?_)⟩
          simp only [hform]
          refine hfirst.bind (hmore.bind ((consumes_acceptIf_false ?_).bind (consumes_pure ())))
          exact fun hand => hfollow (of_decide_eq_true hand.1) hand.2

end

end CompileM

end LoxBytecode
