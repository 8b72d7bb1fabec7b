import LoxBytecode.Proofs.Syntax.Reading

/-!
# Precedence Climbing

Why reading by precedence climbing finds the expressions that a stratified grammar has. An
expression of a level is read at the front of a longer one: wherever an operator of that level
or a weaker one follows, reading its tokens comes to the operators behind it (`Leads`). Every
form of the grammar leads if its parts do, so that left recursion, which precedence climbing
turns into a loop, is one step more of the loop that is still to come.
-/

namespace LoxBytecode

namespace Precedence

/-! ### What may follow -/

/-- The level of the right operand of an operator of a level. -/
def operand : Precedence → Precedence
  | .assignment => .assignment
  | .or => .or
  | .and => .and
  | p => p.next

/-- A token that may stand behind an expression of a level, as the left operand of an operator
or as what ends it. -/
def Admits (q : Precedence) (k : TokenKind) : Prop :=
  k ≠ .equal ∧ ¬ q.operand ≤ k.rule.precedence

variable {p q : Precedence} {k : TokenKind}

/-- The order of the levels is transitive. -/
theorem le_trans' {p q r : Precedence} (h₁ : p ≤ q) (h₂ : q ≤ r) : p ≤ r :=
  Nat.le_trans h₁ h₂

/-- Tighter levels have tighter operands. -/
theorem operand_mono (h : p ≤ q) : p.operand ≤ q.operand := by
  cases p <;> cases q <;> first | decide | exact absurd h (by decide)

/-- The next level is tighter. -/
theorem le_next (q : Precedence) : q ≤ q.next := by
  cases q <;> decide

/-- What may stand behind an expression may stand behind one of a tighter level. -/
theorem Admits.of_le (h : p.Admits k) (hle : p ≤ q) : q.Admits k :=
  ⟨h.1, fun hoperand => h.2 (le_trans' (operand_mono hle) hoperand)⟩

/-- A token that neither continues an expression nor is `=` may stand behind every one. -/
theorem admits_of_none (hprecedence : k.rule.precedence = .none) (hequal : k ≠ .equal)
    (hq : .assignment ≤ q) : q.Admits k := by
  refine ⟨hequal, fun hle => ?_⟩
  rw [hprecedence] at hle
  cases q <;> exact absurd hle (by decide)

/-- No token binds as tightly as the operators in front of an operand do. -/
theorem not_unary_le (h : Precedence.unary.Admits k) : ¬ .unary ≤ k.rule.precedence := by
  obtain ⟨-, h⟩ := h
  cases k <;> first | exact absurd (by decide) h | decide

end Precedence

open Precedence

/-! ### Leading expressions -/

/-- Some tokens are an expression of a level: where a token follows that may stand behind it,
reading goes on with the operators there. -/
structure Leads (q : Precedence) (us : List Token) (e : Expr) : Prop where
  climb : ∀ {p : Precedence} {ts rest : List Token} {e' : Expr}, .assignment ≤ p → p ≤ q →
    q.Admits (kindOf ts) → Reads (.operators p e) ts [e'] rest →
      Reads (.expr p) (us ++ ts) [e'] rest

/-- Some tokens are the arguments of a call that has some. -/
structure LeadsArguments (us : List Token) (es : List Expr) : Prop where
  reads : ∀ ts : List Token, kindOf ts = .rightParen → Reads .arguments (us ++ ts) es ts

variable {p q : Precedence} {us vs ts : List Token} {e l r : Expr} {t : Token}

/-- An expression is read up to a token that does not continue it. -/
theorem Leads.reads (h : Leads q us e) (hp : .assignment ≤ p) (hle : p ≤ q)
    (hadmits : q.Admits (kindOf ts)) (hstop : ¬ p ≤ (kindOf ts).rule.precedence) :
    Reads (.expr p) (us ++ ts) [e] ts :=
  h.climb hp hle hadmits (.stop hstop)

/-- An expression is read up to a token that no expression goes on with. -/
theorem Leads.reads_of_none (h : Leads q us e) (ts : List Token) (hq : .assignment ≤ q)
    (hprecedence : (kindOf ts).rule.precedence = .none) (hequal : kindOf ts ≠ .equal) :
    Reads (.expr .assignment) (us ++ ts) [e] ts := by
  refine h.reads (Nat.le_refl _) hq (admits_of_none hprecedence hequal hq) ?_
  rw [hprecedence]
  decide

/-- An expression of a tighter level is one of a weaker level. -/
theorem Leads.of_le (h : Leads q us e) (hle : p ≤ q) : Leads p us e :=
  ⟨fun hp hle' hadmits hreads => h.climb hp (le_trans' hle' hle) (hadmits.of_le hle) hreads⟩

/-- What is read as the start of an expression is one of every level. -/
theorem leads_of_start (h : ∀ {c : Bool} {ts : List Token}, kindOf ts ≠ .equal →
    Reads (.start c) (us ++ ts) [e] ts) : Leads q us e :=
  ⟨fun _ _ hadmits hreads => .expr (h hadmits.1) hreads⟩

/-- An expression in parentheses is one of any level. -/
theorem leads_grouping {opening closing : Token} (hopening : opening.kind = .leftParen)
    (h : Leads .assignment us e) (hclosing : closing.kind = .rightParen) :
    Leads q (opening :: us ++ [closing]) e := by
  refine leads_of_start fun {c ts} _ => ?_
  rw [List.cons_append, List.cons_append, List.append_assoc]
  refine .grouping hopening (h.reads_of_none (closing :: ts) (Nat.le_refl _) ?_ ?_) hclosing
  all_goals rw [kindOf_cons, hclosing]; first | rfl | decide

/-- An operator in front of its operand makes a unary expression. -/
theorem leads_unary {o : UnaryOp} (ho : UnaryOp.ofKind? t.kind = some o)
    (h : Leads .unary us e) : Leads .unary (t :: us) (.unary o e) := by
  refine ⟨fun {p ts rest e'} hp hle hadmits hreads => ?_⟩
  exact .expr (.unary ho (h.reads (by decide) (Nat.le_refl _) hadmits (not_unary_le hadmits)))
    hreads

/-- An operator that groups to the left leads between operands of its levels. -/
theorem leads_binary {o : BinaryOp} (ho : BinaryOp.ofKind? t.kind = some o)
    (hl : Leads t.kind.rule.precedence us l) (hr : Leads t.kind.rule.precedence.next vs r) :
    Leads t.kind.rule.precedence (us ++ t :: vs) (.binary o l r) := by
  have hadmits : t.kind.rule.precedence.Admits t.kind ∧
      t.kind.rule.precedence.operand = t.kind.rule.precedence.next ∧
      .assignment ≤ t.kind.rule.precedence.next := by
    unfold Admits
    generalize t.kind = kind at ho
    cases kind <;> first | decide | cases ho
  obtain ⟨hadmits, hoperand, hnext⟩ := hadmits
  refine ⟨fun {p ts rest e'} hp hle hfollows hreads => ?_⟩
  have hright : Reads (.expr t.kind.rule.precedence.next) (vs ++ ts) [r] ts :=
    hr.reads hnext (Nat.le_refl _) (hfollows.of_le (le_next _)) (hoperand ▸ hfollows.2)
  rw [List.append_assoc]
  exact hl.climb hp hle hadmits (.step hle (.binary ho hright) hreads)

/-- A conjunction groups to the left of its right operand. -/
theorem leads_and (ht : t.kind = .andWord) (hl : Leads .equality us l) (hr : Leads .and vs r) :
    Leads .and (us ++ t :: vs) (.and l r) := by
  refine ⟨fun {p ts rest e'} hp hle hfollows hreads => ?_⟩
  have hright : Reads (.expr .and) (vs ++ ts) [r] ts :=
    hr.reads (by decide) (Nat.le_refl _) hfollows hfollows.2
  rw [List.append_assoc]
  refine hl.climb hp (le_trans' hle (by decide)) ?_ (.step ?_ (.and ht hright) hreads)
  · rw [List.cons_append, kindOf_cons, ht]
    exact ⟨by decide, by decide⟩
  · rwa [List.cons_append, kindOf_cons, ht]

/-- A disjunction groups to the left of its right operand. -/
theorem leads_or (ht : t.kind = .orWord) (hl : Leads .and us l) (hr : Leads .or vs r) :
    Leads .or (us ++ t :: vs) (.or l r) := by
  refine ⟨fun {p ts rest e'} hp hle hfollows hreads => ?_⟩
  have hright : Reads (.expr .or) (vs ++ ts) [r] ts :=
    hr.reads (by decide) (Nat.le_refl _) hfollows hfollows.2
  rw [List.append_assoc]
  refine hl.climb hp (le_trans' hle (by decide)) ?_ (.step ?_ (.or ht hright) hreads)
  · rw [List.cons_append, kindOf_cons, ht]
    exact ⟨by decide, by decide⟩
  · rwa [List.cons_append, kindOf_cons, ht]

/-! ### Calls and properties -/

/-- Operators that bind most tightly lead behind an expression of their level. -/
theorem Leads.behind (hl : Leads .call us l) (hcall : (kindOf vs).rule.precedence = .call)
    (h : ∀ {c : Bool} {ts : List Token}, kindOf ts ≠ .equal →
      Reads (.behind c l) (vs ++ ts) [e] ts) : Leads .call (us ++ vs) e := by
  obtain ⟨t, vs, rfl⟩ : ∃ t vs', vs = t :: vs' := by
    cases vs with
    | nil => cases hcall
    | cons t vs => exact ⟨t, vs, rfl⟩
  refine ⟨fun {p ts rest e'} hp hle hfollows hreads => ?_⟩
  rw [kindOf_cons] at hcall
  rw [List.append_assoc]
  refine hl.climb hp hle ?_ (.step ?_ (h hfollows.1) hreads)
  · rw [List.cons_append, kindOf_cons]
    refine ⟨?_, by rw [hcall]; decide⟩
    intro hequal
    rw [hequal] at hcall
    cases hcall
  · rwa [List.cons_append, kindOf_cons, hcall]

/-- A call with arguments is a call of what stands in front of them. -/
theorem leads_call {opening closing : Token} {es : List Expr} (hl : Leads .call us l)
    (hopening : opening.kind = .leftParen) (hargs : LeadsArguments vs es)
    (hclosing : closing.kind = .rightParen) :
    Leads .call (us ++ opening :: vs ++ [closing]) (.call l es) := by
  rw [List.append_assoc]
  refine hl.behind (by rw [List.cons_append, kindOf_cons, hopening]; rfl) fun {c ts} _ => ?_
  rw [List.cons_append, List.cons_append, List.append_assoc]
  exact .call hopening (hargs.reads (closing :: ts) hclosing) hclosing

/-- A call without arguments is a call of what stands in front of it. -/
theorem leads_callNone {opening closing : Token} (hl : Leads .call us l)
    (hopening : opening.kind = .leftParen) (hclosing : closing.kind = .rightParen) :
    Leads .call (us ++ [opening, closing]) (.call l []) :=
  hl.behind (by rw [kindOf_cons, hopening]; rfl) fun _ => .callNone hopening hclosing

/-- A property that is read is one of what stands in front of it. -/
theorem leads_get {dot name : Token} (hl : Leads .call us l) (hdot : dot.kind = .dot)
    (hname : name.kind = .identifier) :
    Leads .call (us ++ [dot, name]) (.get l name.lexeme) :=
  hl.behind (by rw [kindOf_cons, hdot]; rfl) fun hequal =>
    .get hdot hname fun h => hequal h.2

/-- One expression is a list of arguments. -/
theorem leadsArguments_last (h : Leads .assignment us e) : LeadsArguments us [e] := by
  refine ⟨fun ts hts => ?_⟩
  refine .lastArgument (h.reads_of_none ts (Nat.le_refl _) ?_ ?_) ?_
  all_goals rw [hts]; first | rfl | decide

/-- An argument in front of others makes one more. -/
theorem leadsArguments_cons {comma : Token} {es : List Expr} (h : Leads .assignment us e)
    (hcomma : comma.kind = .comma) (hes : LeadsArguments vs es) :
    LeadsArguments (us ++ comma :: vs) (e :: es) := by
  refine ⟨fun ts hts => ?_⟩
  rw [List.append_assoc]
  refine .argument (h.reads_of_none (comma :: (vs ++ ts)) (Nat.le_refl _) ?_ ?_) hcomma
    (hes.reads ts hts)
  all_goals rw [kindOf_cons, hcomma]; first | rfl | decide

/-! ### Assignments -/

/-- Only the weakest level is as weak as an assignment. -/
theorem eq_assignment_of_le (h₁ : .assignment ≤ p) (h₂ : p ≤ .assignment) : p = .assignment := by
  cases p <;> first | rfl | exact absurd h₁ (by decide) | exact absurd h₂ (by decide)

/-- A name, `=` and an expression make an assignment. -/
theorem leads_assign {equal : Token} (ht : t.kind = .identifier) (hequal : equal.kind = .equal)
    (h : Leads .assignment us e) :
    Leads .assignment (t :: equal :: us) (.assign t.lexeme e) := by
  refine ⟨fun {p ts rest e'} hp hle hfollows hreads => ?_⟩
  obtain rfl := eq_assignment_of_le hp hle
  exact .expr (.assign ht hequal (h.reads hp hle hfollows hfollows.2)) hreads

/-- A property, `=` and an expression make one, too. -/
theorem leads_set {dot name equal : Token} {v : Expr} (hl : Leads .call us l)
    (hdot : dot.kind = .dot) (hname : name.kind = .identifier) (hequal : equal.kind = .equal)
    (hv : Leads .assignment vs v) :
    Leads .assignment (us ++ dot :: name :: equal :: vs) (.set l name.lexeme v) := by
  refine ⟨fun {p ts rest e'} hp hle hfollows hreads => ?_⟩
  obtain rfl := eq_assignment_of_le hp hle
  have hvalue : Reads (.expr .assignment) (vs ++ ts) [v] ts :=
    hv.reads hp hle hfollows hfollows.2
  rw [List.append_assoc]
  refine hl.climb hp (by decide) ?_ (.step ?_ (.set hdot hname hequal hvalue) hreads)
  · rw [List.cons_append, kindOf_cons, hdot]
    exact ⟨by decide, by decide⟩
  · rw [List.cons_append, kindOf_cons, hdot]
    decide

end LoxBytecode
