import LoxBytecode.Proofs.Syntax.Climbing

/-!
# Printing Expressions

How an expression is written down with as few parentheses as possible: an operand has them
exactly when its outermost operator binds less tightly than its place asks for. Reading what
was printed gives the expression back, wherever it stands (`Prints.reads`).
-/

namespace LoxBytecode

/-! ### Levels -/

/-- The level of an operator between operands. -/
def BinaryOp.level : BinaryOp → Precedence
  | .equal | .notEqual => .equality
  | .greater | .greaterEqual | .less | .lessEqual => .comparison
  | .add | .subtract => .term
  | .multiply | .divide => .factor

/-- The level of the outermost operator of an expression. -/
def Expr.level : Expr → Precedence
  | .assign .. | .set .. => .assignment
  | .or .. => .or
  | .and .. => .and
  | .binary o .. => o.level
  | .unary .. => .unary
  | .call .. | .get .. => .call
  | .literal _ | .number _ | .string _ | .variable _ => .primary

/-- No expression binds more loosely than an assignment. -/
theorem Expr.assignment_le_level (e : Expr) : .assignment ≤ e.level := by
  cases e with
  | binary o => cases o <;> simp only [level, BinaryOp.level] <;> decide
  | _ => simp only [level]; decide

/-! ### Tokens -/

/-- The word of a literal. -/
def Literal.token : Literal → TokenKind
  | .nil => .nilWord
  | .true => .trueWord
  | .false => .falseWord

/-- The token of a unary operator. -/
def UnaryOp.token : UnaryOp → TokenKind
  | .negate => .minus
  | .not => .bang

/-- The token of a binary operator. -/
def BinaryOp.token : BinaryOp → TokenKind
  | .equal => .equalEqual
  | .notEqual => .bangEqual
  | .greater => .greater
  | .greaterEqual => .greaterEqual
  | .less => .less
  | .lessEqual => .lessEqual
  | .add => .plus
  | .subtract => .minus
  | .multiply => .star
  | .divide => .slash

/-! ### Printing -/

/-- What of an expression is printed. -/
inductive PrintPart where
  /-- An expression in a place that asks for a level. -/
  | operand (p : Precedence)
  /-- An expression without parentheses around it. -/
  | bare
  /-- The arguments of a call. -/
  | arguments

/-- Some expressions are printed as some tokens, on whatever lines these stand. Numbers and
strings have any lexeme that says which ones they are. -/
inductive Prints : PrintPart → List Expr → List Token → Prop
  | plain {p : Precedence} {e : Expr} {us : List Token} : p ≤ e.level → Prints .bare [e] us →
      Prints (.operand p) [e] us
  | wrapped {p : Precedence} {e : Expr} {opening closing : Token} {us : List Token} :
      ¬ p ≤ e.level → opening.kind = .leftParen → Prints .bare [e] us →
        closing.kind = .rightParen → Prints (.operand p) [e] (opening :: us ++ [closing])
  | literal {l : Literal} {t : Token} : t.kind = l.token → Prints .bare [.literal l] [t]
  | number {x : Number} {t : Token} : t.kind = .number → Number.ofText? t.lexeme = some x →
      Prints .bare [.number x] [t]
  | string {text : String} {t : Token} : t.kind = .string →
      Session.unquote t.lexeme = .ok text → Prints .bare [.string text] [t]
  | variable {t : Token} : t.kind = .identifier → Prints .bare [.variable t.lexeme] [t]
  | assign {e : Expr} {t equal : Token} {us : List Token} : t.kind = .identifier →
      equal.kind = .equal → Prints (.operand .assignment) [e] us →
        Prints .bare [.assign t.lexeme e] (t :: equal :: us)
  | unary {o : UnaryOp} {e : Expr} {t : Token} {us : List Token} : t.kind = o.token →
      Prints (.operand .unary) [e] us → Prints .bare [.unary o e] (t :: us)
  | binary {o : BinaryOp} {l r : Expr} {t : Token} {us vs : List Token} :
      Prints (.operand o.level) [l] us → t.kind = o.token →
        Prints (.operand o.level.next) [r] vs → Prints .bare [.binary o l r] (us ++ t :: vs)
  | and {l r : Expr} {t : Token} {us vs : List Token} : Prints (.operand .equality) [l] us →
      t.kind = .andWord → Prints (.operand .and) [r] vs → Prints .bare [.and l r] (us ++ t :: vs)
  | or {l r : Expr} {t : Token} {us vs : List Token} : Prints (.operand .and) [l] us →
      t.kind = .orWord → Prints (.operand .or) [r] vs → Prints .bare [.or l r] (us ++ t :: vs)
  | call {f : Expr} {es : List Expr} {opening closing : Token} {us vs : List Token} :
      Prints (.operand .call) [f] us → opening.kind = .leftParen → Prints .arguments es vs →
        closing.kind = .rightParen → Prints .bare [.call f es] (us ++ opening :: vs ++ [closing])
  | get {e : Expr} {dot name : Token} {us : List Token} : Prints (.operand .call) [e] us →
      dot.kind = .dot → name.kind = .identifier →
        Prints .bare [.get e name.lexeme] (us ++ [dot, name])
  | set {e v : Expr} {dot name equal : Token} {us vs : List Token} :
      Prints (.operand .call) [e] us → dot.kind = .dot → name.kind = .identifier →
        equal.kind = .equal → Prints (.operand .assignment) [v] vs →
          Prints .bare [.set e name.lexeme v] (us ++ dot :: name :: equal :: vs)
  | noArguments : Prints .arguments [] []
  | lastArgument {e : Expr} {us : List Token} : Prints (.operand .assignment) [e] us →
      Prints .arguments [e] us
  | argument {e e' : Expr} {es : List Expr} {comma : Token} {us vs : List Token} :
      Prints (.operand .assignment) [e] us → comma.kind = .comma →
        Prints .arguments (e' :: es) vs → Prints .arguments (e :: e' :: es) (us ++ comma :: vs)

/-! ### Reading back -/

/-- What is printed leads. -/
def PrintPart.Leading : PrintPart → List Expr → List Token → Prop
  | .operand p, es, us => ∀ e ∈ es, Leads p us e
  | .bare, es, us => ∀ e ∈ es, Leads e.level us e
  | .arguments, es, us => es = [] ∧ us = [] ∨ LeadsArguments us es

/-- What is printed begins with a token that can stand at the start of such a part. -/
theorem Prints.leading {part : PrintPart} {es : List Expr} {us : List Token}
    (h : Prints part es us) : part.Leading es us := by
  induction h with
  | plain hle _ ih =>
      exact List.forall_mem_singleton.mpr ((List.forall_mem_singleton.mp ih).of_le hle)
  | @wrapped _ e _ _ _ _ hopening _ hclosing ih =>
      have hbare := (List.forall_mem_singleton.mp ih).of_le e.assignment_le_level
      exact List.forall_mem_singleton.mpr (leads_grouping hopening hbare hclosing)
  | @literal l t ht =>
      refine List.forall_mem_singleton.mpr (leads_of_start fun _ => .literal ?_)
      rw [ht]
      cases l <;> rfl
  | number ht hx => exact List.forall_mem_singleton.mpr (leads_of_start fun _ => .number ht hx)
  | string ht htext =>
      exact List.forall_mem_singleton.mpr (leads_of_start fun _ => .string ht htext)
  | «variable» ht =>
      exact List.forall_mem_singleton.mpr
        (leads_of_start fun hequal => .variable ht fun h => hequal h.2)
  | assign ht hequal _ ih =>
      exact List.forall_mem_singleton.mpr
        (leads_assign ht hequal (List.forall_mem_singleton.mp ih))
  | @unary o _ t _ ht _ ih =>
      refine List.forall_mem_singleton.mpr (leads_unary ?_ (List.forall_mem_singleton.mp ih))
      rw [ht]
      cases o <;> rfl
  | @binary o l r t us vs _ ht _ ihLeft ihRight =>
      have htoken : BinaryOp.ofKind? t.kind = some o ∧ o.level = t.kind.rule.precedence := by
        rw [ht]
        cases o <;> exact ⟨rfl, rfl⟩
      obtain ⟨ho, hlevel⟩ := htoken
      refine List.forall_mem_singleton.mpr ?_
      have hl := List.forall_mem_singleton.mp ihLeft
      have hr := List.forall_mem_singleton.mp ihRight
      rw [Expr.level]
      rw [hlevel] at hl hr ⊢
      exact leads_binary ho hl hr
  | and _ ht _ ihLeft ihRight =>
      exact List.forall_mem_singleton.mpr
        (leads_and ht (List.forall_mem_singleton.mp ihLeft) (List.forall_mem_singleton.mp ihRight))
  | or _ ht _ ihLeft ihRight =>
      exact List.forall_mem_singleton.mpr
        (leads_or ht (List.forall_mem_singleton.mp ihLeft) (List.forall_mem_singleton.mp ihRight))
  | call _ hopening _ hclosing ihCallee ihArguments =>
      have hcallee := List.forall_mem_singleton.mp ihCallee
      refine List.forall_mem_singleton.mpr ?_
      rcases ihArguments with ⟨rfl, rfl⟩ | harguments
      · rw [List.append_assoc]
        exact leads_callNone hcallee hopening hclosing
      · exact leads_call hcallee hopening harguments hclosing
  | get _ hdot hname ih =>
      exact List.forall_mem_singleton.mpr
        (leads_get (List.forall_mem_singleton.mp ih) hdot hname)
  | set _ hdot hname hequal _ ihObject ihValue =>
      exact List.forall_mem_singleton.mpr
        (leads_set (List.forall_mem_singleton.mp ihObject) hdot hname hequal
          (List.forall_mem_singleton.mp ihValue))
  | noArguments => exact Or.inl ⟨rfl, rfl⟩
  | lastArgument _ ih => exact Or.inr (leadsArguments_last (List.forall_mem_singleton.mp ih))
  | argument _ hcomma _ ihHead ihTail =>
      refine Or.inr (leadsArguments_cons (List.forall_mem_singleton.mp ihHead) hcomma ?_)
      rcases ihTail with ⟨hnil, -⟩ | htail
      · cases hnil
      · exact htail

/-- A printed expression is read in front of a token that neither continues an expression nor is
`=`, and exactly its tokens are. -/
theorem Prints.reads {e : Expr} {us ts : List Token} (h : Prints (.operand .assignment) [e] us)
    (hprecedence : (kindOf ts).rule.precedence = .none) (hequal : kindOf ts ≠ .equal) :
    Reads (.expr .assignment) (us ++ ts) [e] ts :=
  Leads.reads_of_none (List.forall_mem_singleton.mp h.leading) ts (Nat.le_refl _) hprecedence hequal

end LoxBytecode
