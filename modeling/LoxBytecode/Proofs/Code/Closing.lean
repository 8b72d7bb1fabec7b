import LoxBytecode.Proofs.Code.Shape

/-!
# How Scopes Close

At its end a scope removes its locals from the stack, and a local that a closure holds on to moves
away instead. Whether one does can be read off the code: `Item.captures` says whether a closure
that was written while the local was in scope carries the local's slot. `ClosedCode` is `StmtCode`
with that said at the end of every block and every loop with a scope.
-/

namespace LoxBytecode

/-! ### Closures in code -/

/-- The pairs of bytes that say how a closure gets its captures. -/
def pairsOf : List UInt8 → List (UInt8 × UInt8)
  | a :: b :: rest => (a, b) :: pairsOf rest
  | _ => []

namespace Item

/-- The number of locals in scope where an item was written. -/
def locals : Item → Nat
  | .instr _ _ n => n
  | .mark _ n => n

/-- The item is a closure that carries the pair of 1 and a slot. -/
def carries (slot : Nat) : Item → Bool
  | .instr .closure (_ :: pairs) _ =>
    (pairsOf pairs).any fun p => p.1 == 1 && p.2.toNat == slot
  | _ => false

/-- Some closure carries the slot that was written while the local in it, which is in scope at
the end, was in scope: behind the last item that was written with nothing in the slot. -/
def captures (slot : Nat) (is : List Item) : Bool :=
  (is.reverse.takeWhile (slot < ·.locals)).any (carries slot)

variable {is js : List Item} {slot : Nat}

@[simp] theorem captures_nil : captures slot [] = false := rfl

/-- All of the second part was written while the local was in scope. -/
theorem captures_append (hjs : ∀ i ∈ js, slot < i.locals) :
    captures slot (is ++ js) = (captures slot is || js.any (carries slot)) := by
  have hall : ∀ i ∈ js.reverse, decide (slot < i.locals) = true := by
    simpa using hjs
  rw [captures, List.reverse_append, List.takeWhile_append_of_pos hall, List.any_append,
    List.any_reverse, Bool.or_comm, captures]

/-- At the end of the second part there was nothing in the slot. -/
theorem captures_of_getLast {i : Item} (hi : i.locals ≤ slot) :
    captures slot (is ++ [i]) = false := by
  rw [captures, List.reverse_append, List.reverse_singleton, List.singleton_append,
    List.takeWhile_cons_of_neg (by simpa using hi), List.any_nil]

/-- A part that carries nothing to its end adds nothing to what stands behind it. -/
theorem captures_append_of_false (his : captures slot is = false) :
    captures slot (is ++ js) = captures slot js := by
  by_cases hjs : ∀ i ∈ js, slot < i.locals
  · have hall : ∀ i ∈ js.reverse, decide (slot < i.locals) = true := by
      simpa using hjs
    rw [captures_append hjs, his, Bool.false_or, captures,
      ← List.append_nil js.reverse, List.takeWhile_append_of_pos hall, List.takeWhile_nil,
      List.append_nil, List.any_reverse]
  · rw [captures, captures, List.reverse_append, List.takeWhile_append, if_neg]
    intro hlength
    have hwhole := (List.takeWhile_prefix _).eq_of_length hlength
    have hall := List.all_takeWhile (l := js.reverse) (p := fun i => decide (slot < i.locals))
    rw [hwhole, List.all_eq_true] at hall
    exact hjs fun i hi => of_decide_eq_true (hall i (List.mem_reverse.mpr hi))

/-- Among items that have the slot, one captures it if and only if one carries it. -/
theorem captures_eq_any (his : ∀ i ∈ is, slot < i.locals) :
    captures slot is = is.any (carries slot) := by
  have hall : captures slot ([] ++ is) = (captures slot [] || is.any (carries slot)) :=
    captures_append his
  simpa using hall

/-- Nothing that carries the slot, no matter when. -/
theorem captures_eq_false (his : ∀ i ∈ is, i.carries slot = false) : captures slot is = false := by
  rw [captures, List.any_eq_false]
  intro i hi
  simpa using his i (by simpa using (List.takeWhile_prefix _).subset hi)

/-- The instructions that remove the locals in the slots from `low` up to `high`, the innermost
first, behind the code of their scope. -/
def closing (low high : Nat) (is : List Item) : List Item :=
  (List.range (high - low)).reverse.map fun j =>
    .instr (if captures (low + j) is then .closeUpvalue else .pop) [] low

end Item

/-! ### Programs whose scopes close -/

/-- No statement is inside the statement, and it has no scope of its own. -/
def Stmt.Simple : Stmt → Prop
  | .skip | .expression _ | .print _ | .del .. | .ret _ | .varDecl .. | .classDecl _ => True
  | _ => False

/-- The code of a statement in which every scope closes as it should: at the end of a block and
of a loop with a scope stands one instruction for each local of that scope, the innermost first,
which moves the local away if a closure carries it and else drops it. The same holds in every
function that is declared in the statement. -/
inductive ClosedCode : World → Scope → Stmt → List Item → Scope → Prop
  | simple {w : World} {Γ Γ' : Scope} {st : Stmt} {is : List Item} :
      st.Simple → StmtCode w Γ st is Γ' → ClosedCode w Γ st is Γ'
  | seq {w : World} {Γ Γ₁ Γ₂ : Scope} {s₁ s₂ : Stmt} {a b : List Item} :
      ClosedCode w Γ s₁ a Γ₁ → ClosedCode w Γ₁ s₂ b Γ₂ → ClosedCode w Γ (.seq s₁ s₂) (a ++ b) Γ₂
  | marked {w : World} {Γ Γ₁ : Scope} {st : Stmt} {a : List Item} (phrase : Phrase) :
      ClosedCode w Γ st a Γ₁ →
        ClosedCode w Γ st (Γ.mark (.begins phrase) :: a ++ [Γ₁.mark (.ends phrase)]) Γ₁
  | branch {w : World} {Γ Γ₁ Γ₂ : Scope} {c : Expr} {yes no : Stmt} {a b d : List Item} :
      ExprCode w Γ [c] a → ClosedCode w Γ yes b Γ₁ → ClosedCode w Γ₁ no d Γ₂ →
        ClosedCode w Γ (.branch c yes no)
          (a ++ Γ.jump .jumpIfFalse
            (Γ.op .pop [] :: b ++ [Γ₁.jump .jump (Γ₁.op .pop [] :: d)]) ::
          Γ.op .pop [] :: b ++ Γ₁.jump .jump (Γ₁.op .pop [] :: d) :: Γ₁.op .pop [] :: d) Γ₂
  | whileLoop {w : World} {Γ Γ₁ : Scope} {c : Expr} {body : Stmt} {a b : List Item} :
      ExprCode w Γ [c] a → ClosedCode w Γ body b Γ₁ →
        ClosedCode w Γ (.whileLoop c body) (LoopParts.mk Γ Γ₁ (some a) none b).items Γ₁
  | forLoop {w : World} {Γ Γ₁ Γ₂ : Scope} {first body : Stmt} {c step : Option Expr}
      {a b : List Item} {head tail : Option (List Item)} :
      ClosedCode w Γ.enter first a Γ₁ → OptionCode w Γ₁ c head → OptionCode w Γ₁ step tail →
        ClosedCode w Γ₁ body b Γ₂ →
          ClosedCode w Γ (.forLoop first c step body)
            (a ++ (LoopParts.mk Γ₁ Γ₂ head tail b).items ++
              Item.closing Γ.locals.length Γ₂.locals.length
                (a ++ (LoopParts.mk Γ₁ Γ₂ head tail b).items)) Γ₂.leave
  | block {w : World} {Γ Γ₁ : Scope} {body : Stmt} {a : List Item} :
      ClosedCode w Γ.enter body a Γ₁ →
        ClosedCode w Γ (.block body) (a ++ Item.closing Γ.locals.length Γ₁.locals.length a)
          Γ₁.leave
  | funDecl {w : World} {Γ Γ₁ Γ₂ : Scope} {name : String} {parameters : List String}
      {body : Stmt} {k : UInt8} {o : FunctionObject} {captures : List Capture}
      {pairs : List UInt8} {a after : List Item} :
      w.MakesClosure Γ₁ o k captures pairs →
        ClosedCode (w.inside Γ₁ o captures) (.ofParameters parameters) body a Γ₂ →
          o.chunk.code.toList = Item.code (a ++ [Γ₂.op .nil [], Γ₂.op .ret []]) →
            StmtCode w Γ (.funDecl name parameters body) (Γ₁.op .closure (k :: pairs) :: after) Γ₁ →
              ClosedCode w Γ (.funDecl name parameters body)
                (Γ₁.op .closure (k :: pairs) :: after) Γ₁

/-- Code that closes its locals does so in every later world. -/
theorem ClosedCode.mono {w w' : World} (h : w.Le w') {Γ Γ' : Scope} {st : Stmt}
    {is : List Item} (hc : ClosedCode w Γ st is Γ') : ClosedCode w' Γ st is Γ' := by
  induction hc generalizing w' with
  | simple hst hcode => exact .simple hst (hcode.mono h)
  | seq _ _ ihFirst ihSecond => exact .seq (ihFirst h) (ihSecond h)
  | marked phrase _ ih => exact .marked phrase (ih h)
  | branch hc _ _ ihYes ihNo => exact .branch (hc.mono h) (ihYes h) (ihNo h)
  | whileLoop hc _ ih => exact .whileLoop (hc.mono h) (ih h)
  | forLoop _ hc hstep _ ihFirst ihBody =>
      exact .forLoop (ihFirst h) (hc.mono h) (hstep.mono h) (ihBody h)
  | block _ ih => exact .block (ih h)
  | funDecl hm _ hcode hst ih =>
      exact .funDecl (hm.mono h) (ih (hm.le_inside h)) hcode (hst.mono h)

end LoxBytecode
