import LoxBytecode.Proofs.Compile.Totality
import LoxBytecode.Proofs.Session.Nests
import LoxBytecode.Proofs.Syntax.Printing
import LoxBytecode.Proofs.Walk.Consuming

/-!
# Compiling a Printed Expression

An expression that is printed with as few parentheses as possible is compiled by walking through
its tree (`expression_compiles`), in whatever state the compilation is that is not recovering:
exactly the printed tokens are passed, and exactly the code of the walk is added, unless a limit
is reported.
-/

namespace LoxBytecode

open Heap Session CompileM

variable {s : Session} {e : Expr} {es : List Expr} {us rest : List Token}

/-- An expression is printed by tokens that are no errors and do not end the source. -/
theorem Prints.kind_ne {part : PrintPart} (h : Prints part es us) :
    ∀ u ∈ us, u.kind ≠ .error ∧ u.kind ≠ .eof := by
  induction h with
  | plain _ _ ih | lastArgument _ ih => exact ih
  | @literal l _ ht => cases l <;> simp [ht, Literal.token]
  | @unary o _ _ _ ht _ ih => cases o <;> simp_all [UnaryOp.token]
  | @binary o _ _ _ _ _ _ ht _ ih₁ ih₂ => cases o <;> simp_all [BinaryOp.token, or_imp]
  | _ => simp_all [or_imp]

/-- Every expression is printed as at least one token. -/
theorem Prints.ne_nil (h : Prints (.operand .assignment) [e] us) : us ≠ [] := by
  rintro rfl
  have hreads : Reads (.expr .assignment) [] [e] [] := h.reads rfl (by decide)
  exact hreads.atStart rfl

/-- The token that follows the last of some tokens. -/
def followedBy (rest : List Token) (endLine : Nat) : Token :=
  (⟨rest, endLine⟩ : TokenStream).next.1

/-- The token behind the expression has the kind of the first of the rest, or ends the source. -/
theorem kind_followedBy (rest : List Token) (endLine : Nat) :
    (followedBy rest endLine).kind = kindOf rest := by
  cases rest <;> rfl

/-- Some tokens without errors are expected where they and the one behind them are ahead. -/
theorem expects_of_append (htokens : s.current :: s.upcoming.ahead = us ++ rest) (hne : us ≠ [])
    (hus : ∀ u ∈ us, u.kind ≠ .error ∧ u.kind ≠ .eof) (hrest : kindOf rest ≠ .error) :
    s.Expects (us ++ [followedBy rest s.upcoming.endLine]) := by
  cases us with
  | nil => exact absurd rfl hne
  | cons u us =>
      obtain ⟨hcurrent, hahead⟩ := List.cons.inj htokens
      replace hahead : s.upcoming.ahead = us ++ rest := hahead
      obtain ⟨hu, hus⟩ := List.forall_mem_cons.mp hus
      refine ⟨hcurrent, fun heof => absurd heof hu.2, ?_, ?_⟩
      · rw [if_neg hu.2, TokenStream.toList, hahead, List.append_assoc]
        refine (List.prefix_append_right_inj us).mpr ?_
        cases rest with
        | nil => exact List.prefix_refl _
        | cons => exact ⟨_, rfl⟩
      · refine List.forall_mem_append.mpr ⟨fun u hu => (hus u hu).1, ?_⟩
        rw [List.forall_mem_singleton, kind_followedBy]
        exact hrest

/-- A run of a compilation that walks does so too, or reports a limit first. -/
theorem CompileM.Walks.of_run {α : Type} {m : CompileM α} {x y : Site} {w w' : Walk} {a b : α}
    {t : Session} (h : m.Walks x w a y w') (hs : s.Reached (x.stage w))
    (hrun : m.run s = .ok (b, t)) : ∃ ds, w'.demands = w.demands ++ ds ∧
      ((∀ d ∈ ds, d.Met) ∧ t.Reached (y.stage w') ∧ t.diagnostics = s.diagnostics ∨
        (∃ d ∈ ds, ¬ d.Met) ∧ ∃ p tok, p.IsLimit ∧ s.Reports t p tok) := by
  have htracks := m.tracks hs hrun
  cases h with
  | met hds hmet hfollow =>
      rw [hfollow] at htracks
      cases htracks with
      | ok ht hdiagnostics => exact ⟨_, hds, Or.inl ⟨hmet, ht, hdiagnostics⟩⟩
  | unmet hds hunmet hlimit hfollow =>
      rw [hfollow] at htracks
      cases htracks with
      | problem hreports =>
          exact ⟨_, hds, Or.inr ⟨by simpa using hunmet, _, _, hlimit, hreports⟩⟩
  | fault hds hfollow =>
      rw [hfollow] at htracks
      cases htracks

/-- Compiling a printed expression in front of a token that neither continues an expression nor
is `=`. -/
theorem expression_compiles {budget : Nat} (hs : s.Bounded) (halert : s.recovering = false)
    (hbudget : s.left < budget) (hprints : Prints (.operand .assignment) [e] us)
    (htokens : s.current :: s.upcoming.ahead = us ++ rest)
    (hprecedence : (kindOf rest).rule.precedence = .none) (hequal : kindOf rest ≠ .equal)
    (herror : kindOf rest ≠ .error) :
    ∃ t, (expression budget).run s = .ok ((), t) ∧
      (t.current, t.upcoming) = (⟨rest, s.upcoming.endLine⟩ : TokenStream).next ∧
      ((∀ d ∈ (e.walk ⟨s.nest, []⟩).after.demands, d.Met) ∧
          t.diagnostics = s.diagnostics ∧ t.recovering = false ∧
          t.chunk.code.toList = s.chunk.code.toList ++ (e.walk ⟨s.nest, []⟩).code ∧
          t.nest = (e.walk ⟨s.nest, []⟩).after.toNest ∧ t.outerCode = s.outerCode ∨
        (∃ d ∈ (e.walk ⟨s.nest, []⟩).after.demands, ¬ d.Met) ∧
          ∃ p tok, p.IsLimit ∧ s.Reports t p tok) := by
  obtain ⟨⟨⟩, t, hrun, -⟩ := completes_parsePrecedence (p := .assignment) (by decide) budget s hs
    hbudget (Nat.zero_le _) trivial
  refine ⟨t, hrun, ?_, ?_⟩
  · have hstands : s.StandsAt s.previous (us ++ rest) s.upcoming.endLine := by
      rw [← htokens]
      exact ⟨rfl, rfl⟩
    obtain ⟨prev, hconsumes⟩ := consuming_parsePrecedence budget
      (hprints.reads hprecedence hequal) herror (fun _ => hequal) s.previous
    exact (hconsumes.of_run hstands hrun).2.next
  · have hkind := kind_followedBy rest s.upcoming.endLine
    have hreads : Reads (.expr .assignment) (us ++ [followedBy rest s.upcoming.endLine]) [e]
        [followedBy rest s.upcoming.endLine] :=
      hprints.reads (by rwa [kindOf_cons, hkind]) (by rwa [kindOf_cons, hkind])
    obtain ⟨prev, hwalks⟩ := walking_expression (w := ⟨s.nest, []⟩) budget hreads
      (List.cons_ne_nil _ _) (by rwa [kindOf_cons, hkind])
    obtain ⟨ds, hds, h | h⟩ := hwalks.of_run (hs.reached halert (expects_of_append htokens
      hprints.ne_nil hprints.kind_ne herror)) hrun
    · obtain ⟨hmet, ht, hdiagnostics⟩ := h
      exact Or.inl ⟨hds ▸ hmet, hdiagnostics, ht.alert, ht.code_eq, ht.nest_eq, ht.outerCode_eq⟩
    · exact Or.inr (hds ▸ h)

/-- The sum of two globals at the beginning of a script. -/
theorem expression_compiles_sum :
    ∃ t, (expression 5).run (start ⟨[⟨.identifier, "a", 1⟩, ⟨.plus, "+", 1⟩,
        ⟨.identifier, "b", 1⟩, ⟨.semicolon, ";", 1⟩], 1⟩ (ofConfig ⟨true, 0, 2⟩) []).advance =
          .ok ((), t) ∧ t.current = ⟨.semicolon, ";", 1⟩ ∧ t.diagnostics = #[] ∧
      t.chunk.code.toList = [Opcode.getGlobal.toByte, 0, Opcode.getGlobal.toByte, 1,
        Opcode.add.toByte] := by
  have hleft : Prints (.operand .term) [.variable "a"] [⟨.identifier, "a", 1⟩] :=
    .plain (by decide) (.variable (t := ⟨.identifier, "a", 1⟩) rfl)
  have hprints : Prints (.operand .assignment) [.binary .add (.variable "a") (.variable "b")]
      [⟨.identifier, "a", 1⟩, ⟨.plus, "+", 1⟩, ⟨.identifier, "b", 1⟩] :=
    .plain (by decide) (.binary (o := .add) hleft rfl
      (.plain (by decide) (.variable (t := ⟨.identifier, "b", 1⟩) rfl)))
  have hbounded : (start ⟨[⟨.identifier, "a", 1⟩, ⟨.plus, "+", 1⟩, ⟨.identifier, "b", 1⟩,
      ⟨.semicolon, ";", 1⟩], 1⟩ (ofConfig ⟨true, 0, 2⟩) []).advance.Bounded :=
    bounded_advance_start (Reachable.ofConfig ⟨true, 0, 2⟩).wf (by decide)
      (by simp [Token.Quoted])
  obtain ⟨t, hrun, hnext, h⟩ := expression_compiles hbounded rfl
    (Nat.lt_succ_self 4) hprints (show _ = _ ++ [(⟨.semicolon, ";", 1⟩ : Token)] from rfl) rfl
    (by decide) (by decide)
  refine ⟨t, hrun, (Prod.mk.inj hnext).1, ?_⟩
  rcases h with ⟨-, hdiagnostics, -, hcode, -⟩ | ⟨⟨d, hd, hunmet⟩, -⟩
  · exact ⟨hdiagnostics, hcode⟩
  · exfalso
    revert d
    decide

end LoxBytecode
