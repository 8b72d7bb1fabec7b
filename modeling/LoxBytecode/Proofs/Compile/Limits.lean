import LoxBytecode.Proofs.Compile.Following
import LoxBytecode.Proofs.Syntax.Deriving
import LoxBytecode.Proofs.Walk.Program

/-!
# What a Program May Demand

A source that the grammar derives is compiled into a script just when its program demands nothing
that is not met (`compile_ok_iff_met`). Following the compilation walks through the program, and
stops at the first demand that is not met. No other problem is left: the tokens are in order.
-/

namespace LoxBytecode

open Heap Session CompileM GrammarSymbol

variable {source : String} {h : Heap} {host : List Value} {program : Stmt}

/-- A whole script walks. -/
theorem walks_script {ts : List Token} {e : Token} (he : e.kind = .eof)
    (h : ReadsStmt .program ts program []) (budget : Nat) : ∃ y,
      (declarations budget >>= fun _ => emitReturn).Walks ⟨ts ++ [e], Token.eof 1, [], []⟩ .script
        () y (program.walk .script).after :=
  ⟨_, (walks_declarations he h).bind (walks_emitAll _)⟩

/-- A source whose tokens the grammar derives is read as a program, and compiled into a script
if and only if all that the program demands is met. -/
theorem compile_ok_iff_met (hw : h.Wf) (host : List Value)
    (hclean : ∀ t ∈ (TokenStream.ofSource source).ahead, t.kind ≠ .error)
    (hderives : Derives [.phrase .program]
      ((TokenStream.ofSource source).toList.map Token.kind)) :
    ∃ program c, ReadsStmt .program (TokenStream.ofSource source).ahead program [] ∧
      compile source h host = .ok c ∧
      ((∃ script, c.outcome = .ok script) ↔ ∀ d ∈ program.demands, d.Met) := by
  obtain ⟨us, e, program, htokens, he, hreads⟩ :=
    exists_readsStmt_of_derives hderives (TokenStream.legible_of_mem_toList source)
  obtain ⟨rfl, hend⟩ := List.append_inj' htokens rfl
  obtain ⟨c, hc, hexplains⟩ := exists_compile_follows hw host hclean
  obtain ⟨y, hwalks⟩ := walks_script he hreads (budget (TokenStream.ofSource source))
  refine ⟨program, c, hreads, hc, ?_⟩
  rw [htokens] at hexplains
  have hdemands {ds : List Demand}
      (hds : (program.walk .script).after.demands = Walk.script.demands ++ ds) :
      program.demands = ds := hds
  generalize c.outcome = outcome at hexplains ⊢
  cases hwalks with
  | met hds hmet hfollow =>
      rw [Stage.script, hfollow] at hexplains
      rw [hdemands hds]
      cases hexplains
      exact ⟨fun _ => hmet, fun _ => ⟨_, rfl⟩⟩
  | unmet hds hunmet _ hfollow =>
      rw [Stage.script, hfollow] at hexplains
      rw [hdemands hds]
      cases hexplains
      refine ⟨?_, fun hmet => absurd hmet hunmet⟩
      rintro ⟨_, ⟨⟩⟩
  | fault hds hfollow =>
      rw [Stage.script, hfollow] at hexplains
      cases hexplains

/-- A block that declares a name once is compiled just because its demands are met. -/
theorem compile_ok_iff_met_block :
    ∃ program c, ReadsStmt .program (TokenStream.ofSource "{ var a; }").ahead program [] ∧
      compile "{ var a; }" (ofConfig ⟨true, 0, 2⟩) [] = .ok c ∧
      ((∃ script, c.outcome = .ok script) ↔ ∀ d ∈ program.demands, d.Met) := by
  have hkinds : (TokenStream.ofSource "{ var a; }").toList.map Token.kind =
      [.leftBrace, .varWord, .identifier, .semicolon, .rightBrace, .eof] := by
    cbv
  have hclean : ∀ t ∈ (TokenStream.ofSource "{ var a; }").ahead, t.kind ≠ .error := by
    intro t ht herror
    have hmem : TokenKind.error ∈ (TokenStream.ofSource "{ var a; }").toList.map Token.kind :=
      List.mem_map.mpr ⟨t, List.mem_append_left _ ht, herror⟩
    rw [hkinds] at hmem
    exact absurd hmem (by decide)
  have hvar : Derives [phrase .varDeclaration] [.varWord, .identifier, .semicolon] :=
    .rule (by decide) (.token (.token (.token .nil)))
  have hseveral {ks : List TokenKind} (h : Derives [phrase .declaration] ks) :
      Derives [phrase .declarations] (ks ++ []) :=
    .rule (ρ := [phrase .declaration, phrase .declarations]) (by decide)
      (h.append (.rule (List.mem_cons_self ..) .nil))
  have hblock : Derives [phrase .block]
      [.leftBrace, .varWord, .identifier, .semicolon, .rightBrace] :=
    .rule (by decide) (.token ((hseveral (.rule (by decide) hvar)).append (.token .nil)))
  have hderives : Derives [phrase .program]
      [.leftBrace, .varWord, .identifier, .semicolon, .rightBrace, .eof] :=
    .rule (by decide) ((hseveral (.rule (by decide)
      (.rule (n := .statement) (by decide) hblock))).append (.token .nil))
  exact compile_ok_iff_met (Reachable.ofConfig ⟨true, 0, 2⟩).wf [] hclean (hkinds ▸ hderives)

end LoxBytecode
