import LoxBytecode.Proofs.Compile.Source

/-!
# Scopes of Compiled Code

In the code of a script, and of every function that it reaches, the scopes close as the closures
written in them ask for: behind a block and behind a loop with a scope of its own stands one
instruction for each local of the scope, the innermost first, which moves the local away just when
a closure that was written while the local was in scope carries its slot
(`compile_closes_scopes`).
-/

namespace LoxBytecode

open Heap

/-- In the code of a script every scope closes as it should, and so it is in every function that
the script reaches. -/
theorem compile_closes_scopes {source : String} {h : Heap} {host : List Value} (hw : h.Wf)
    {c : Compilation} {script : FunctionHandle} (hc : compile source h host = .ok c)
    (hok : c.outcome = .ok script) :
    (∃ o program is Γ, HoldsProgram (TokenStream.program source) c.heap
      (compileTrace source h host) script o program is Γ ∧
        ClosedCode (.ofScript c.heap o) ⟨[FunctionState.reserved], 0⟩ program is Γ) ∧
    ∀ g, c.heap.Reach [.function script] (.function g) →
      ClosedFunction c.heap (compileTrace source h host) g := by
  obtain ⟨t, o, program, is, Γ, rfl, hsound, hstores, hcomplete, hholds, hclosed⟩ :=
    exists_stored hw hc hok
  exact ⟨⟨o, program, is, Γ, hholds, hclosed⟩, fun g hg =>
    hstores.closed_of_holds hsound hcomplete hholds hclosed hg⟩

/-- A block with a local that a function inside captures, one that none does, and the local of
that function. -/
theorem compile_closes_scopes_capture :
    ∃ c o program is Γ, compile "{ var a; var b; fun f() { print a; } }"
        (ofConfig ⟨true, 0, 2⟩) [] = .ok c ∧ c.outcome = .ok ⟨0⟩ ∧
      c.heap.functions.get? 0 = some o ∧
      (o.chunk.code.toList.drop 2).take 7 = [Opcode.closure.toByte, 0, 1, 1,
        Opcode.pop.toByte, Opcode.pop.toByte, Opcode.closeUpvalue.toByte] ∧
      o.chunk.code.toList = Item.code (is ++ [Γ.op .nil [], Γ.op .ret []]) ∧
      ClosedCode (.ofScript c.heap o) ⟨[FunctionState.reserved], 0⟩ program is Γ := by
  have hrun : (compile "{ var a; var b; fun f() { print a; } }"
      (ofConfig ⟨true, 0, 2⟩) []).map (·.outcome.toOption) = .ok (some ⟨0⟩) := by
    cbv
  have hbytes : (compile "{ var a; var b; fun f() { print a; } }"
      (ofConfig ⟨true, 0, 2⟩) []).map (fun c => (c.heap.functions.get? 0).map fun o =>
        (o.chunk.code.toList.drop 2).take 7) =
      .ok (some [Opcode.closure.toByte, 0, 1, 1, Opcode.pop.toByte, Opcode.pop.toByte,
        Opcode.closeUpvalue.toByte]) := by
    cbv
  obtain ⟨c, hc, hok⟩ := exists_of_script_eq hrun
  obtain ⟨⟨o, program, is, Γ, hholds, hclosed⟩, -⟩ :=
    compile_closes_scopes (Reachable.ofConfig ⟨true, 0, 2⟩).wf hc hok
  have ho : c.heap.functions.get? 0 = some o := hholds.object
  rw [hc] at hbytes
  simp only [Except.map, ho, Option.map_some, Except.ok.injEq, Option.some.injEq] at hbytes
  exact ⟨c, o, program, is, Γ, hc, hok, ho, hbytes, hholds.bytes, hclosed⟩

end LoxBytecode
