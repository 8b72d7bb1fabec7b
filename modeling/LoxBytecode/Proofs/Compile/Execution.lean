import Mathlib
import LoxBytecode.Proofs.Compile.History
import LoxBytecode.Proofs.Compile.Source
import LoxBytecode.Proofs.Machine.Statement
import LoxBytecode.Proofs.Syntax.Names
import LoxBytecode.Proofs.Syntax.Unique

/-!
# Running Scripts

A program without functions and classes does the same on the stack machine as by evaluation of
its syntax tree (`compile_runs`): it ends in the same way with the same output, and while it has
not ended, it prints the same on and on.
-/

namespace LoxBytecode

open Heap

/-! ### Runs -/

/-- Two ways to run a program, by how far they come in some rounds, end alike and print alike. -/
structure SameRuns (f g : Nat → Outcome) : Prop where
  ends : ∀ ending output,
    (∃ n, f n = (some ending, output)) ↔ ∃ n, g n = (some ending, output)
  prints : ∀ texts, (∃ n, texts <+: (f n).2) ↔ ∃ n, texts <+: (g n).2

section

variable {A : Arithmetic} {h : Heap} {c : Chunk} {m : Machine} {g : Nat → Outcome}

/-- A machine does the same as an evaluator if it comes as far, by as many steps at least while
the evaluator has not come to an end. -/
theorem Machine.sameRuns
    (hg : ∀ fuel, ∃ n, execute A h c n m = g fuel ∧ ((g fuel).1 = none → fuel ≤ n)) :
    SameRuns (fun n => execute A h c n m) g := by
  -- the machine stays where it has ended, so that it always makes as many steps
  have hlater : ∀ fuel, ∃ n, fuel ≤ n ∧ execute A h c n m = g fuel := by
    intro fuel
    obtain ⟨n, heq, hleast⟩ := hg fuel
    cases hfuel : (g fuel).1 with
    | none => exact ⟨n, hleast hfuel, heq⟩
    | some ending =>
        have hended : execute A h c n m = (some ending, (g fuel).2) := by rw [heq, ← hfuel]
        refine ⟨max n fuel, Nat.le_max_right .., ?_⟩
        rw [execute_of_ended hended (Nat.le_max_left ..), ← hfuel]
  refine ⟨fun ending output => ⟨?_, ?_⟩, fun texts => ⟨?_, ?_⟩⟩
  · rintro ⟨n, hended⟩
    obtain ⟨k, hle, heq⟩ := hlater n
    exact ⟨n, heq.symm.trans (execute_of_ended hended hle)⟩
  · rintro ⟨fuel, hended⟩
    obtain ⟨n, -, heq⟩ := hlater fuel
    exact ⟨n, heq.trans hended⟩
  · rintro ⟨n, hprints⟩
    obtain ⟨k, hle, heq⟩ := hlater n
    exact ⟨n, heq ▸ hprints.trans (output_execute_of_le m hle)⟩
  · rintro ⟨fuel, hprints⟩
    obtain ⟨n, -, heq⟩ := hlater fuel
    exact ⟨n, heq ▸ hprints⟩

end

/-! ### Sources -/

section

variable {A : Arithmetic} {h : Heap} {o : FunctionObject} {script : FunctionHandle}
  {program : Stmt} {is : List Item} {Γ : Scope} {ts : List Token} {σ : List Event}

/-- The machine before a script is where an evaluation begins. -/
theorem Mirrors.start (h : Heap) (script : FunctionHandle) :
    Mirrors h ⟨[FunctionState.reserved], 0⟩ .start [] 0 (.start script) where
  pc := rfl
  stack := ⟨[], .function script, rfl, .nil⟩
  frame := rfl
  globals _ := .none
  output := rfl

/-- A script comes as far as the evaluation of its program, and it never gets stuck. -/
theorem HoldsProgram.exists_execute (hp : HoldsProgram ts h σ script o program is Γ)
    (hwf : h.Wf) (hnames : ∀ t ∈ ts, t.lexeme ≠ "") (hfree : program.FunctionFree)
    (A : Arithmetic) (fuel : Nat) :
    (program.evaluate A fuel).1 ≠ some .fault ∧
      ∃ n, Machine.execute A h o.chunk n (.start script) = program.evaluate A fuel ∧
        ((program.evaluate A fuel).1 = none → fuel ≤ n) := by
  have hw : (World.ofScript h o).IsScript h o :=
    ⟨⟨rfl, rfl, hp.upvalues.symm⟩, rfl, hwf⟩
  have hholds := Chunk.Holds.of_eq hp.bytes
  have hreferences : ∀ r ∈ program.references .script, r.name ≠ "" :=
    (hp.reads.names (P := (· ≠ "")) hnames).2 .script
  have huncaptured : ∀ l ∈ [FunctionState.reserved], l.captured = false :=
    List.forall_mem_singleton.mpr rfl
  have hfollows : Machine.Follows A h o.chunk fuel (.start script)
      (program.exec A fuel true .start) _ :=
    hp.code.follows hw settled_script huncaptured hfree hreferences (by simp) (.start h script)
      hholds.left
  rw [Stmt.evaluate]
  cases hexec : program.exec A fuel true .start with
  | error outcome =>
      rw [hexec] at hfollows
      exact hfollows
  | ok σ' =>
      rw [hexec] at hfollows
      obtain ⟨n, m, hsteps, hm⟩ := hfollows
      have hnil := hholds.right
      obtain ⟨k, m', hsteps', -, hm'⟩ :=
        hm.computes_push (A := A) .nil (hm.step_eq hnil (.none []))
      have hreturn : Machine.step A h o.chunk m' = .error .finished :=
        hm'.step_eq hnil.of_instr (.none [])
      refine ⟨by simp, n + k + 1, ?_, by simp⟩
      rw [Machine.execute_add (hsteps.trans hsteps'), Machine.execute, hreturn]
      exact congrArg (some Ending.finished, ·) hm'.output

end

/-- The script of a source that is a program without functions and classes does what evaluation of
the program does, and the machine never gets stuck. -/
theorem compile_runs (source : String) {h : Heap} {host : List Value}
    (hreachable : h.Reachable) {c : Compilation} {script : FunctionHandle}
    (hc : compile source h host = .ok c) (hok : c.outcome = .ok script) {program : Stmt}
    (hreads : ReadsStmt .program (TokenStream.program source) program [])
    (hfree : program.FunctionFree) :
    ∃ o, c.heap.functions.get? script.index = some o ∧ ∀ A : Arithmetic,
      SameRuns (fun n => Machine.execute A c.heap o.chunk n (.start script))
        (program.evaluate A) ∧
      ∀ n, (Machine.execute A c.heap o.chunk n (.start script)).1 ≠ some .fault := by
  obtain ⟨⟨o, program', is, Γ, hprogram⟩, -⟩ := compile_translates hreachable.wf hc hok
  obtain ⟨rfl, -⟩ := hprogram.reads.unique hreads
  have hwf : c.heap.Wf := (compile_reachable hreachable hc).wf
  have hnames : ∀ t ∈ TokenStream.program source, t.lexeme ≠ "" := fun t ht =>
    TokenStream.lexeme_of_mem_ofSource source t (List.mem_filter.mp ht).1
  have hsame (A : Arithmetic) :=
    Machine.sameRuns fun fuel => (hprogram.exists_execute hwf hnames hfree A fuel).2
  refine ⟨o, hprogram.object, fun A => ⟨hsame A, fun n hfault => ?_⟩⟩
  obtain ⟨fuel, hfuel⟩ := ((hsame A).ends .fault _).mp ⟨n, Prod.ext hfault rfl⟩
  refine (hprogram.exists_execute hwf hnames hfree A fuel).1 ?_
  rw [hfuel]

/-- A loop in a block that prints once. -/
theorem compile_runs_loop :
    ∃ c script program o, compile "{ var a = true; while (a) { print a; a = false; } }"
        (ofConfig ⟨true, 0, 2⟩) [] = .ok c ∧ c.outcome = .ok script ∧
      ReadsStmt .program (TokenStream.program
        "{ var a = true; while (a) { print a; a = false; } }") program [] ∧
      program.FunctionFree ∧ c.heap.functions.get? script.index = some o ∧
      ∀ A : Arithmetic,
        SameRuns (fun n => Machine.execute A c.heap o.chunk n (.start script))
          (program.evaluate A) ∧
        (∀ n, (Machine.execute A c.heap o.chunk n (.start script)).1 ≠ some .fault) ∧
        ∃ n, Machine.execute A c.heap o.chunk n (.start script) = (some .finished, ["true"]) := by
  have hrun : (compile "{ var a = true; while (a) { print a; a = false; } }"
      (ofConfig ⟨true, 0, 2⟩) []).map (·.outcome.toOption) = .ok (some ⟨0⟩) := by
    cbv
  have htokens : TokenStream.program "{ var a = true; while (a) { print a; a = false; } }" =
      [⟨.leftBrace, "\x7b", 1⟩, ⟨.varWord, "var", 1⟩, ⟨.identifier, "a", 1⟩, ⟨.equal, "=", 1⟩,
        ⟨.trueWord, "true", 1⟩, ⟨.semicolon, ";", 1⟩, ⟨.whileWord, "while", 1⟩,
        ⟨.leftParen, "(", 1⟩, ⟨.identifier, "a", 1⟩, ⟨.rightParen, ")", 1⟩,
        ⟨.leftBrace, "\x7b", 1⟩, ⟨.printWord, "print", 1⟩, ⟨.identifier, "a", 1⟩,
        ⟨.semicolon, ";", 1⟩, ⟨.identifier, "a", 1⟩, ⟨.equal, "=", 1⟩,
        ⟨.falseWord, "false", 1⟩, ⟨.semicolon, ";", 1⟩, ⟨.rightBrace, "\x7d", 1⟩,
        ⟨.rightBrace, "\x7d", 1⟩] := by
    cbv
  have hreads : ReadsStmt .program
      (TokenStream.program "{ var a = true; while (a) { print a; a = false; } }")
      (.seq (.block (.seq (.varDecl "a" (some (.literal .true)))
        (.seq (.whileLoop (.variable "a") (.block (.seq (.print (.variable "a"))
          (.seq (.expression (.assign "a" (.literal .false))) .skip)))) .skip))) .skip) [] := by
    rw [htokens]
    exact .programMore (List.cons_ne_nil _ _) (.statement (.block rfl
      (.blockMore (by decide) (.varDecl rfl (.some rfl rfl
          (.intro (.expr (.literal rfl) (.stop (by decide))) rfl)))
        (.blockMore (by decide) (.statement (.whileLoop rfl rfl
            (.intro (.expr (.variable rfl (by decide)) (.stop (by decide))) rfl)
            (.block rfl
              (.blockMore (by decide) (.statement (.print rfl
                  (.intro (.expr (.variable rfl (by decide)) (.stop (by decide))) rfl)))
                (.blockMore (by decide) (.statement (.expression (.intro
                    (.expr (.assign rfl rfl (.expr (.literal rfl) (.stop (by decide))))
                      (.stop (by decide))) rfl)))
                  (.blockEnd rfl))))))
          (.blockEnd rfl))))) .programEnd
  have hfree : (Stmt.seq (.block (.seq (.varDecl "a" (some (.literal .true)))
      (.seq (.whileLoop (.variable "a") (.block (.seq (.print (.variable "a"))
        (.seq (.expression (.assign "a" (.literal .false))) .skip)))) .skip))) .skip).FunctionFree := by
    simp [Stmt.FunctionFree, Expr.FunctionFree]
  obtain ⟨c, hc, hok⟩ := exists_of_script_eq hrun
  obtain ⟨o, ho, hsame⟩ := compile_runs "{ var a = true; while (a) { print a; a = false; } }"
    (.ofConfig ⟨true, 0, 2⟩) hc hok hreads hfree
  exact ⟨c, ⟨0⟩, _, o, hc, hok, hreads, hfree, ho, fun A =>
    ⟨(hsame A).1, (hsame A).2, ((hsame A).1.ends .finished ["true"]).mpr ⟨2, rfl⟩⟩⟩

end LoxBytecode
