import LoxBytecode.Proofs.Compile.Independence
import LoxBytecode.Proofs.Session.Lines

/-!
# Layout of the Source

How a source is laid out on lines reaches the line tables and the lines of diagnostics, and
nothing else (`compile_same_but_lines`): two sources with the same kinds and texts of tokens
compile in one heap to the same functions with the same strings in the same slots, or fail with
the same diagnostics. Both are what the source on one line compiles to, up to lines.
-/

namespace LoxBytecode

open Heap

/-- The result as if the whole source stood on one line. -/
def Compilation.oneLine (c : Compilation) : Compilation where
  outcome := c.outcome.mapError (·.map Diagnostic.oneLine)
  heap := c.heap.oneLine

section

variable (tokens : TokenStream) (h : Heap) (host : List Value) (s : Session)

/-- A compilation of one line starts where the other starts, up to lines. -/
theorem Session.start_oneLine :
    Session.start tokens.oneLine h.oneLine host = (Session.start tokens h host).oneLine := by
  have hstart (ts : TokenStream) (k : Heap) : Session.start ts k host =
      ⟨host, ts, Token.eof 1, Token.eof 1, false, #[],
        .ofScript (.start (k.allocFunction host).1 .script), (k.allocFunction host).2⟩ := rfl
  rw [hstart, hstart, allocFunction_oneLine]
  simp only [oneLine, Array.map_empty]
  rfl

/-- What is made of the last session is the same up to lines. -/
theorem Session.finish_oneLine : s.oneLine.finish = s.finish.map Compilation.oneLine := by
  have hscript : s.oneLine.functions.script = s.functions.script.oneLine := by
    simp only [FunctionStack.script, Session.oneLine, FunctionStack.oneLine]
    cases s.functions.enclosing using List.reverseRec <;> simp
  rw [finish, finish, hscript, oneLine_store]
  cases s.store s.functions.script with
  | error fault => rfl
  | ok t =>
      have hempty : t.oneLine.diagnostics.isEmpty = t.diagnostics.isEmpty := by
        simp [oneLine, Array.isEmpty]
      simp only [Except.map, ok_bind, hempty]
      split
      · rfl
      · have hlist : t.oneLine.diagnostics.toList = t.diagnostics.toList.map Diagnostic.oneLine :=
          Array.toList_map
        rw [hlist]
        rfl

/-- What tokens compile to is what they would compile to on one line. -/
theorem compileTokens_oneLine :
    compileTokens tokens.oneLine h.oneLine host =
      (compileTokens tokens h host).map Compilation.oneLine := by
  have hbudget : Session.budget tokens.oneLine = Session.budget tokens := by
    rw [Session.budget, Session.budget, TokenStream.oneLine, List.length_map]
  rw [compileTokens, compileTokens, hbudget, Session.start_oneLine, CompileM.run_oneLine]
  cases (CompileM.script (Session.budget tokens)).run (Session.start tokens h host) with
  | error fault => rfl
  | ok r => exact r.2.finish_oneLine

end

/-- What a diagnostic says, without its line. -/
def Diagnostic.content (d : Diagnostic) : Location × String :=
  (d.location, d.message)

/-- Two compilations have the same script, or the same diagnostics up to lines, and heaps that
differ in line tables only. -/
def Compilation.SameButLines (c c' : Compilation) : Prop :=
  c.heap.SameButLines c'.heap ∧
    match c.outcome, c'.outcome with
    | .ok f, .ok f' => f' = f
    | .error ds, .error ds' => ds'.map Diagnostic.content = ds.map Diagnostic.content
    | _, _ => False

/-- Outcomes that are equal without their lines differ in lines at most. -/
theorem Compilation.SameButLines.of_oneLine {c c' : Compilation} (h : c'.oneLine = c.oneLine) :
    c.SameButLines c' := by
  obtain ⟨houtcome, hheap⟩ := Compilation.mk.inj h
  refine ⟨.of_oneLine hheap, ?_⟩
  cases hc : c.outcome with
  | ok f =>
    cases hc' : c'.outcome with
    | ok f' =>
        rw [hc, hc'] at houtcome
        exact Except.ok.inj houtcome
    | error ds' =>
        rw [hc, hc'] at houtcome
        cases houtcome
  | error ds =>
    cases hc' : c'.outcome with
    | ok f' =>
        rw [hc, hc'] at houtcome
        cases houtcome
    | error ds' =>
        rw [hc, hc'] at houtcome
        have hsame : (ds'.map Diagnostic.oneLine).map Diagnostic.content =
            (ds.map Diagnostic.oneLine).map Diagnostic.content :=
          congrArg _ (Except.error.inj houtcome)
        rwa [List.map_map, List.map_map] at hsame

/-- Sources whose tokens agree in kinds and texts, however they are laid out, compile from one
heap to the same functions but for line tables, or to the same diagnostics but for their lines. -/
theorem compile_same_but_lines {source source' : String}
    (htokens : (TokenStream.ofSource source').ahead.map (fun t => (t.kind, t.lexeme)) =
      (TokenStream.ofSource source).ahead.map fun t => (t.kind, t.lexeme))
    {h : Heap} (hw : h.Wf) (host : List Value) :
    ∃ c c', compile source h host = .ok c ∧ compile source' h host = .ok c' ∧
      c.SameButLines c' := by
  obtain ⟨c, hc⟩ := exists_compile source hw host
  obtain ⟨c', hc'⟩ := exists_compile source' hw host
  refine ⟨c, c', hc, hc', .of_oneLine ?_⟩
  have hsame : (TokenStream.ofSource source').oneLine = (TokenStream.ofSource source).oneLine := by
    have hmap (ts : List Token) : ts.map Token.oneLine =
        (ts.map fun t => (t.kind, t.lexeme)).map fun x => ⟨x.1, x.2, 1⟩ := by
      rw [List.map_map]
      rfl
    rw [TokenStream.oneLine, TokenStream.oneLine, hmap, hmap, htokens]
  have hleft := compileTokens_oneLine (TokenStream.ofSource source) h host
  have hright := compileTokens_oneLine (TokenStream.ofSource source') h host
  rw [show compileTokens (TokenStream.ofSource source) h host = .ok c from hc] at hleft
  rw [show compileTokens (TokenStream.ofSource source') h host = .ok c' from hc', hsame,
    hleft] at hright
  exact (Except.ok.inj hright).symm

/-- A function and a comment, on one line and on several. -/
theorem compile_same_but_lines_comment :
    (TokenStream.ofSource "fun f(a)\n\x7b return a; // the same\n\x7d").ahead.map
        (fun t => (t.kind, t.lexeme)) =
      (TokenStream.ofSource "fun f(a) \x7b return a; \x7d").ahead.map
        (fun t => (t.kind, t.lexeme)) ∧
    ∃ c c', compile "fun f(a) \x7b return a; \x7d" (ofConfig ⟨true, 0, 2⟩) [] = .ok c ∧
      compile "fun f(a)\n\x7b return a; // the same\n\x7d" (ofConfig ⟨true, 0, 2⟩) [] = .ok c' ∧
      c.SameButLines c' := by
  have htokens : (TokenStream.ofSource "fun f(a)\n\x7b return a; // the same\n\x7d").ahead.map
        (fun t => (t.kind, t.lexeme)) =
      (TokenStream.ofSource "fun f(a) \x7b return a; \x7d").ahead.map
        (fun t => (t.kind, t.lexeme)) := by cbv
  exact ⟨htokens, compile_same_but_lines htokens (Reachable.ofConfig ⟨true, 0, 2⟩).wf []⟩

end LoxBytecode
