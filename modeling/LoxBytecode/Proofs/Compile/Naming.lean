import Mathlib
import LoxBytecode.Proofs.Compile.Careful
import LoxBytecode.Proofs.Compile.Independence
import LoxBytecode.Proofs.Compile.Spelling

/-!
# Scripts under Other Names

What a compilation comes to is the same for a source and for the sources in which its identifiers
are called otherwise, but for the names themselves (`compile_renamed`). Every compilation of a
source ends as its sketch does, in whatever heap (`exists_sketch`), and sketches have no strings
to share: in a heap a name and a literal with the same text are one string, until the name is
another one.
-/

namespace LoxBytecode

open Heap

/-! ### What a compilation comes to -/

/-- What a compilation comes to, wherever its objects lie. -/
inductive CompilationOutline where
  /-- The functions, in the order in which they end. The script is the last one. -/
  | script (functions : List FunctionOutline)
  | rejected (diagnostics : List Diagnostic)
deriving DecidableEq, Repr

/-- The same under other names: names change in functions, and quoted lexemes in diagnostics. -/
def CompilationOutline.rename (ρ : Identifier ↪ Identifier) :
    CompilationOutline → CompilationOutline
  | .script functions => .script (functions.map (FunctionOutline.rename ρ))
  | .rejected diagnostics => .rejected (diagnostics.map (Diagnostic.relabel (.names ρ)))

/-- A compilation comes to this: different functions of its heap have these outlines, and the
script is the last one; or these are the diagnostics. -/
def Compilation.Shows (c : Compilation) : CompilationOutline → Prop
  | .script functions => ∃ fs script, c.outcome = .ok script ∧ (fs ++ [script]).Nodup ∧
      List.Forall₂ (c.heap.ShowsFunction (fs ++ [script])) (fs ++ [script]) functions
  | .rejected diagnostics => c.outcome = .error diagnostics

namespace Sketch

variable {k : Sketch} {fs : List FunctionHandle} {s : Session} {h : Heap}

/-- What a sketch comes to when nothing but the script is being compiled. -/
def outline (k : Sketch) : CompilationOutline :=
  if k.session.diagnostics.isEmpty then
    .script (k.finished ++ k.holdings.map (.of k.session.functions.current))
  else .rejected k.session.diagnostics.toList

/-- The outline of a sketch whose names were replaced is its outline with the names replaced. -/
theorem outline_rename (ρ : Identifier ↪ Identifier) (k : Sketch) :
    (k.rename ρ).outline = k.outline.rename ρ := by
  have hdiagnostics : (k.rename ρ).session.diagnostics =
      k.session.diagnostics.map (Diagnostic.relabel (.names ρ)) := rfl
  have hempty : (k.session.diagnostics.map (Diagnostic.relabel (.names ρ))).isEmpty =
      k.session.diagnostics.isEmpty := by
    simp [Array.isEmpty]
  rw [outline, outline, hdiagnostics, hempty, Array.toList_map]
  split
  · refine congrArg CompilationOutline.script ?_
    rw [List.map_append, List.map_map]
    exact congrArg _ (List.map_map ..)
  · rfl

/-- The sketch at the start of some tokens. -/
def start (tokens : TokenStream) : Sketch where
  session :=
    { host := []
      upcoming := tokens
      previous := Token.eof 1
      current := Token.eof 1
      recovering := false
      diagnostics := #[]
      functions := .ofScript (.start ⟨0⟩ .script)
      heap := .ofConfig .standard }
  holdings := [⟨none, []⟩]
  finished := []

/-- The sketch that a compilation starts from takes its names from the tokens. -/
theorem start_rename (ρ : Identifier ↪ Identifier) (tokens : TokenStream) :
    start (tokens.relabel (.names ρ)) = (start tokens).rename ρ := by
  have hfunctions : (FunctionStack.ofScript (.start ⟨0⟩ .script)).relabel (.names ρ) =
      .ofScript (.start ⟨0⟩ .script) :=
    congrArg FunctionStack.ofScript (FunctionState.relabel_start (.names ρ) ⟨0⟩ .script)
  simp only [start, rename, Session.relabel, Token.relabel_eof, hfunctions, List.map_toArray,
    List.map_nil]
  rfl

/-- The sketch of the start depicts the session that a compilation starts from. -/
theorem depicts_start (tokens : TokenStream) (hw : h.Wf) (host : List Value) :
    (start tokens).Depicts [] (Session.start tokens h host) where
  session := by
    have htokens : tokens.relabel .blank = tokens :=
      congrArg (TokenStream.mk · tokens.endLine) (List.map_id _)
    have hfunctions : (FunctionStack.ofScript (.start (h.allocFunction host).1 .script)).relabel
        .blank = .ofScript (.start ⟨0⟩ .script) :=
      congrArg FunctionStack.ofScript (FunctionState.relabel_start .blank _ .script)
    simp only [start, Session.start, Session.relabel, Token.relabel_eof, htokens, hfunctions,
      List.map_toArray, List.map_nil]
  begun := .cons ⟨.empty, get?_allocFunction hw host, .none, .nil⟩ .nil
  finished := .nil
  nodup := .nil
  held := List.forall_mem_nil _

/-- When the script is stored, its heap shows what the sketch comes to. -/
theorem Depicts.shows_outline (hk : k.Depicts fs s) (hs : s.Sound [])
    (henclosing : s.functions.enclosing = [])
    (hmodify : s.heap.modifyFunction s.functions.current.function (fun o =>
      { o with
        arity := s.functions.current.arity
        upvalueCount := s.functions.current.upvalues.length
        chunk := s.functions.current.chunk }) = .ok h) :
    Compilation.Shows ⟨if s.diagnostics.isEmpty then .ok s.functions.current.function
      else .error s.diagnostics.toList, h⟩ k.outline := by
  have hdiagnostics : k.session.diagnostics = s.diagnostics := by
    rw [hk.session]
    refine (Array.map_congr_left fun d _ => ?_).trans (Array.map_id _)
    obtain ⟨line, location, message⟩ := d
    cases location <;> rfl
  obtain ⟨p, ps, hholdings, hbegun, hfinished⟩ := hk.store hs hmodify
  rw [henclosing] at hbegun
  cases hbegun
  have hcurrent : FunctionOutline.of k.session.functions.current p =
      .of s.functions.current p := by
    rw [hk.session]
    rfl
  rw [outline, hdiagnostics, hholdings]
  split
  · refine ⟨fs, s.functions.current.function, rfl, ?_, ?_⟩
    · exact List.nodup_append.mpr ⟨hk.nodup, List.nodup_singleton _, fun f hf g hg heq =>
        hk.not_mem hs (List.mem_singleton.mp hg ▸ heq ▸ hf)⟩
    · rw [List.map_singleton, hcurrent]
      exact hfinished
  · rfl

end Sketch

/-! ### Every source -/

/-- The sketch of a source ends, and every compilation of the source comes to what it comes to. -/
theorem exists_sketch (source : String) : ∃ k : Sketch,
    (CompileM.script (Session.budget (TokenStream.ofSource source))).sketch
      (.start (TokenStream.ofSource source)) = some ((), k) ∧
    ∀ (h : Heap) (host : List Value), h.Wf →
      ∃ c, compile source h host = .ok c ∧ c.Shows k.outline := by
  have hdepicts (h : Heap) (host : List Value) (hw : h.Wf) : ∃ k : Sketch,
      (CompileM.script (Session.budget (TokenStream.ofSource source))).sketch
        (.start (TokenStream.ofSource source)) = some ((), k) ∧
      ∃ c, compile source h host = .ok c ∧ c.Shows k.outline := by
    obtain ⟨s, heap, hrun, horderly, henclosing, hmodify, hcompile⟩ :=
      exists_finish_source source hw host
    have hground : (Session.start (TokenStream.ofSource source) h host).Grounded :=
      List.forall_mem_singleton.mpr rfl
    have hcareful := (CompileM.respects_script
      (Session.budget (TokenStream.ofSource source))).start hground
    obtain ⟨k, fs, hk, hend⟩ := CompileM.depicts _ hcareful.1 (Sketch.depicts_start _ hw host)
      (Session.start_sound hw (fun _ hv => absurd hv not_reach_nil) (List.nil_subset _)) hrun
    exact ⟨k, hk, _, hcompile, hend.shows_outline horderly.sound henclosing hmodify⟩
  obtain ⟨k, hk, -⟩ := hdepicts (.ofConfig .standard) [] (wf_ofConfig _)
  refine ⟨k, hk, fun h host hw => ?_⟩
  obtain ⟨k', hk', hc⟩ := hdepicts h host hw
  cases hk.symm.trans hk'
  exact hc

/-- A compilation decides nothing by a name but which names are equal. A source and the sources
in which its identifiers have other names, different ones for different ones, come to the same:
to functions with equal code, lines, counts and numbers, or to equal diagnostics, in which nothing
changes but the names of functions, the constants that are names, and the lexemes quoted.

The outline is one for all renamings. So a text that it calls a literal stays under all of them,
though it may be equal to a name and one string with it in the heap of the original. -/
theorem compile_renamed (source : String) : ∃ r : CompilationOutline,
    (∀ (h : Heap) (host : List Value), h.Wf → ∃ c, compile source h host = .ok c ∧ c.Shows r) ∧
    ∀ ρ : Identifier ↪ Identifier,
      (∃ source', TokenStream.ofSource source' = (TokenStream.ofSource source).rename ρ) ∧
      ∀ source', TokenStream.ofSource source' = (TokenStream.ofSource source).rename ρ →
        ∀ (h : Heap) (host : List Value), h.Wf →
          ∃ c, compile source' h host = .ok c ∧ c.Shows (r.rename ρ) := by
  obtain ⟨k, hk, hsource⟩ := exists_sketch source
  refine ⟨k.outline, hsource, fun ρ =>
    ⟨TokenStream.exists_rename ρ source, fun source' htokens => ?_⟩⟩
  obtain ⟨k', hk', hsource'⟩ := exists_sketch source'
  have hnamed := TokenStream.named_of_mem_ofSource source
  have hbudget : Session.budget (TokenStream.ofSource source') =
      Session.budget (TokenStream.ofSource source) := by
    rw [htokens, Session.budget, Session.budget]
    exact congrArg (fun n => 4 * (n + 2)) (List.length_map ..)
  rw [hbudget, htokens, TokenStream.rename_eq ρ hnamed, Sketch.start_rename,
    CompileM.sketch_rename ρ _ ⟨Token.named_eof 1, Token.named_eof 1, hnamed⟩, hk] at hk'
  cases hk'
  exact k.outline_rename ρ ▸ hsource'

/-- A parameter that is called as a literal reads, and then is not. -/
theorem compile_renamed_parameter :
    ∃ (c c' : Compilation) (r : CompilationOutline) (ρ : Identifier ↪ Identifier),
      TokenStream.ofSource "fun f(b) { return b; } print f(\"a\");" =
        (TokenStream.ofSource "fun f(a) { return a; } print f(\"a\");").rename ρ ∧
      compile "fun f(a) { return a; } print f(\"a\");" (ofConfig .standard) [] = .ok c ∧
      compile "fun f(b) { return b; } print f(\"a\");" (ofConfig ⟨true, 0, 2⟩) [] = .ok c' ∧
      c.outcome = .ok ⟨0⟩ ∧ c'.outcome = .ok ⟨0⟩ ∧ c.Shows r ∧ c'.Shows (r.rename ρ) := by
  have htokens : TokenStream.ofSource "fun f(b) { return b; } print f(\"a\");" =
      (TokenStream.ofSource "fun f(a) { return a; } print f(\"a\");").rename
        (Equiv.swap (⟨"a", by decide⟩ : Identifier) ⟨"b", by decide⟩).toEmbedding := by
    cbv
  have hrun : (compile "fun f(a) { return a; } print f(\"a\");" (ofConfig .standard) []).map
      (·.outcome.toOption) = .ok (some ⟨0⟩) := by
    cbv
  have hrun' : (compile "fun f(b) { return b; } print f(\"a\");" (ofConfig ⟨true, 0, 2⟩)
      []).map (·.outcome.toOption) = .ok (some ⟨0⟩) := by
    cbv
  obtain ⟨c, hc, hok⟩ := exists_of_script_eq hrun
  obtain ⟨c', hc', hok'⟩ := exists_of_script_eq hrun'
  obtain ⟨r, hshows, hrenamed⟩ :=
    compile_renamed "fun f(a) { return a; } print f(\"a\");"
  obtain ⟨c₁, hc₁, hr⟩ := hshows (ofConfig .standard) [] (wf_ofConfig _)
  obtain ⟨c₁', hc₁', hr'⟩ := (hrenamed _).2 _ htokens (ofConfig ⟨true, 0, 2⟩) [] (wf_ofConfig _)
  obtain rfl := Except.ok.inj (hc.symm.trans hc₁)
  obtain rfl := Except.ok.inj (hc'.symm.trans hc₁')
  exact ⟨c, c', r, _, htokens, hc, hc', hok, hok', hr, hr'⟩

end LoxBytecode
