import LoxBytecode.Proofs.Compile.Lexemes
import LoxBytecode.Proofs.Session.Following
import LoxBytecode.Proofs.Walk.Rules

/-!
# A Source Is Followed

When the first token of a source without error tokens is read, the session has reached the stage
at the beginning of a script. So what compiling the source answers is what following it says
(`exists_compile_follows`): a script, or diagnostics of which the first is the problem at which
following stops.
-/

namespace LoxBytecode

open Heap Session

variable {source : String} {h : Heap} {host : List Value} {tokens : TokenStream}

/-- The stage at the beginning of a script. -/
def Stage.script (tokens : List Token) : Stage :=
  Site.stage ⟨tokens, Token.eof 1, [], []⟩ .script

/-- All tokens of a source are texts that their kinds can have. -/
theorem TokenStream.legible_of_mem_toList (source : String) :
    ∀ t ∈ (TokenStream.ofSource source).toList, t.Legible := by
  refine List.forall_mem_append.mpr ⟨TokenStream.legible_of_mem_ofSource source, ?_⟩
  rw [List.forall_mem_singleton]
  exact ⟨Token.quoted_eof _, by rintro ⟨⟩⟩

/-- Behind its first token a compilation has reached what the script is followed from, and nothing
has been reported. -/
theorem reached_advance_start (hw : h.Wf) (htokens : ∀ t ∈ tokens.ahead, t.kind ≠ .eof)
    (hclean : ∀ t ∈ tokens.ahead, t.kind ≠ .error) :
    (start tokens h host).advance.Reached (Stage.script tokens.toList) ∧
      (start tokens h host).advance.diagnostics = #[] := by
  have horderly : (start tokens h host).advance.Orderly := orderly_advance_start hw htokens
  obtain ⟨ahead, endLine⟩ := tokens
  have hstart {s : Session} (hs : s.heap.Wf) {f : FunctionHandle}
      (hfunctions : s.functions = .ofScript (.start f .script)) :
      Matches s.heap s.functions.states [Draft.start .script] [[]] := by
    rw [hfunctions]
    exact .cons ⟨rfl, rfl, rfl, rfl, .nil, rfl, by rintro v ⟨⟩⟩ .nil
  cases ahead with
  | nil =>
      rw [advance_eq_of_nil rfl] at horderly ⊢
      exact ⟨⟨horderly, rfl, ⟨rfl, fun _ => rfl, List.nil_prefix, by rintro u ⟨⟩⟩, rfl,
        hstart horderly.sound.wf rfl⟩, rfl⟩
  | cons t ts =>
      obtain ⟨ht, hts⟩ := List.forall_mem_cons.mp hclean
      have hne : t.kind ≠ .eof := htokens t (List.mem_cons_self ..)
      rw [advance_eq_of_cons rfl ht] at horderly ⊢
      refine ⟨⟨horderly, rfl, ⟨rfl, fun heof => absurd heof hne, ?_, ?_⟩, rfl,
        hstart horderly.sound.wf rfl⟩, rfl⟩
      · rw [if_neg hne]
        exact List.prefix_refl _
      · refine List.forall_mem_append.mpr ⟨hts, ?_⟩
        rw [List.forall_mem_singleton]
        rintro ⟨⟩

/-- What is answered when following a whole script says something. -/
inductive Explains : Except Stop (Unit × Stage) → Except (List Diagnostic) FunctionHandle → Prop
  | ok {A : Stage} {f : FunctionHandle} : Explains (.ok ((), A)) (.ok f)
  | unknown {answer : Except (List Diagnostic) FunctionHandle} : Explains (.error .unknown) answer
  | problem {p : Problem} {t : Token} {ts : List Token} {ds : List Diagnostic} :
      Explains (.error (.problem p (t :: ts)))
        (.error (⟨t.line, Location.ofToken t, p.message⟩ :: ds))

/-- Compiling a source without error tokens does what following it says. -/
theorem exists_compile_follows (hw : h.Wf) (host : List Value)
    (hclean : ∀ t ∈ (TokenStream.ofSource source).ahead, t.kind ≠ .error) :
    ∃ c, compile source h host = .ok c ∧
      Explains ((CompileM.declarations (budget (TokenStream.ofSource source)) >>= fun _ =>
        CompileM.emitReturn).follow (.script (TokenStream.ofSource source).toList)) c.outcome := by
  have hkinds := TokenStream.kind_of_mem_ofSource source
  have hstart : (start (TokenStream.ofSource source) h host).advance.Reached _ ∧ _ :=
    reached_advance_start hw hkinds hclean
  obtain ⟨hreached, hempty⟩ := hstart
  obtain ⟨s, k, hrun, -, -, -, hcompile⟩ := exists_finish hw host hkinds fun t ht =>
    (TokenStream.legible_of_mem_ofSource source t ht).quoted
  have hrest : (CompileM.declarations (budget (TokenStream.ofSource source)) >>= fun _ =>
      CompileM.emitReturn).run (start (TokenStream.ofSource source) h host).advance =
        .ok ((), s) := hrun
  have htracks := CompileM.tracks _ hreached hrest
  refine ⟨_, hcompile, ?_⟩
  generalize (CompileM.declarations _ >>= fun _ => CompileM.emitReturn).follow _ = result
    at htracks ⊢
  cases htracks with
  | ok _ hdiagnostics =>
      rw [hdiagnostics, hempty]
      exact .ok
  | unknown => exact .unknown
  | problem hreports =>
      obtain ⟨ds, hds⟩ := hreports
      rw [hempty, List.nil_append] at hds
      have hsome : s.diagnostics.isEmpty = false := by
        rw [← Array.isEmpty_toList, hds]
        rfl
      rw [hsome, hds]
      exact .problem

end LoxBytecode
