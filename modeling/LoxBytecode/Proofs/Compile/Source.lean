import LoxBytecode.Proofs.Compile.Program
import LoxBytecode.Proofs.Compile.Survival
import LoxBytecode.Proofs.Token.Munch

/-!
# Compiling Sources

What a script that `compile` returns has to do with its source. The source is read as a program,
the script's object holds the code of that program, and every function that the script reaches
holds the code of its own body (`compile_translates`).
-/

namespace LoxBytecode

open Heap

/-! ### The tokens of a source -/

/-- No word stands for the end of the source. -/
theorem TokenKind.keyword?_ne_eof (word : String) : keyword? word ≠ some .eof := by
  intro h
  obtain ⟨before, after, hwords, -⟩ := List.lookup_eq_some_iff.mp h
  have hmem : (word, TokenKind.eof) ∈ keywords := by
    rw [hwords]
    exact List.mem_append_right _ (List.mem_cons_self ..)
  simp [keywords] at hmem

namespace Piece

/-- The ways in which a piece can begin. -/
inductive Beginning (c : Char) : Prop
  | word (hc : isWordStart c = true) (h : ∀ cs, starting c cs = word c cs)
  | number (hc : ¬ isWordStart c = true) (hdigit : c.isDigit = true)
      (h : ∀ cs, starting c cs = number c cs)
  | single (kind : TokenKind) (hkind : kind ∉ [.identifier, .string, .number, .error, .eof])
      (h : ∀ cs, starting c cs = single kind c cs)
  | orEqual (alone withEqual : TokenKind)
      (halone : alone ∉ [.identifier, .string, .number, .error, .eof])
      (hwith : withEqual ∉ [.identifier, .string, .number, .error, .eof])
      (h : ∀ cs, starting c cs = orEqual alone withEqual c cs)
  | string (hc : c = '"') (h : ∀ cs, starting c cs = string c cs)
  | unexpected (h : ∀ cs, starting c cs = ⟨.error .unexpectedCharacter, [c], cs⟩)

/-- The first character says how a piece goes on. -/
theorem beginning (c : Char) : Beginning c := by
  by_cases hword : isWordStart c = true
  · exact .word hword fun cs => if_pos hword
  by_cases hdigit : c.isDigit = true
  · exact .number hword hdigit fun cs => (if_neg hword).trans (if_pos hdigit)
  by_cases hsingle : c ∈ ['(', ')', '{', '}', ';', ',', '.', '-', '+', '/', '*']
  · simp only [List.mem_cons, List.not_mem_nil, or_false] at hsingle
    rcases hsingle with rfl | rfl | rfl | rfl | rfl | rfl | rfl | rfl | rfl | rfl | rfl <;>
      exact .single _ (by decide) fun _ => rfl
  by_cases horEqual : c ∈ ['!', '=', '<', '>']
  · simp only [List.mem_cons, List.not_mem_nil, or_false] at horEqual
    rcases horEqual with rfl | rfl | rfl | rfl <;>
      exact .orEqual _ _ (by decide) (by decide) fun _ => rfl
  by_cases hquote : c = '"'
  · exact .string hquote fun cs => by rw [hquote]; rfl
  refine .unexpected fun cs => ?_
  rw [starting.eq_def, if_neg hword, if_neg hdigit]
  split <;> first | rfl | (simp at hsingle horEqual hquote)

/-- Only words, numbers and strings are of a kind that has many texts. -/
theorem word_number_or_string {c : Char} {cs : List Char} {kind : TokenKind}
    (h : (starting c cs).shape = .ok kind)
    (hkind : kind ∈ [.identifier, .string, .number, .error, .eof]) :
    (isWordStart c = true ∧ starting c cs = word c cs) ∨
      (c.isDigit = true ∧ starting c cs = number c cs ∧ kind = .number) ∨
      (c = '"' ∧ starting c cs = string c cs ∧ kind = .string) := by
  cases beginning c with
  | word hc hstarting => exact Or.inl ⟨hc, hstarting cs⟩
  | number _ hdigit hstarting =>
      rw [hstarting] at h
      cases h
      exact Or.inr (Or.inl ⟨hdigit, hstarting cs, rfl⟩)
  | single alone halone hstarting =>
      rw [hstarting] at h
      cases h
      exact absurd hkind halone
  | orEqual alone withEqual halone hwith hstarting =>
      rw [hstarting, orEqual.eq_def] at h
      split at h <;> cases h
      · exact absurd hkind hwith
      · exact absurd hkind halone
  | string hc hstarting =>
      rw [hstarting, string.eq_def] at h
      split at h <;> cases h
      exact Or.inr (Or.inr ⟨hc, hstarting cs, rfl⟩)
  | unexpected hstarting =>
      rw [hstarting] at h
      cases h

/-- No piece of a text is the end of the source. -/
theorem shape_starting_ne_eof (c : Char) (cs : List Char) :
    (starting c cs).shape ≠ .ok .eof := by
  intro h
  rcases word_number_or_string h (by decide) with ⟨-, hword⟩ | ⟨-, -, hkind⟩ | ⟨-, -, hkind⟩
  · rw [hword] at h
    have hkind := Except.ok.inj h
    cases hreserved : TokenKind.keyword? (String.ofList (c :: cs.takeWhile isWordPart)) with
    | none =>
        rw [hreserved] at hkind
        cases hkind
    | some kind =>
        rw [hreserved] at hkind
        exact TokenKind.keyword?_ne_eof _ (hreserved.trans (congrArg some hkind))
  · cases hkind
  · cases hkind

end Piece

/-- What is true of the tokens of all pieces is true of all tokens of a text. -/
theorem forall_mem_scanFrom {P : Token → Prop}
    (hpiece : ∀ c cs line, P ((Piece.starting c cs).token line)) {found : List Token} {line : UInt32}
    {cs : List Char} (hfound : ∀ t ∈ found, P t) : ∀ t ∈ (scanFrom found line cs).ahead, P t := by
  induction found, line, cs using scanFrom.induct with
  | case1 found line cs endLine hgap =>
      rw [scanFrom, hgap]
      exact fun t ht => hfound t (List.mem_reverse.mp ht)
  | case2 found line cs startLine c rest hgap piece endLine ih =>
      rw [scanFrom, hgap]
      exact ih (List.forall_mem_cons.mpr ⟨hpiece c rest endLine, hfound⟩)

/-- What holds of every piece, wherever it begins, holds of all tokens of a source. -/
theorem TokenStream.forall_mem_ofSource {P : Token → Prop}
    (hpiece : ∀ c cs line, P ((Piece.starting c cs).token line)) (source : String) :
    ∀ t ∈ (ofSource source).ahead, P t := by
  rw [ofSource_eq]
  exact forall_mem_scanFrom hpiece (List.forall_mem_nil _)

/-- No piece is the end of the source. -/
theorem Piece.kind_token_ne_eof (c : Char) (cs : List Char) (line : UInt32) :
    ((starting c cs).token line).kind ≠ .eof := by
  rw [token]
  split
  next kind hkind => exact fun heof => shape_starting_ne_eof c cs (heof ▸ hkind)
  next => rintro ⟨⟩

/-- No token in front of the end of the source is one. -/
theorem TokenStream.kind_of_mem_ofSource (source : String) :
    ∀ t ∈ (ofSource source).ahead, t.kind ≠ .eof :=
  forall_mem_ofSource Piece.kind_token_ne_eof source

/-- No token has an empty text. -/
theorem TokenStream.lexeme_of_mem_ofSource (source : String) :
    ∀ t ∈ (ofSource source).ahead, t.lexeme ≠ "" := by
  refine forall_mem_ofSource (fun c cs line => ?_) source
  rw [Piece.token]
  split
  next =>
    intro hempty
    have htext : (Piece.starting c cs).text = [] := by
      simpa using congrArg String.toList hempty
    have hhead := Piece.head?_text c cs
    rw [htext] at hhead
    cases hhead
  next problem _ =>
    show problem.message ≠ ""
    cases problem <;> decide

/-- The tokens of a source that are no errors. -/
def TokenStream.program (source : String) : List Token :=
  (ofSource source).ahead.filter (·.kind ≠ .error)

/-! ### The first token -/

section

open Session

variable {h : Heap} {host : List Value} {tokens : TokenStream} {s : Session} {budget : Nat}

/-- A compilation that has read its first token is in order. -/
theorem orderly_advance_start (hw : h.Wf) (htokens : ∀ t ∈ tokens.ahead, t.kind ≠ .eof) :
    (start tokens h host).advance.Orderly where
  sound := (Preserves.advance (start_sound hw (fun _ hv => absurd hv not_reach_nil)
    (List.nil_subset _))).sound
  linked := by
    rw [functions_advance]
    rfl
  onTrack := (readFrom_spec _ htokens).2

/-- Nothing has happened yet, and no function is finished. -/
theorem complete_advance_start : Complete [] (start tokens h host).advance where
  paired f hf := by
    rw [functions_advance] at hf
    exact absurd hf not_reach_nil
  accounted e he := by cases he

/-- A compilation without diagnostics has none behind its first token. -/
theorem yields_script (hw : h.Wf) (htokens : ∀ t ∈ tokens.ahead, t.kind ≠ .eof)
    (hrun : (CompileM.script budget).run (start tokens h host) = .ok ((), s))
    (hquiet : s.diagnostics = #[]) :
    (CompileM.declarations budget >>= fun _ => CompileM.emitReturn).Yields
      (start tokens h host).advance () ((CompileM.script budget).trace (start tokens h host))
      s := by
  have hrest : (CompileM.declarations budget >>= fun _ => CompileM.emitReturn).run
      (start tokens h host).advance = .ok ((), s) := hrun
  have horderly : (start tokens h host).advance.Orderly := orderly_advance_start hw htokens
  have hbefore : (start tokens h host).advance.Clean :=
    CompileM.clean_of_heard horderly rfl (heard_advance _) (CompileM.heard _ hrest) hquiet
  have hafter : s.Clean :=
    CompileM.clean_of_heard (CompileM.orderly _ horderly hrest) hbefore.alert
      (CompileM.heard _ hrest) (.refl s) hquiet
  refine ⟨hbefore, hrest, ?_, hafter⟩
  have hadvance : CompileM.advance.run (start tokens h host) =
      .ok ((), (start tokens h host).advance) := rfl
  rw [CompileM.script, CompileM.trace_bind hadvance]
  exact congrArg (· ++ _) (CompileM.trace_advance _).symm

end

/-! ### Scripts -/

/-- What happens while a source is compiled. -/
def compileTrace (source : String) (h : Heap) (host : List Value) : List Event :=
  (CompileM.script (Session.budget (TokenStream.ofSource source))).trace
    (Session.start (TokenStream.ofSource source) h host)

/-- What the operands of a script's code refer to. A script has no captures, and no function is
around it. -/
def World.ofScript (h : Heap) (o : FunctionObject) : World :=
  ⟨o.chunk.constants.toList, h, [[]], []⟩

/-- The object of a script holds the code of the program that some tokens are read as, and some
events are those of writing it. -/
structure HoldsProgram (ts : List Token) (h : Heap) (σ : List Event) (script : FunctionHandle)
    (o : FunctionObject) (program : Stmt) (is : List Item) (Γ : Scope) : Prop where
  reads : ReadsStmt .program ts program []
  object : h.functions.get? script.index = some o
  arity : o.arity = 0
  upvalues : o.upvalueCount = 0
  code : StmtCode (.ofScript h o) ⟨[FunctionState.reserved], 0⟩ program is Γ
  bytes : o.chunk.code.toList = Item.code (is ++ [Γ.op .nil [], Γ.op .ret []])
  events : Event.ofFunction script σ =
    Item.events script 0 (is ++ [Γ.op .nil [], Γ.op .ret []])

/-- No local waits in the scope at the beginning of a script. -/
theorem settled_script : (Scope.mk [FunctionState.reserved] 0).Settled := by
  intro l hl
  rw [List.mem_singleton.mp hl]
  exact ⟨0, rfl, Nat.le_refl _⟩

/-- A script whose code closes its locals is closed as a function. -/
theorem HoldsProgram.closed {ts : List Token} {h : Heap} {σ : List Event}
    {script : FunctionHandle} {o : FunctionObject} {program : Stmt} {is : List Item} {Γ : Scope}
    (hp : HoldsProgram ts h σ script o program is Γ)
    (hclosed : ClosedCode (.ofScript h o) ⟨[FunctionState.reserved], 0⟩ program is Γ) :
    ClosedFunction h σ script :=
  ⟨o, .ofScript h o, _, hp.object, ⟨rfl, rfl, hp.upvalues.symm⟩,
    hp.arity ▸ .intro rfl settled_script hp.code hclosed, hp.bytes, hp.events⟩

namespace CompileM

/-- The declarations of a source, compiled into a script, and the return behind them. -/
theorem Yields.program {s t : Session} {f : FunctionHandle} {τ : List Event} {budget : Nat}
    (hstart : s.functions = .ofScript (.start f .script))
    (h : (CompileM.declarations budget >>= fun _ => CompileM.emitReturn).Yields s () τ t) :
    ∃ program is Γ, ReadsStmt .program s.remaining program [] ∧
      StmtCode (.of t) ⟨[FunctionState.reserved], 0⟩ program is Γ ∧
      ClosedCode (.of t) ⟨[FunctionState.reserved], 0⟩ program is Γ ∧
      Wrote s τ (is ++ [Γ.op .nil [], Γ.op .ret []]) t := by
  have hscope : s.scope = ⟨[FunctionState.reserved], 0⟩ := by
    rw [Session.scope, hstart]
    rfl
  obtain ⟨_, u, τ₁, τ₂, hloop, hreturn, rfl⟩ := h.bind
  obtain ⟨hend, program, is, hreads, hcode, hcloses, hwrote⟩ :=
    Yields.loop hloop (hscope ▸ settled_script)
  obtain ⟨hwrote', hstays⟩ := Yields.emitAll hreturn (by decide)
  rw [hend] at hreads
  rw [hscope] at hcode hcloses
  exact ⟨program, is, u.scope, hreads, hcode.mono hwrote'.le, hcloses.code.mono hwrote'.le,
    hwrote.trans hwrote'⟩

/-- The object of the script, when it has got the code. -/
theorem StoresFunction.holdsProgram {s t : Session} {f : FunctionHandle} {τ : List Event}
    {heap : Heap} {program : Stmt} {is : List Item} {Γ : Scope}
    (hstores : StoresFunction t heap) (hstart : s.functions = .ofScript (.start f .script))
    (ht : t.Orderly) (hreads : ReadsStmt .program s.remaining program [])
    (hcode : StmtCode (.of t) ⟨[FunctionState.reserved], 0⟩ program is Γ)
    (hclosed : ClosedCode (.of t) ⟨[FunctionState.reserved], 0⟩ program is Γ)
    (hwrote : Wrote s τ (is ++ [Γ.op .nil [], Γ.op .ret []]) t) :
    ∃ o, HoldsProgram s.remaining heap τ t.functions.current.function o program is Γ ∧
      ClosedCode (.ofScript heap o) ⟨[FunctionState.reserved], 0⟩ program is Γ ∧
      Value.functionIndices o.chunk.constants.toList =
        Item.made (is ++ [Γ.op .nil [], Γ.op .ret []]) := by
  have hempty : s.chunk = Chunk.empty := by
    rw [Session.chunk, hstart]
    rfl
  have halone : t.functions.enclosing = [] := by
    have hgrows := hwrote.enclosing
    rw [hstart] at hgrows
    exact List.forall₂_nil_left_iff.mp hgrows
  have hupvalues : t.functions.current.upvalues = [] := by
    have hlinked := ht.linked
    rwa [halone] at hlinked
  obtain ⟨o, ho, harity, hcount, hchunk⟩ := hstores.object
  have hworld : { World.of t with heap := heap } = .ofScript heap o := by
    rw [World.of, FunctionStack.states, halone, World.ofScript, hchunk]
    simp [hupvalues]
  refine ⟨o, ⟨hreads, ho, ?_, ?_, ?_, ?_, ?_⟩, hworld ▸ hclosed.mono (hstores.le ht.sound), ?_⟩
  · rw [harity, hwrote.arity, hstart]
    rfl
  · rw [hcount, hupvalues]
    rfl
  · exact hworld ▸ hcode.mono (hstores.le ht.sound)
  · have hbytes := hwrote.code
    rw [hempty] at hbytes
    rw [hchunk]
    exact hbytes
  · have hown := hwrote.own
    rw [← hwrote.function, hempty] at hown
    exact hown
  · have hclosures := hwrote.closures
    rw [hempty] at hclosures
    rw [hchunk]
    exact hclosures

/-- The functions that a script reaches once it is stored were finished before, but for itself. -/
theorem StoresFunction.paired_of_reach {t : Session} {heap : Heap} {τ : List Event}
    (hstores : StoresFunction t heap) (ht : t.Sound []) (hcomplete : Complete τ t)
    {g : FunctionHandle}
    (hg : heap.Reach [.function t.functions.current.function] (.function g)) :
    g = t.functions.current.function ∨ PairedFunction heap τ g := by
  obtain ⟨o, ho, -, -, hchunk⟩ := hstores.object
  have hagree := hstores.agree_pool ht
  rcases reach_constants_of_function ho hg with rfl | hreach
  · exact Or.inl rfl
  · rw [hchunk] at hreach
    have hpool : t.heap.Reach t.functions.pool (.function g) :=
      (hreach.mono fun _ => Session.mem_pool_of_mem_constants).of_agree' hagree
    refine Or.inr ?_
    simpa using hcomplete.paired_of_agree (τ := []) hagree hpool (by simp)

end CompileM

/-- A compilation whose script is known ended well. -/
theorem exists_of_script_eq {result : Checked Compilation} {script : FunctionHandle}
    (h : result.map (·.outcome.toOption) = .ok (some script)) :
    ∃ c, result = .ok c ∧ c.outcome = .ok script := by
  cases result with
  | error fault => cases h
  | ok c =>
      refine ⟨c, rfl, ?_⟩
      cases hout : c.outcome with
      | error diagnostics => simp [Except.map, hout, Except.toOption] at h
      | ok f => simpa [Except.map, hout, Except.toOption] using h

/-- A compilation that ends well stores its script at the end of a session in which all other
functions are finished. The script's object holds the code of the program that the source is read
as, in which every scope closes as it should and which makes closures of its function constants. -/
theorem exists_stored_paired {source : String} {h : Heap} {host : List Value} (hw : h.Wf)
    {c : Compilation} {script : FunctionHandle} (hc : compile source h host = .ok c)
    (hok : c.outcome = .ok script) :
    ∃ t o program is Γ, script = t.functions.current.function ∧ t.Sound [] ∧
      CompileM.StoresFunction t c.heap ∧ Complete (compileTrace source h host) t ∧
      HoldsProgram (TokenStream.program source) c.heap (compileTrace source h host) script o
        program is Γ ∧
      ClosedCode (.ofScript c.heap o) ⟨[FunctionState.reserved], 0⟩ program is Γ ∧
      Value.functionIndices o.chunk.constants.toList =
        Item.made (is ++ [Γ.op .nil [], Γ.op .ret []]) := by
  obtain ⟨s, heap, hrun, hmodify, rfl, houtcome⟩ := compile_eq_ok hc
  obtain ⟨hempty, rfl⟩ := (houtcome script).mp hok
  have htokens := TokenStream.kind_of_mem_ofSource source
  have hyields := yields_script hw htokens hrun (Array.isEmpty_iff.mp hempty)
  have hfunctions : (Session.start (TokenStream.ofSource source) h host).advance.functions =
      .ofScript (.start (h.allocFunction host).1 .script) := Session.functions_advance _
  have hremaining : (Session.start (TokenStream.ofSource source) h host).advance.remaining =
      TokenStream.program source := (Session.readFrom_spec _ htokens).1
  obtain ⟨program, is, Γ, hreads, hcode, hclosed, hwrote⟩ := hyields.program hfunctions
  have hscript : s.functions.script = s.functions.current := by
    have henclosing := hwrote.enclosing
    rw [hfunctions] at henclosing
    rw [FunctionStack.script, List.forall₂_nil_left_iff.mp henclosing]
    rfl
  rw [hscript] at hmodify ⊢
  have hsound := hyields.after.orderly.sound
  have hstores := CompileM.storesFunction hsound hmodify
  obtain ⟨o, hholds, hcloses, hpaired⟩ :=
    hstores.holdsProgram hfunctions hyields.after.orderly hreads hcode hclosed hwrote
  rw [hremaining] at hholds
  exact ⟨s, o, program, is, Γ, rfl, hsound, hstores,
    hwrote.complete [] complete_advance_start, hholds, hcloses, hpaired⟩

/-- Behind every success stand the session at its end, the trace up to there and the program that
was translated. -/
theorem exists_stored {source : String} {h : Heap} {host : List Value} (hw : h.Wf)
    {c : Compilation} {script : FunctionHandle} (hc : compile source h host = .ok c)
    (hok : c.outcome = .ok script) :
    ∃ t o program is Γ, script = t.functions.current.function ∧ t.Sound [] ∧
      CompileM.StoresFunction t c.heap ∧ Complete (compileTrace source h host) t ∧
      HoldsProgram (TokenStream.program source) c.heap (compileTrace source h host) script o
        program is Γ ∧
      ClosedCode (.ofScript c.heap o) ⟨[FunctionState.reserved], 0⟩ program is Γ := by
  obtain ⟨t, o, program, is, Γ, hscript, hsound, hstores, hcomplete, hholds, hclosed, -⟩ :=
    exists_stored_paired hw hc hok
  exact ⟨t, o, program, is, Γ, hscript, hsound, hstores, hcomplete, hholds, hclosed⟩

/-- The functions that the script reaches are closed, as is the script. -/
theorem CompileM.StoresFunction.closed_of_holds {t : Session} {heap : Heap} {ts : List Token}
    {σ : List Event} {o : FunctionObject} {program : Stmt} {is : List Item} {Γ : Scope}
    (hstores : StoresFunction t heap) (ht : t.Sound []) (hcomplete : Complete σ t)
    (hholds : HoldsProgram ts heap σ t.functions.current.function o program is Γ)
    (hclosed : ClosedCode (.ofScript heap o) ⟨[FunctionState.reserved], 0⟩ program is Γ)
    {g : FunctionHandle}
    (hg : heap.Reach [.function t.functions.current.function] (.function g)) :
    ClosedFunction heap σ g := by
  rcases hstores.paired_of_reach ht hcomplete hg with rfl | hfinished
  · exact hholds.closed hclosed
  · exact hfinished.closed

/-- The code of a script, and of every function that it reaches, makes closures of its function
constants, one of each and in their order. -/
theorem paired_of_compile {source : String} {h : Heap} {host : List Value} (hw : h.Wf)
    {c : Compilation} {script : FunctionHandle} (hc : compile source h host = .ok c)
    (hok : c.outcome = .ok script) {g : FunctionHandle}
    (hg : c.heap.Reach [.function script] (.function g)) :
    PairedFunction c.heap (compileTrace source h host) g := by
  obtain ⟨t, o, program, is, Γ, rfl, hsound, hstores, hcomplete, hholds, hclosed, hpaired⟩ :=
    exists_stored_paired hw hc hok
  rcases hstores.paired_of_reach hsound hcomplete hg with rfl | hfinished
  · exact ⟨o, .ofScript c.heap o, _, hholds.object, ⟨rfl, rfl, hholds.upvalues.symm⟩,
      hholds.arity ▸ .intro rfl settled_script hholds.code hclosed, hholds.bytes, hholds.events,
      hpaired⟩
  · exact hfinished

/-- The script of a source holds the code of the program that the source is read as, and the
functions that it reaches hold the code of their bodies. -/
theorem compile_translates {source : String} {h : Heap} {host : List Value} (hw : h.Wf)
    {c : Compilation} {script : FunctionHandle} (hc : compile source h host = .ok c)
    (hok : c.outcome = .ok script) :
    (∃ o program is Γ, HoldsProgram (TokenStream.program source) c.heap
      (compileTrace source h host) script o program is Γ) ∧
    ∀ g, c.heap.Reach [.function script] (.function g) →
      Finished c.heap (compileTrace source h host) g := by
  obtain ⟨t, o, program, is, Γ, rfl, hsound, hstores, hcomplete, hholds, hclosed⟩ :=
    exists_stored hw hc hok
  exact ⟨⟨o, program, is, Γ, hholds⟩, fun g hg =>
    (hstores.closed_of_holds hsound hcomplete hholds hclosed hg).finished⟩

end LoxBytecode
