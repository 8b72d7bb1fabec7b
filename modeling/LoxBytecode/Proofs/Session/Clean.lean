import LoxBytecode.Proofs.Session.Trace

/-!
# Runs without Diagnostics

A run that starts and ends without diagnostics had none in between: every session on its way is
`Clean`. `Yields m s a τ t` is such a run of `m` from `s` to `t` with the answer `a` and the
trace `τ`, and the lemmas here take it apart: a chain into its parts, and each of the common
compilations into what it can have done when nothing was reported.
-/

namespace LoxBytecode

/-- Nothing was reported so far. -/
structure Session.Clean (s : Session) : Prop where
  orderly : s.Orderly
  quiet : s.diagnostics = #[]
  alert : s.recovering = false

namespace CompileM

variable {α β : Type} {m : CompileM α} {s t u : Session} {a : α} {τ : List Event}

/-- A run keeps a session orderly. -/
theorem orderly (m : CompileM α) (hs : s.Orderly) (h : m.run s = .ok (a, t)) : t.Orderly :=
  m.run_keeps (fun a _ _ _ hs ha => a.orderly hs ha) hs h

/-- A run takes no diagnostic back. -/
theorem heard (m : CompileM α) (h : m.run s = .ok (a, t)) : Session.Heard s t :=
  m.run_keeps (fun a _ _ _ hs ha => hs.trans (a.heard ha)) (.refl s) h

/-- A run without diagnostics. -/
structure Yields (m : CompileM α) (s : Session) (a : α) (τ : List Event) (t : Session) :
    Prop where
  before : s.Clean
  ran : m.run s = .ok (a, t)
  traced : m.trace s = τ
  after : t.Clean

/-- A session between two without diagnostics has none either. -/
theorem clean_of_heard (ht : t.Orderly) (hs : s.recovering = false) (hst : s.Heard t)
    (htu : t.Heard u) (hu : u.diagnostics = #[]) : t.Clean := by
  have hquiet : t.diagnostics = #[] := by
    have hsize := htu.size
    rw [hu] at hsize
    exact Array.eq_empty_of_size_eq_zero (Nat.le_zero.mp hsize)
  refine ⟨ht, hquiet, ?_⟩
  cases hrecovering : t.recovering with
  | false => rfl
  | true =>
      rcases hst.recovering hrecovering with hs' | hlt
      · rw [hs] at hs'
        cases hs'
      · rw [hquiet] at hlt
        exact absurd hlt (Nat.not_lt_zero _)

/-- A run to a session on the way to one without diagnostics had none. -/
theorem clean_of_run (hs : s.Clean) (hrun : m.run s = .ok (a, t)) (hheard : t.Heard u)
    (hu : u.Clean) : t.Clean :=
  clean_of_heard (m.orderly hs.orderly hrun) hs.alert (m.heard hrun) hheard hu.quiet

/-- What a session holds is preserved. -/
theorem Yields.preserves (h : m.Yields s a τ t) : Session.Preserves [] s t :=
  m.preserves h.before.orderly.sound h.ran

/-- The parts of a chain without diagnostics have none. -/
theorem Yields.bind {first : CompileM β} {next : β → CompileM α}
    (h : (first >>= next).Yields s a τ t) :
    ∃ b u τ₁ τ₂, first.Yields s b τ₁ u ∧ (next b).Yields u a τ₂ t ∧ τ = τ₁ ++ τ₂ := by
  have hran := h.ran
  rw [run_bind] at hran
  obtain ⟨⟨b, u⟩, hfirst, hnext⟩ := bind_eq_ok.mp hran
  have hu : u.Clean := clean_of_run h.before hfirst ((next b).heard hnext) h.after
  refine ⟨b, u, _, _, ⟨h.before, hfirst, rfl, hu⟩, ⟨hu, hnext, rfl, h.after⟩, ?_⟩
  rw [← h.traced, trace_bind hfirst]

/-- A part happens between its beginning and its end. -/
theorem Yields.part {phrase : Phrase} (h : (part phrase m).Yields s a τ t) :
    ∃ τ', m.Yields s a τ' t ∧
      τ = s.event (.begins phrase) :: τ' ++ [t.event (.ends phrase)] :=
  have hran : m.run s = .ok (a, t) := h.ran
  ⟨_, ⟨h.before, hran, rfl, h.after⟩, by rw [← h.traced, trace_part hran]⟩

/-! ### Compilations that do nothing to the code -/

/-- Without anything to do the answer is given. -/
theorem Yields.pure {b : α} (h : (pure b : CompileM α).Yields s a τ t) :
    a = b ∧ τ = [] ∧ s = t := by
  obtain ⟨-, hran, htraced, -⟩ := h
  cases hran
  exact ⟨rfl, htraced.symm, rfl⟩

/-- A query is answered and changes nothing. -/
theorem Yields.ask {q : Query α} (h : (ask q).Yields s a τ t) :
    a = q.answer s ∧ τ = [] ∧ s = t := by
  obtain ⟨-, hran, htraced, -⟩ := h
  cases hran
  exact ⟨rfl, htraced.symm, rfl⟩

/-- What is computed aside is the answer. -/
theorem Yields.liftM {result : Checked α} (h : (liftM result : CompileM α).Yields s a τ t) :
    result = .ok a ∧ τ = [] ∧ s = t := by
  obtain ⟨-, hran, htraced, -⟩ := h
  rw [run_liftM] at hran
  obtain ⟨b, hb, hran⟩ := bind_eq_ok.mp hran
  cases hran
  exact ⟨hb, htraced.symm, rfl⟩

/-- An action answers and is what happens. -/
theorem Yields.act {action : Action α} (h : (act action).Yields s a τ t) :
    action.apply s = .ok (a, t) ∧ τ = action.trace s :=
  ⟨h.ran, h.traced.symm⟩

/-- A fault has no answer. -/
theorem Yields.fault {f : Fault} (h : (fault f : CompileM α).Yields s a τ t) : False := by
  obtain ⟨-, hran, -, -⟩ := h
  cases hran

/-- A session without diagnostics is not the result of reporting one. -/
theorem not_clean_report {tok : Token} {message : String} (hs : s.recovering = false) :
    ¬ (s.report tok message).Clean := by
  intro hclean
  have hquiet := hclean.quiet
  simp [Session.report, hs] at hquiet

/-- Where nothing was reported, no problem was. -/
theorem Yields.fail {problem : Problem} {a : Unit} (h : (fail problem).Yields s a τ t) :
    False := by
  obtain ⟨hs, hran, -, ht⟩ := h
  cases hran
  exact not_clean_report hs.alert ht

/-- Where nothing was reported, no problem was at the current token. -/
theorem Yields.failHere {problem : Problem} {a : Unit}
    (h : (failHere problem).Yields s a τ t) : False := by
  obtain ⟨hs, hran, -, ht⟩ := h
  cases hran
  exact not_clean_report hs.alert ht

/-! ### Tokens -/

/-- Moving on writes nothing. -/
theorem trace_advance (s : Session) : (Action.advance).trace s = [] := by
  simp [Action.trace, Action.apply, Session.chunk]

/-- Moving on comes to the next token. -/
theorem Yields.advance {a : Unit} (h : advance.Yields s a τ t) : τ = [] ∧ t = s.advance := by
  obtain ⟨-, hran, htraced, -⟩ := h
  cases hran
  exact ⟨htraced.symm.trans (trace_advance s), rfl⟩

/-- The kind of the current token is answered. -/
theorem Yields.currentKind {a : TokenKind} (h : currentKind.Yields s a τ t) :
    a = s.current.kind ∧ τ = [] ∧ s = t :=
  Yields.ask h

/-- The kind of the token just passed is answered. -/
theorem Yields.previousKind {a : TokenKind} (h : previousKind.Yields s a τ t) :
    a = s.previous.kind ∧ τ = [] ∧ s = t :=
  Yields.ask h

/-- The length of the code is answered. -/
theorem Yields.codeSize {a : Nat} (h : codeSize.Yields s a τ t) :
    a = s.chunk.size ∧ τ = [] ∧ s = t :=
  Yields.ask h

/-- Whether declarations are global is answered. -/
theorem Yields.atTopScope {a : Bool} (h : atTopScope.Yields s a τ t) :
    a = (s.functions.current.scopeDepth == 0) ∧ τ = [] ∧ s = t :=
  Yields.ask h

/-- Whether the current token has a kind is answered. -/
theorem Yields.nextIs {kind : TokenKind} {a : Bool} (h : (nextIs kind).Yields s a τ t) :
    a = (s.current.kind == kind) ∧ τ = [] ∧ s = t := by
  obtain ⟨k, u, τ₁, τ₂, hk, hpure, rfl⟩ := Yields.bind h
  obtain ⟨rfl, rfl, rfl⟩ := hk.currentKind
  obtain ⟨rfl, rfl, rfl⟩ := hpure.pure
  exact ⟨rfl, rfl, rfl⟩

/-- Accepting a token passes it, or it is not there. -/
theorem Yields.accept {kind : TokenKind} {a : Bool} (h : (accept kind).Yields s a τ t) :
    τ = [] ∧ (a = true ∧ s.current.kind = kind ∧ t = s.advance ∨
      a = false ∧ s.current.kind ≠ kind ∧ s = t) := by
  obtain ⟨b, u, τ₁, τ₂, hnext, hrest, rfl⟩ := Yields.bind h
  obtain ⟨rfl, rfl, rfl⟩ := hnext.nextIs
  by_cases hkind : s.current.kind = kind
  · simp only [hkind, beq_self_eq_true, if_true] at hrest
    obtain ⟨_, v, τ₁, τ₂, hadvance, hpure, rfl⟩ := hrest.bind
    obtain ⟨rfl, rfl⟩ := hadvance.advance
    obtain ⟨rfl, rfl, rfl⟩ := hpure.pure
    exact ⟨rfl, Or.inl ⟨rfl, hkind, rfl⟩⟩
  · simp only [beq_eq_false_iff_ne.mpr hkind, Bool.false_eq_true, if_false] at hrest
    obtain ⟨rfl, rfl, rfl⟩ := hrest.pure
    exact ⟨rfl, Or.inr ⟨rfl, hkind, rfl⟩⟩

/-- A token is passed if it may stand there and does. -/
theorem Yields.acceptIf {allowed : Bool} {kind : TokenKind} {a : Bool}
    (h : (acceptIf allowed kind).Yields s a τ t) :
    τ = [] ∧ (a = true ∧ (allowed = true ∧ s.current.kind = kind) ∧ t = s.advance ∨
      a = false ∧ ¬ (allowed = true ∧ s.current.kind = kind) ∧ s = t) := by
  cases allowed with
  | true =>
      obtain ⟨hτ, hcases⟩ := Yields.accept h
      simpa using And.intro hτ hcases
  | false =>
      obtain ⟨rfl, rfl, rfl⟩ := Yields.pure h
      simp

/-- A token that has to be there is there. -/
theorem Yields.expect {kind : TokenKind} {what : String} {a : Unit}
    (h : (expect kind what).Yields s a τ t) :
    s.current.kind = kind ∧ τ = [] ∧ t = s.advance := by
  obtain ⟨b, u, τ₁, τ₂, hnext, hrest, rfl⟩ := Yields.bind h
  obtain ⟨rfl, rfl, rfl⟩ := hnext.nextIs
  by_cases hkind : s.current.kind = kind
  · simp only [hkind, beq_self_eq_true, if_true] at hrest
    obtain ⟨rfl, rfl⟩ := hrest.advance
    exact ⟨hkind, rfl, rfl⟩
  · simp only [beq_eq_false_iff_ne.mpr hkind, Bool.false_eq_true, if_false] at hrest
    exact hrest.failHere.elim


end CompileM

end LoxBytecode
