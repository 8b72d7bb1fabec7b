import Mathlib
import LoxBytecode.Compile
import LoxBytecode.Proofs.Session.Fields

/-!
# Recovering from a Diagnostic

A declaration with something wrong in it is left behind by skipping to where a statement can begin
(`Session.AtBoundary`). Diagnostics count again before anything is skipped. So a piece that is no
token is reported when it is the first to be skipped, and from there on diagnostics are dropped
once more: the session gets out of recovery just when all that it skips is tokens
(`Recovered.recovering`). Otherwise the next declaration begins with diagnostics dropped, and what
is wrong with it first is lost (`compile_drops_behind_lexical`).
-/

namespace LoxBytecode

/-! ### What reading notes -/

/-- Whether a piece is no token. -/
def Token.isError (t : Token) : Bool :=
  t.kind == .error

/-- What is reported of some pieces that are read: the first that is no token, unless diagnostics
are dropped from the outset. -/
def noted (recovering : Bool) (ts : List Token) : List Diagnostic :=
  if recovering then []
  else (ts.find? Token.isError).toList.map fun t => ⟨t.line, Location.ofToken t, t.lexeme⟩

variable {recovering : Bool} {t : Token} {ts ts' skipped skipped' : List Token}

/-- Of errors in a row only the first is noted, wherever the row is cut in two. -/
theorem noted_append :
    noted recovering (ts ++ ts') =
      noted recovering ts ++ noted (recovering || ts.any Token.isError) ts' := by
  cases recovering with
  | true => rfl
  | false =>
      rw [noted, noted, noted, List.find?_append]
      cases hfind : ts.find? Token.isError with
      | none =>
          have hany : ts.any Token.isError = false := by
            simpa using List.find?_eq_none.mp hfind
          simp [hany]
      | some t =>
          have hany : ts.any Token.isError = true :=
            List.any_eq_true.mpr ⟨t, List.mem_of_find?_eq_some hfind, List.find?_some hfind⟩
          simp [hany]

namespace Session

variable {s u v : Session}

/-- Reading some pieces and nothing else: what is reported of them, and whether diagnostics are
dropped then. -/
structure Reads (s u : Session) (read : List Token) : Prop where
  upcoming : s.upcoming.ahead = read ++ u.upcoming.ahead
  recovering : u.recovering = (s.recovering || read.any Token.isError)
  diagnostics : u.diagnostics.toList = s.diagnostics.toList ++ noted s.recovering read

/-- A session that stays as it is has read nothing. -/
theorem Reads.refl (s : Session) : s.Reads s [] where
  upcoming := rfl
  recovering := (Bool.or_false _).symm
  diagnostics := by cases hs : s.recovering <;> simp [noted]

/-- What is read in a row is read in all. -/
theorem Reads.trans (h : s.Reads u skipped) (h' : u.Reads v skipped') :
    s.Reads v (skipped ++ skipped') where
  upcoming := by rw [h.upcoming, h'.upcoming, List.append_assoc]
  recovering := by rw [h'.recovering, h.recovering, List.any_append, Bool.or_assoc]
  diagnostics := by
    rw [h'.diagnostics, h.diagnostics, noted_append, h.recovering, List.append_assoc]

/-- Whoever reports is recovering. -/
theorem recovering_report (s : Session) (t : Token) (message : String) :
    (s.report t message).recovering = true := by
  simp only [report]
  split
  next hrecovering => exact hrecovering
  next => rfl

/-- A report of an error notes it, unless errors are being dropped. -/
theorem diagnostics_report (s : Session) (ht : t.isError = true) :
    (s.report t t.lexeme).diagnostics.toList = s.diagnostics.toList ++ noted s.recovering [t] := by
  simp only [report]
  cases hs : s.recovering with
  | true => simp [noted]
  | false => simp [noted, ht]

/-- Reading takes at least one piece when there is one, and otherwise finds the end. -/
theorem exists_read (s : Session) (ts : List Token) :
    ∃ read, ts = read ++ (s.readFrom ts).upcoming.ahead ∧
      (s.readFrom ts).recovering = (s.recovering || read.any Token.isError) ∧
        (s.readFrom ts).diagnostics.toList = s.diagnostics.toList ++ noted s.recovering read ∧
          (read = [] → (s.readFrom ts).current.kind = .eof) := by
  induction ts generalizing s with
  | nil =>
      have hrefl := Reads.refl s
      exact ⟨[], rfl, hrefl.recovering, hrefl.diagnostics, fun _ => rfl⟩
  | cons t ts ih =>
      rw [readFrom]
      split
      next herror =>
        have ht : t.isError = true := beq_iff_eq.mpr herror
        obtain ⟨read, hts, hrecovering, hdiagnostics, -⟩ := ih (s.report t t.lexeme)
        have hnoted : noted s.recovering (t :: read) =
            noted s.recovering [t] ++ noted true read := by
          rw [← List.singleton_append, noted_append, List.any_cons, ht, Bool.true_or, Bool.or_true]
        refine ⟨t :: read, congrArg (t :: ·) hts, ?_, ?_, by rintro ⟨⟩⟩
        · rw [hrecovering, recovering_report, List.any_cons, ht, Bool.true_or, Bool.or_true]
        · rw [hdiagnostics, diagnostics_report s ht, List.append_assoc, recovering_report, hnoted]
      next herror =>
        have ht : t.isError = false := beq_eq_false_iff_ne.mpr herror
        refine ⟨[t], rfl, by simp [ht], ?_, by rintro ⟨⟩⟩
        cases hs : s.recovering <;> simp [noted, ht]

/-- Moving on reads on. Where nothing is left, the end of the source comes. -/
theorem exists_reads_advance (s : Session) :
    ∃ read, s.Reads s.advance read ∧ (read = [] → s.advance.current.kind = .eof) := by
  obtain ⟨read, hupcoming, hrecovering, hdiagnostics, hend⟩ :=
    exists_read { s with previous := s.current } s.upcoming.ahead
  exact ⟨read, ⟨hupcoming, hrecovering, hdiagnostics⟩, hend⟩

/-- A statement can begin: behind a semicolon, in front of a word that begins one, or at the end of
the source. -/
def AtBoundary (s : Session) : Prop :=
  s.current.kind = .eof ∨ s.previous.kind = .semicolon ∨ s.current.kind.startsStatement = true

end Session

/-! ### Skipping -/

/-- Skipping from a session to where a statement can begin, and no further. -/
structure Skipped (s t : Session) (skipped : List Token) : Prop where
  reads : s.Reads t skipped
  boundary : t.AtBoundary
  steps : ∃ n, t = Session.advance^[n] s ∧ ∀ i < n, ¬ (Session.advance^[i] s).AtBoundary

namespace CompileM

open Session

variable {s t : Session} {budget : Nat}

/-- The loop stops exactly at a boundary. -/
theorem atBoundary_iff : (s.current.kind == .eof || s.previous.kind == .semicolon ||
    s.current.kind.startsStatement) = true ↔ s.AtBoundary := by
  simp [AtBoundary, or_assoc]

/-- One round of skipping ends at a boundary or goes past a token. -/
theorem run_skipToStatement (budget : Nat) (s : Session) :
    s.AtBoundary ∧ (skipToStatement (budget + 1)).run s = .ok ((), s) ∨
      ¬ s.AtBoundary ∧
        (skipToStatement (budget + 1)).run s = (skipToStatement budget).run s.advance := by
  rw [← atBoundary_iff]
  simp only [skipToStatement, run_bind, run_currentKind, run_previousKind, ok_bind, run_ite]
  split
  next hstop => exact .inl ⟨hstop, rfl⟩
  next hgo => exact .inr ⟨hgo, rfl⟩

/-- Skipping ends at the first boundary, and what was passed was read. -/
theorem exists_skipped (h : (skipToStatement budget).run s = .ok ((), t)) :
    ∃ skipped, Skipped s t skipped := by
  induction budget generalizing s with
  | zero => cases h
  | succ budget ih =>
      rcases run_skipToStatement budget s with ⟨hstop, hrun⟩ | ⟨hgo, hrun⟩
      · obtain ⟨-, rfl⟩ := Prod.mk.inj (Except.ok.inj (hrun.symm.trans h))
        exact ⟨[], .refl s, hstop, 0, rfl, by rintro i ⟨⟩⟩
      · obtain ⟨skipped, hreads, hboundary, n, ht, hfirst⟩ := ih (hrun.symm.trans h)
        obtain ⟨read, hread, -⟩ := exists_reads_advance s
        refine ⟨read ++ skipped, hread.trans hreads, hboundary, n + 1, ht, fun i hi => ?_⟩
        cases i with
        | zero => exact hgo
        | succ i => exact hfirst i (Nat.lt_of_succ_lt_succ hi)

/-- Skipping ends: there is a step for each piece that is left and one for the end. -/
theorem exists_run_skipToStatement
    (hbudget : s.current.kind = .eof ∧ 1 ≤ budget ∨ s.upcoming.ahead.length + 2 ≤ budget) :
    ∃ t, (skipToStatement budget).run s = .ok ((), t) := by
  induction budget generalizing s with
  | zero => omega
  | succ budget ih =>
      rcases run_skipToStatement budget s with ⟨-, hrun⟩ | ⟨hgo, hrun⟩
      · exact ⟨s, hrun⟩
      · rw [hrun]
        have hleft : s.upcoming.ahead.length + 2 ≤ budget + 1 :=
          hbudget.resolve_left fun h => hgo (.inl h.1)
        obtain ⟨read, hread, hend⟩ := exists_reads_advance s
        have hlength := congrArg List.length hread.upcoming
        rw [List.length_append] at hlength
        refine ih ?_
        rcases Nat.eq_zero_or_pos read.length with hnone | hpos
        · exact .inl ⟨hend (List.length_eq_zero_iff.mp hnone), by omega⟩
        · exact .inr (by omega)

end CompileM

/-! ### Recovering -/

/-- Recovering from a diagnostic: of what is skipped, the first piece that is no token is reported,
and diagnostics are dropped behind it. -/
structure Recovered (s t : Session) (skipped : List Token) : Prop where
  upcoming : s.upcoming.ahead = skipped ++ t.upcoming.ahead
  boundary : t.AtBoundary
  steps : ∃ n, t = Session.advance^[n] s.resume ∧
    ∀ i < n, ¬ (Session.advance^[i] s.resume).AtBoundary
  recovering : t.recovering = true ↔ ∃ piece ∈ skipped, piece.kind = .error
  diagnostics : t.diagnostics.toList = s.diagnostics.toList ++ noted false skipped

/-- Skipping after errors count again is recovering. -/
theorem Skipped.recovered {s t : Session} (h : Skipped s.resume t skipped) :
    Recovered s t skipped where
  upcoming := h.reads.upcoming
  boundary := h.boundary
  steps := h.steps
  recovering := by
    rw [h.reads.recovering, Session.resume, Bool.false_or, List.any_eq_true]
    simp only [Token.isError, beq_iff_eq]
  diagnostics := h.reads.diagnostics

namespace CompileM

variable {s t : Session} {budget : Nat}

/-- To recover is to let errors count again and to skip. -/
theorem run_synchronize (budget : Nat) (s : Session) :
    (synchronize budget).run s = (skipToStatement budget).run s.resume := by
  simp [synchronize, Action.apply]

/-- A part of a compilation that ends recovering only when it recovered just before and met a piece
that is no token. -/
def Recovers (m : CompileM Unit) : Prop :=
  ∀ s t, m.run s = .ok ((), t) → t.recovering = true →
    ∃ u skipped, u.recovering = true ∧ Recovered u t skipped

/-- What comes before a compilation that recovers does not matter. -/
theorem Recovers.after {β : Type} {first : CompileM β} {next : β → CompileM Unit}
    (h : ∀ b, (next b).Recovers) : (first >>= next).Recovers := by
  intro s t hrun
  rw [run_bind] at hrun
  obtain ⟨⟨b, u⟩, -, hrun⟩ := bind_eq_ok.mp hrun
  exact h b u t hrun

/-- A branch recovers if both sides do. -/
theorem Recovers.ite {c : Prop} [Decidable c] {yes no : CompileM Unit} (hyes : yes.Recovers)
    (hno : no.Recovers) : (if c then yes else no).Recovers := by
  split
  · exact hyes
  · exact hno

/-- What every declaration ends with. -/
theorem recovers_synchronize (budget : Nat) :
    (isRecovering >>= fun recovering =>
      if recovering = true then synchronize budget else pure ()).Recovers := by
  intro s t hrun ht
  rw [run_bind, run_isRecovering, ok_bind] at hrun
  dsimp only at hrun
  split at hrun
  next hs =>
    rw [run_synchronize] at hrun
    obtain ⟨skipped, hskipped⟩ := exists_skipped hrun
    exact ⟨s, skipped, hs, hskipped.recovered⟩
  next hs =>
    rw [run_pure] at hrun
    cases hrun
    exact absurd ht hs

/-- Every declaration ends by recovering from what was wrong in it. -/
theorem recovers_declaration (budget : Nat) : (declaration budget).Recovers := by
  cases budget with
  | zero => rintro s t ⟨⟩
  | succ budget =>
      have hrecovered (body : CompileM Unit) : (body >>= fun _ => isRecovering >>= fun recovering =>
          if recovering = true then synchronize budget else pure ()).Recovers :=
        .after fun _ => recovers_synchronize budget
      rw [declaration]
      show CompileM.Recovers (_ >>= _)
      exact .after fun _ => .ite (hrecovered _) <| .after fun _ => .ite (hrecovered _) <|
        .after fun _ => .ite (hrecovered _) (hrecovered _)

/-- Recovering always ends where a statement can begin. Whether diagnostics count then depends on
what was skipped, and behind a declaration on what its recovery skipped. -/
theorem synchronize_recovers (budget : Nat) :
    (∀ s : Session, s.upcoming.ahead.length + 2 ≤ budget →
      ∃ skipped t, (synchronize budget).run s = .ok ((), t) ∧ Recovered s t skipped) ∧
    ∀ s t : Session, (declaration budget).run s = .ok ((), t) → t.recovering = true →
      ∃ u skipped, u.recovering = true ∧ Recovered u t skipped := by
  refine ⟨fun s hbudget => ?_, recovers_declaration budget⟩
  obtain ⟨t, hrun⟩ := exists_run_skipToStatement (s := s.resume) (.inr hbudget)
  obtain ⟨skipped, hskipped⟩ := exists_skipped hrun
  exact ⟨skipped, t, (run_synchronize budget s).trans hrun, hskipped.recovered⟩

/-- A session in front of a name, a piece that is no token, and a semicolon. -/
def beforeLexical : Session :=
  (Session.start (TokenStream.ofSource "a @ ; * ;") (Heap.ofConfig .standard) []).advance

/-- A piece that is no token, met while skipping, leaves errors dropped at the boundary. -/
theorem synchronize_recovers_lexical :
    beforeLexical.upcoming.ahead.length + 2 ≤ 8 ∧
      ∃ skipped t, (synchronize 8).run beforeLexical = .ok ((), t) ∧
        Recovered beforeLexical t skipped := by
  have hleft : beforeLexical.upcoming.ahead.length = 4 := by
    cbv
  have hbudget : beforeLexical.upcoming.ahead.length + 2 ≤ 8 := by
    rw [hleft]
    decide
  exact ⟨hbudget, (synchronize_recovers 8).1 _ hbudget⟩

/-- A session can recover and have diagnostics dropped all the same. What is wrong with the second
statement is reported when the first has only tokens to skip, and is lost when a piece among them is
none. -/
theorem compile_drops_behind_lexical :
    ((synchronize 8).run beforeLexical).map (·.2.recovering) = .ok true ∧
      (compile "* a ; * ;" (Heap.ofConfig .standard) []).map (·.outcome) =
        .ok (.error [⟨1, .atToken "*", "Expect expression."⟩,
          ⟨1, .atToken "*", "Expect expression."⟩]) ∧
      (compile "* a @ ; * ;" (Heap.ofConfig .standard) []).map (·.outcome) =
        .ok (.error [⟨1, .atToken "*", "Expect expression."⟩,
          ⟨1, .lexical, "Unexpected character."⟩]) := by
  refine ⟨?_, ?_, ?_⟩ <;> cbv

end CompileM

end LoxBytecode
