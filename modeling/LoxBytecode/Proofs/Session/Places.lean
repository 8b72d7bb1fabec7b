import LoxBytecode.Proofs.Session.Following
import LoxBytecode.Proofs.Token.Munch

/-!
# The Places of Diagnostics

A diagnostic keeps the line and the text of its token and not which token it was. `Places` follows
a run beside its session and says so: where in the sequence of tokens the token just passed and
the current one stand, and where those that diagnostics were reported at (`CompileM.places`).
`Places.Ordered` is the invariant: every diagnostic is about the token at its place, and no place
precedes the one before it. A report at the current token never breaks it. One at the token just
passed could, after a resumption, since what was reported before it may lie ahead; until the next
advance a session is therefore not `Settled`.
-/

namespace LoxBytecode

/-- Where a session is in a sequence of tokens, and where the tokens are that its diagnostics
were reported at, in the order of reporting. -/
structure Places where
  /-- The place of the token just passed. -/
  previous : Nat
  current : Nat
  reported : List Nat

/-- Before the first token. -/
def Places.start : Places :=
  ⟨0, 0, []⟩

/-! ### Following an action and a run -/

variable {total : Nat} {α β : Type}

/-- The place of the token that an action reports at, if it reports: pieces that are no token
stand first among those to come. -/
def Action.site (total : Nat) (s : Session) (p : Places) : Action β → Nat
  | .advance => total - s.upcoming.ahead.length
  | .failHere _ => p.current
  | _ => p.previous

/-- The places after an action that led from one session to another. -/
def Action.places (total : Nat) (s t : Session) (p : Places) (a : Action β) : Places :=
  let reported :=
    if s.diagnostics.size < t.diagnostics.size then p.reported ++ [a.site total s p]
    else p.reported
  match a with
  | .advance =>
    let next := s.upcoming.ahead.dropWhile (·.kind == .error)
    ⟨p.current, total - next.length, reported⟩
  | _ => ⟨p.previous, p.current, reported⟩

/-- The places after a compilation of some tokens that began at others. -/
def CompileM.places (total : Nat) {α : Type} : CompileM α → Session → Places → Places
  | .done _, _, p => p
  | .ask _, _, p => p
  | .act a, s, p =>
    match a.apply s with
    | .ok (_, t) => a.places total s t p
    | .error _ => p
  | .chain first next, s, p =>
    match first.run s with
    | .ok (b, t) => (next b).places total t (first.places total s p)
    | .error _ => first.places total s p
  | .part _ body, s, p => body.places total s p

/-- The diagnostic was reported at the token that stands at a place. -/
def TokenStream.ReportedAt (tokens : TokenStream) (d : Diagnostic) (i : Nat) : Prop :=
  ∃ t, tokens.toList[i]? = some t ∧ d.line = t.line ∧ d.location = Location.ofToken t

/-! ### What an action reports -/

namespace Session

/-- Either nothing is reported, or one diagnostic at a token, after which the session is
recovering. -/
inductive MayReport (s t : Session) (tok : Option Token) : Prop where
  | nothing (hdiagnostics : t.diagnostics = s.diagnostics)
      (hrecovering : t.recovering = s.recovering)
  | once (at' : Token) (message : String) (hat : tok = some at') (hbefore : s.recovering = false)
      (hafter : t.recovering = true)
      (hdiagnostics : t.diagnostics =
        s.diagnostics.push ⟨at'.line, Location.ofToken at', message⟩)

variable {s t u : Session} {tok : Option Token}

/-- A report is at the token that it is made at. -/
theorem mayReport_report (s : Session) (tok : Token) (message : String) :
    MayReport s (s.report tok message) (some tok) := by
  cases hs : s.recovering with
  | true => exact .nothing (by simp [report, hs]) (by simp [report, hs])
  | false => exact .once tok message rfl hs (by simp [report, hs]) (by simp [report, hs])

/-- Before reporting, what belongs to the report may stay as it is. -/
theorem MayReport.after (h : MayReport t u tok) (hdiagnostics : t.diagnostics = s.diagnostics)
    (hrecovering : t.recovering = s.recovering) : MayReport s u tok := by
  cases h with
  | nothing h₁ h₂ => exact .nothing (h₁.trans hdiagnostics) (h₂.trans hrecovering)
  | once at' message hat hbefore hafter h =>
      exact .once at' message hat (hrecovering ▸ hbefore) hafter (hdiagnostics ▸ h)

/-- A load may report at the token just passed. -/
theorem mayReport_load (s : Session) (v : Value) : MayReport s (s.load v) (some s.previous) := by
  rw [load]
  split
  · exact mayReport_report ..
  · exact .nothing rfl rfl

/-- Adding a constant may report at the token just passed. -/
theorem mayReport_addConstant {v : Value} {index : UInt8} (h : s.addConstant v = .ok (index, t)) :
    MayReport s t (some s.previous) := by
  rcases addConstant_eq_ok h with ⟨-, -, rfl⟩ | ⟨-, rfl⟩
  · exact .nothing rfl rfl
  · exact (mayReport_report (s.modifyChunk _) s.previous _).after rfl rfl

/-- Of the pieces that are no token only the first can be reported. -/
theorem mayReport_readFrom (s : Session) (ts : List Token) :
    MayReport s (s.readFrom ts) ts.head? := by
  induction ts generalizing s with
  | nil => exact .nothing rfl rfl
  | cons tok ts ih =>
      rw [readFrom]
      split
      · have hfirst := mayReport_report s tok tok.lexeme
        cases ih (s.report tok tok.lexeme) with
        | nothing hd hr =>
            cases hfirst with
            | nothing hd' hr' => exact .nothing (hd.trans hd') (hr.trans hr')
            | once at' message hat hbefore hafter h =>
                exact .once at' message hat hbefore (hr.trans hafter) (hd.trans h)
        | once at' message hat hbefore hafter h =>
            cases hfirst with
            | nothing hd' hr' =>
                have hrecovering : (s.report tok tok.lexeme).recovering = true := by
                  cases hs : s.recovering <;> simp [report, hs]
                rw [hbefore] at hrecovering
                cases hrecovering
            | once _ _ _ _ hafter' _ =>
                rw [hbefore] at hafter'
                cases hafter'
      · exact .nothing rfl rfl

/-- The next token that is no error becomes the current one. -/
theorem next_dropWhile (s : Session) (ts : List Token) :
    ((s.readFrom ts).current, (s.readFrom ts).upcoming) =
      TokenStream.next ⟨ts.dropWhile (·.kind == .error), s.upcoming.endLine⟩ := by
  induction ts generalizing s with
  | nil => rfl
  | cons tok ts ih =>
      rw [readFrom]
      split
      next herror => rw [ih, upcoming_report, List.dropWhile_cons_of_pos (by simpa using herror)]
      next herror =>
        rw [List.dropWhile_cons_of_neg (by simpa using herror)]
        rfl

end Session

/-- The token at which an action can report. -/
def Action.reportsAt (s : Session) : Action β → Option Token
  | .advance => s.upcoming.ahead.head?
  | .failHere _ => some s.current
  | _ => some s.previous

/-- The action lets no diagnostics count again. -/
def Action.Calm : Action β → Prop
  | .resume => False
  | _ => True

/-- Moving on lets no diagnostics count again. -/
theorem Action.calm_advance : Action.advance.Calm := trivial

/-- A calm action reports at most once. -/
theorem Action.mayReport {a : Action β} (ha : a.Calm) {s t : Session} {b : β}
    (h : a.apply s = .ok (b, t)) : s.MayReport t (a.reportsAt s) := by
  cases a with
  | resume => exact ha.elim
  | advance =>
      cases h
      exact (Session.mayReport_readFrom { s with previous := s.current } _).after rfl rfl
  | fail | failHere =>
      cases h
      exact Session.mayReport_report ..
  | emit | beginScope | markInitialized | findUpvalue | beginFunction | countParameter =>
      cases h
      exact .nothing rfl rfl
  | patchJump offset =>
      obtain ⟨u, hu, h⟩ := bind_eq_ok.mp h
      cases h
      rcases Session.patchJump_eq_ok hu with ⟨c, -, -, -, rfl⟩ | ⟨-, rfl⟩
      · exact .nothing rfl rfl
      · exact Session.mayReport_report ..
  | loadNumber =>
      cases h
      rw [Session.loadNumber]
      split
      · exact Session.mayReport_load ..
      · exact Session.mayReport_report ..
  | loadString =>
      obtain ⟨u, hu, h⟩ := bind_eq_ok.mp h
      cases h
      obtain ⟨text, -, hload⟩ := bind_eq_ok.mp hu
      cases hload
      exact (Session.mayReport_load (s.intern text).2 _).after rfl rfl
  | nameConstant =>
      have hadd := Session.mayReport_addConstant (s := (s.intern s.previous.lexeme).2) h
      exact hadd.after rfl rfl
  | endScope =>
      obtain ⟨⟨flags, st⟩, -, h⟩ := bind_eq_ok.mp h
      cases h
      exact .nothing rfl rfl
  | declare =>
      cases h
      rw [Session.declare]
      split
      · exact .nothing rfl rfl
      · exact Session.mayReport_report ..
  | nameFunction =>
      obtain ⟨u, hu, h⟩ := bind_eq_ok.mp h
      cases h
      rw [Session.nameFunction] at hu
      obtain ⟨heap, -, rfl⟩ := Session.changeHeap_eq_ok hu
      exact .nothing rfl rfl
  | endFunction =>
      obtain ⟨st, parent, rest, heap, u, -, -, -, rfl, hadd⟩ := Session.endFunction_eq_ok h
      have hadd' := Session.mayReport_addConstant
        (s := { s with functions := ⟨parent, rest⟩, heap := heap }) hadd
      exact hadd'.after rfl rfl

/-! ### Diagnostics in order -/

variable {tokens : TokenStream} {s t : Session} {p : Places}

/-- What is still to come stands at the end of all tokens, and its first one at the place that
its length says. -/
theorem TokenStream.getElem?_of_suffix {ahead : List Token} (h : ahead <:+ tokens.ahead) :
    tokens.toList[tokens.ahead.length - ahead.length]? =
      some (TokenStream.next ⟨ahead, tokens.endLine⟩).1 := by
  obtain ⟨before, hbefore⟩ := h
  have hplace : tokens.ahead.length - ahead.length = before.length := by
    rw [← hbefore, List.length_append, Nat.add_sub_cancel]
  rw [hplace, toList, ← hbefore, List.append_assoc,
    List.getElem?_append_right (Nat.le_refl _), Nat.sub_self]
  cases ahead <;> rfl

namespace Places

/-- Every diagnostic was reported at the token at its place, no place precedes the one before
it, and none is to come yet. -/
structure Ordered (tokens : TokenStream) (s : Session) (p : Places) : Prop where
  upcoming : s.upcoming.ahead <:+ tokens.ahead
  endLine : s.upcoming.endLine = tokens.endLine
  reported : List.Forall₂ tokens.ReportedAt s.diagnostics.toList p.reported
  sorted : p.reported.Pairwise (· ≤ ·)
  passed : ∀ i ∈ p.reported, i ≤ tokens.ahead.length - s.upcoming.ahead.length

/-- The current token has its place, and nothing was reported behind it. -/
structure Reading (tokens : TokenStream) (s : Session) (p : Places) : Prop
    extends Ordered tokens s p where
  current : tokens.toList[p.current]? = some s.current
  next : p.current ≤ tokens.ahead.length - s.upcoming.ahead.length
  le : ∀ i ∈ p.reported, i ≤ p.current

/-- Nothing that counts can be reported before what was: unless diagnostics are dropped, the
token just passed has its place, and nothing was reported behind it. -/
def Settled (tokens : TokenStream) (s : Session) (p : Places) : Prop :=
  s.recovering = false →
    tokens.toList[p.previous]? = some s.previous ∧ p.previous ≤ p.current ∧
      ∀ i ∈ p.reported, i ≤ p.previous

/-- What an action that may report adds to the places: nothing, or its site, after which
diagnostics are dropped. -/
theorem Ordered.grows (hs : Ordered tokens s p) (a : Action β)
    (hreport : s.MayReport t (a.reportsAt s))
    (hsite : s.recovering = false → ∀ tok, a.reportsAt s = some tok →
      tokens.toList[a.site tokens.ahead.length s p]? = some tok) :
    List.Forall₂ tokens.ReportedAt t.diagnostics.toList
        (a.places tokens.ahead.length s t p).reported ∧
      ((a.places tokens.ahead.length s t p).reported = p.reported ∧
          t.recovering = s.recovering ∨
        (a.places tokens.ahead.length s t p).reported =
            p.reported ++ [a.site tokens.ahead.length s p] ∧
          s.recovering = false ∧ t.recovering = true) := by
  have hplaces : (a.places tokens.ahead.length s t p).reported =
      if s.diagnostics.size < t.diagnostics.size then
        p.reported ++ [a.site tokens.ahead.length s p]
      else p.reported := by
    cases a <;> rfl
  cases hreport with
  | nothing hdiagnostics hrecovering =>
      rw [hplaces, hdiagnostics, if_neg (Nat.lt_irrefl _)]
      exact ⟨hs.reported, Or.inl ⟨rfl, hrecovering⟩⟩
  | once tok message htok hbefore hafter hdiagnostics =>
      rw [hplaces, hdiagnostics, if_pos (by simp)]
      refine ⟨?_, Or.inr ⟨rfl, hbefore, hafter⟩⟩
      rw [Array.toList_push]
      have hat : tokens.ReportedAt ⟨tok.line, Location.ofToken tok, message⟩
          (a.site tokens.ahead.length s p) :=
        ⟨tok, hsite hbefore tok htok, rfl, rfl⟩
      exact List.rel_append hs.reported (.cons hat .nil)

/-- A place no earlier than those reported goes behind them. -/
theorem pairwise_concat {L : List Nat} {i : Nat} (hL : L.Pairwise (· ≤ ·))
    (hi : ∀ j ∈ L, j ≤ i) : (L ++ [i]).Pairwise (· ≤ ·) :=
  List.pairwise_append.mpr ⟨hL, List.pairwise_singleton .., by simpa using hi⟩

/-! ### Moving on -/

/-- The first error that is skipped stands at the place counted for it. -/
theorem Ordered.getElem?_site_advance (hs : Ordered tokens s p) {tok : Token}
    (htok : Action.advance.reportsAt s = some tok) :
    tokens.toList[Action.advance.site tokens.ahead.length s p]? = some tok := by
  obtain ⟨rest, hahead⟩ : ∃ rest, s.upcoming.ahead = tok :: rest := by
    rw [Action.reportsAt] at htok
    exact ⟨_, (List.cons_head?_tail htok).symm⟩
  rw [Action.site, TokenStream.getElem?_of_suffix hs.upcoming, hahead]
  rfl

/-- Moving on, the places come to the next token. -/
theorem Ordered.advance (hs : Ordered tokens s p) :
    Reading tokens s.advance (Action.advance.places tokens.ahead.length s s.advance p) := by
  obtain ⟨hreported, hgrows⟩ := hs.grows .advance
    (Action.mayReport Action.calm_advance
      (show Action.advance.apply s = .ok ((), s.advance) from rfl))
    fun _ _ => hs.getElem?_site_advance
  set q := Action.advance.places tokens.ahead.length s s.advance p with hq
  set left := s.upcoming.ahead.dropWhile (·.kind == .error) with hleft
  have hcurrent : q.current = tokens.ahead.length - left.length := rfl
  have hsuffix : left <:+ s.upcoming.ahead := List.dropWhile_suffix _
  have hnext := Session.next_dropWhile { s with previous := s.current } s.upcoming.ahead
  have hahead : s.advance.upcoming.ahead <:+ left := by
    have hsnd := congrArg (fun r => (Prod.snd r).ahead) hnext
    rw [Session.advance, hsnd, ← hleft]
    cases left with
    | nil => exact List.suffix_refl _
    | cons tok rest => exact List.suffix_cons ..
  have hend : s.advance.upcoming.endLine = s.upcoming.endLine := by
    have hsnd := congrArg (fun r => (Prod.snd r).endLine) hnext
    rw [Session.advance, hsnd, ← hleft]
    cases left <;> rfl
  have hle : tokens.ahead.length - s.upcoming.ahead.length ≤ tokens.ahead.length - left.length :=
    Nat.sub_le_sub_left hsuffix.length_le _
  have hle' : tokens.ahead.length - left.length ≤
      tokens.ahead.length - s.advance.upcoming.ahead.length :=
    Nat.sub_le_sub_left hahead.length_le _
  have hbounded : ∀ i ∈ q.reported, i ≤ tokens.ahead.length - s.upcoming.ahead.length := by
    rcases hgrows with ⟨h, -⟩ | ⟨h, -, -⟩
    · exact h ▸ hs.passed
    · intro i hi
      rw [h, List.mem_append, List.mem_singleton] at hi
      rcases hi with hi | rfl
      · exact hs.passed i hi
      · exact Nat.le_refl _
  exact
    { upcoming := (hahead.trans hsuffix).trans hs.upcoming
      endLine := hend.trans hs.endLine
      reported := hreported
      sorted := by
        rcases hgrows with ⟨h, -⟩ | ⟨h, -, -⟩
        · exact h ▸ hs.sorted
        · exact h ▸ pairwise_concat hs.sorted hs.passed
      passed := fun i hi => Nat.le_trans (hbounded i hi) (Nat.le_trans hle hle')
      current := by
        have hfst := congrArg Prod.fst hnext
        rw [hcurrent, TokenStream.getElem?_of_suffix (hsuffix.trans hs.upcoming), ← hs.endLine]
        exact congrArg some hfst.symm
      next := hle'
      le := fun i hi => Nat.le_trans (hbounded i hi) hle }

/-- Behind what was current nothing was reported that counts. -/
theorem Reading.advance (hs : Reading tokens s p) :
    Settled tokens s.advance (Action.advance.places tokens.ahead.length s s.advance p) := by
  intro hquiet
  obtain ⟨-, hgrows⟩ := hs.toOrdered.grows .advance
    (Action.mayReport Action.calm_advance
      (show Action.advance.apply s = .ok ((), s.advance) from rfl))
    fun _ _ => hs.getElem?_site_advance
  rcases hgrows with ⟨h, -⟩ | ⟨-, -, hrecovering⟩
  · rw [h, Session.previous_advance]
    refine ⟨hs.current, Nat.le_trans hs.next ?_, hs.le⟩
    exact Nat.sub_le_sub_left (List.dropWhile_suffix _).length_le _
  · rw [hquiet] at hrecovering
    cases hrecovering

/-! ### Actions at their place -/

/-- An action that does not move on may report at a place behind all those before. -/
theorem Reading.stay (hs : Reading tokens s p) {a : Action β} (ha : a.Calm) (hstay : ¬ a.Moves)
    {b : β} (h : a.apply s = .ok (b, t))
    (hsite : s.recovering = false →
      tokens.toList[a.site tokens.ahead.length s p]? = a.reportsAt s ∧
        a.site tokens.ahead.length s p ≤ p.current ∧
        ∀ i ∈ p.reported, i ≤ a.site tokens.ahead.length s p) :
    Reading tokens t (a.places tokens.ahead.length s t p) ∧
      ((a.places tokens.ahead.length s t p).reported = p.reported ∧
          t.recovering = s.recovering ∨ t.recovering = true) := by
  obtain ⟨hreported, hgrows⟩ := hs.toOrdered.grows a (Action.mayReport ha h)
    fun hquiet tok htok => (hsite hquiet).1.trans htok
  have hsame := Action.sameTokens hstay h
  have hcurrent : (a.places tokens.ahead.length s t p).current = p.current := by
    cases a with
    | advance => exact absurd trivial hstay
    | _ => rfl
  have hle : ∀ i ∈ (a.places tokens.ahead.length s t p).reported, i ≤ p.current := by
    rcases hgrows with ⟨heq, -⟩ | ⟨heq, hquiet, -⟩
    · exact heq ▸ hs.le
    · intro i hi
      rw [heq, List.mem_append, List.mem_singleton] at hi
      rcases hi with hi | rfl
      · exact hs.le i hi
      · exact (hsite hquiet).2.1
  refine ⟨
    { upcoming := hsame.upcoming ▸ hs.upcoming
      endLine := hsame.upcoming ▸ hs.endLine
      reported := hreported
      sorted := ?_
      passed := fun i hi => Nat.le_trans (hle i hi) (hsame.upcoming ▸ hs.next)
      current := by rw [hcurrent, hsame.current, hs.current]
      next := by rw [hcurrent, hsame.upcoming]; exact hs.next
      le := fun i hi => hcurrent ▸ hle i hi }, ?_⟩
  · rcases hgrows with ⟨heq, -⟩ | ⟨heq, hquiet, -⟩
    · exact heq ▸ hs.sorted
    · exact heq ▸ pairwise_concat hs.sorted (hsite hquiet).2.2
  · exact hgrows.imp_right fun h => h.2.2

/-- Any report is in order from a settled session, and leaves a settled one. -/
theorem Reading.act (hs : Reading tokens s p) (hsettled : Settled tokens s p) {a : Action β}
    (ha : a.Calm) {b : β} (h : a.apply s = .ok (b, t)) :
    Reading tokens t (a.places tokens.ahead.length s t p) ∧
      Settled tokens t (a.places tokens.ahead.length s t p) := by
  by_cases hmoves : a.Moves
  · cases a with
    | advance =>
        cases h
        exact ⟨hs.toOrdered.advance, hs.advance⟩
    | _ => exact hmoves.elim
  · have hsite (hquiet : s.recovering = false) :
        tokens.toList[a.site tokens.ahead.length s p]? = a.reportsAt s ∧
          a.site tokens.ahead.length s p ≤ p.current ∧
          ∀ i ∈ p.reported, i ≤ a.site tokens.ahead.length s p := by
      cases a with
      | advance => exact absurd trivial hmoves
      | failHere problem => exact ⟨hs.current, Nat.le_refl _, hs.le⟩
      | _ => exact hsettled hquiet
    obtain ⟨hreading, hcases⟩ := hs.stay ha hmoves h hsite
    refine ⟨hreading, fun hquiet => ?_⟩
    rcases hcases with ⟨hsame, hrecovering⟩ | hrecovering
    · have hprevious : (a.places tokens.ahead.length s t p).previous = p.previous ∧
          (a.places tokens.ahead.length s t p).current = p.current := by
        cases a with
        | advance => exact absurd trivial hmoves
        | _ => exact ⟨rfl, rfl⟩
      rw [hprevious.1, hprevious.2, hsame, (Action.sameTokens hmoves h).previous]
      exact hsettled (hrecovering ▸ hquiet)
    · rw [hquiet] at hrecovering
      cases hrecovering

/-- A report at the current token is in order from every session, and leaves a settled one. -/
theorem Reading.failHere (hs : Reading tokens s p) (problem : Problem) :
    Reading tokens (s.failHere problem)
        ((Action.failHere problem).places tokens.ahead.length s (s.failHere problem) p) ∧
      Settled tokens (s.failHere problem)
        ((Action.failHere problem).places tokens.ahead.length s (s.failHere problem) p) := by
  have happly : (Action.failHere problem).apply s = .ok ((), s.failHere problem) := rfl
  have hcalm : (Action.failHere problem).Calm := trivial
  refine ⟨(hs.stay hcalm id happly fun _ => ⟨hs.current, Nat.le_refl _, hs.le⟩).1, ?_⟩
  have hrecovering : (s.failHere problem).recovering = true := by
    cases hs : s.recovering <;> simp [Session.failHere, Session.report, hs]
  intro hquiet
  rw [hquiet] at hrecovering
  cases hrecovering

/-- Resuming changes no place. -/
theorem Reading.resume (hs : Reading tokens s p) :
    Reading tokens s.resume (Action.resume.places tokens.ahead.length s s.resume p) := by
  have hplaces : Action.resume.places tokens.ahead.length s s.resume p = p := by
    have hsize : ¬ s.diagnostics.size < s.resume.diagnostics.size := Nat.lt_irrefl _
    simp only [Action.places, if_neg hsize]
  rw [hplaces]
  exact { hs with }

end Places

/-! ### The lines of a source -/

/-- As long as 32 bits suffice for the lines, skipping a gap counts what it takes from the text. -/
theorem toNat_skipGap {line startLine : UInt32} {cs rest : List Char}
    (hgap : skipGap line false cs = (startLine, rest))
    (hfits : line.toNat + cs.count '\n' < 2 ^ 32) :
    startLine.toNat + rest.count '\n' = line.toNat + cs.count '\n' ∧
      line.toNat ≤ startLine.toNat := by
  obtain ⟨gap, hcs, -, hline⟩ := gap_of_skipGap line false cs
  rw [hgap] at hcs hline
  dsimp only at hcs hline
  rw [hcs, List.count_append] at hfits
  have hstart : startLine.toNat = line.toNat + gap.count '\n' := by
    rw [hline]
    exact toNat_lineAfter (by omega)
  rw [hcs, List.count_append]
  omega

/-- A token has the line that it was made with. -/
theorem line_token (piece : Piece) (line : UInt32) : (piece.token line).line = line.toNat := by
  rw [Piece.token]
  split <;> rfl

/-- As long as 32 bits suffice for them, lines never decrease in what a scan has found and
finds. -/
theorem pairwise_scanFrom {found : List Token} {line : UInt32} {cs : List Char}
    (hfits : line.toNat + cs.count '\n' < 2 ^ 32)
    (hfound : found.Pairwise fun t u => u.line ≤ t.line)
    (hline : ∀ t ∈ found, t.line ≤ line.toNat) :
    (scanFrom found line cs).toList.Pairwise fun t u => t.line ≤ u.line := by
  induction found, line, cs using scanFrom.induct with
  | case1 found line cs endLine hgap =>
      obtain ⟨-, hend⟩ := toNat_skipGap hgap hfits
      rw [scanFrom, hgap]
      refine List.pairwise_append.mpr
        ⟨List.pairwise_reverse.mpr hfound, List.pairwise_singleton .., fun t ht u hu => ?_⟩
      obtain rfl := List.mem_singleton.mp hu
      exact Nat.le_trans (hline t (List.mem_reverse.mp ht)) hend
  | case2 found line cs startLine c rest hgap piece endLine ih =>
      obtain ⟨hcount, hstart⟩ := toNat_skipGap hgap hfits
      have hpiece : (c :: rest).count '\n' = piece.text.count '\n' + piece.rest.count '\n' := by
        rw [← List.count_append, Piece.text_append_rest]
      have hend : endLine.toNat = startLine.toNat + piece.text.count '\n' :=
        toNat_lineAfter (by omega)
      rw [scanFrom, hgap]
      refine ih (by omega) (List.pairwise_cons.mpr ⟨fun t ht => ?_, hfound⟩)
        (List.forall_mem_cons.mpr ⟨Nat.le_of_eq (line_token ..), fun t ht => ?_⟩)
      · rw [line_token]
        exact Nat.le_trans (hline t ht) (by omega)
      · exact Nat.le_trans (hline t ht) (by omega)

/-- The lines of a source's tokens never decrease, if 32 bits suffice for them. -/
theorem TokenStream.pairwise_line_ofSource {source : String}
    (hfits : source.toList.count '\n' < 2 ^ 32 - 1) :
    (ofSource source).toList.Pairwise fun t u => t.line ≤ u.line := by
  have hone : (1 : UInt32).toNat = 1 := rfl
  rw [ofSource_eq]
  exact pairwise_scanFrom (by omega) .nil (List.forall_mem_nil _)

/-- Diagnostics at tokens whose places never decrease are on lines that never decrease. -/
theorem TokenStream.pairwise_line_of_reportedAt {tokens : TokenStream} {ds : List Diagnostic}
    {L : List Nat} (htokens : tokens.toList.Pairwise fun t u => t.line ≤ u.line)
    (hreported : List.Forall₂ tokens.ReportedAt ds L) (hL : L.Pairwise (· ≤ ·)) :
    ds.Pairwise fun d e => d.line ≤ e.line := by
  induction hreported with
  | nil => exact .nil
  | @cons d i ds L hd hds ih =>
      obtain ⟨hfirst, hrest⟩ := List.pairwise_cons.mp hL
      refine List.pairwise_cons.mpr ⟨fun e he => ?_, ih hrest⟩
      obtain ⟨j, hj, u, hu, huline, -⟩ : ∃ j ∈ L, tokens.ReportedAt e j := by
        obtain ⟨k, hk, rfl⟩ := List.mem_iff_getElem.mp he
        exact ⟨_, List.getElem_mem (hds.length_eq ▸ hk), hds.get hk (hds.length_eq ▸ hk)⟩
      obtain ⟨t, ht, htline, -⟩ := hd
      rw [htline, huline]
      rcases Nat.eq_or_lt_of_le (hfirst j hj) with rfl | hlt
      · rw [ht] at hu
        exact Nat.le_of_eq (congrArg Token.line (Option.some.inj hu))
      · obtain ⟨hi, rfl⟩ := List.getElem?_eq_some_iff.mp ht
        obtain ⟨hj', rfl⟩ := List.getElem?_eq_some_iff.mp hu
        exact List.pairwise_iff_getElem.mp htokens _ _ hi hj' hlt

end LoxBytecode
