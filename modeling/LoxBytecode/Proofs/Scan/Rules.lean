import Mathlib
import LoxBytecode.Proofs.Code.Lookahead
import LoxBytecode.Proofs.Compile.Only
import LoxBytecode.Proofs.Syntax.Grammar
import LoxBytecode.Proofs.Walk.Rules

/-!
# Compilations that Scan

`Scans A m L` says how the compilation `m` goes through its tokens from a stage on. Where it ends
well, the tokens that it passes are a word of the language `L`, which may depend on the token
behind them. Where it stops at a problem with the order of the tokens, those before are the
beginning of such a word, and the same happens whatever follows the token at which it stops
(`Stops`). There always is a word, so that what was begun can be completed.

The rules below put such compilations together. `Parses m L` is for those that scan the same
language wherever they begin; most of the grammar is of that kind, and its rules are scanned
symbol by symbol.
-/

namespace LoxBytecode

variable {α β : Type} {A : Stage}

/-! ### Steps without tokens -/

/-- The action neither moves on nor reports a problem with the order of the tokens. -/
def Action.Quiet : Action β → Prop
  | .advance => False
  | .fail p | .failHere p => ¬ p.IsSyntactic
  | _ => True

/-- A quiet action is not the one that moves on. -/
theorem Action.Quiet.not_moves {a : Action β} (h : a.Quiet) : ¬ a.Moves := by
  cases a with
  | advance => exact h.elim
  | _ => exact id

/-- A load that is refused is no syntactic problem. -/
theorem Stage.not_syntactic_of_load {c : Constant} {p : Problem} {ts : List Token}
    (h : A.load c = .error (.problem p ts)) : ¬ p.IsSyntactic := by
  rw [load] at h
  split at h <;> cases h
  exact id

/-- A constant that is refused is no syntactic problem. -/
theorem Stage.not_syntactic_of_short {c : Constant} {p : Problem} {ts : List Token}
    (h : A.short c = .error (.problem p ts)) : ¬ p.IsSyntactic := by
  rw [short] at h
  split at h <;> cases h
  exact id

/-- A chain whose rest cannot stop has stopped at once. -/
theorem eq_error_of_bind_pure {γ : Type} {x : Except Stop γ} {f : γ → α} {stop : Stop}
    (h : (x >>= fun c => pure (f c)) = .error stop) : x = .error stop := by
  cases x with
  | error stop' => exact congrArg Except.error (Except.error.inj h)
  | ok c => cases h

/-- A quiet action meets no syntactic problem. -/
theorem Action.Quiet.not_syntactic {a : Action β} (ha : a.Quiet) {p : Problem} {ts : List Token}
    (h : a.applyAt A = .error (.problem p ts)) : ¬ p.IsSyntactic := by
  cases a with
  | advance => exact ha.elim
  | fail | failHere =>
      cases h
      exact ha
  | resume | emit | beginScope | markInitialized | findUpvalue | beginFunction | nameFunction
  | countParameter => cases h
  | patchJump offset =>
      have hpatch := eq_error_of_bind_pure h
      rw [Stage.patchJump] at hpatch
      split at hpatch
      · cases hpatch
      · dsimp only at hpatch
        split at hpatch <;> cases hpatch
        exact id
  | loadNumber =>
      rw [applyAt] at h
      split at h
      · exact Stage.not_syntactic_of_load (eq_error_of_bind_pure h)
      · cases h
        exact id
  | loadString =>
      rw [applyAt] at h
      split at h
      · exact Stage.not_syntactic_of_load (eq_error_of_bind_pure h)
      · cases h
  | nameConstant => exact Stage.not_syntactic_of_short h
  | endScope =>
      rw [applyAt, Stage.endScope] at h
      split at h <;> cases h
  | declare =>
      have hdeclare := eq_error_of_bind_pure h
      rw [Stage.declare] at hdeclare
      split at hdeclare
      · cases hdeclare
        exact id
      · split at hdeclare <;> cases hdeclare
        exact id
  | endFunction =>
      rw [applyAt, Stage.endFunction] at h
      split at h
      · exact Stage.not_syntactic_of_short (eq_error_of_bind_pure h)
      · cases h

namespace CompileM

/-- No action of the compilation moves on or reports a problem with the order of the tokens. -/
abbrev Quiet (m : CompileM α) : Prop :=
  m.Only (fun _ => True) Action.Quiet

/-- A quiet compilation moves no token. -/
theorem Quiet.tokens {m : CompileM α} (hm : m.Quiet) {a : α} {B : Stage}
    (h : m.follow A = .ok (a, B)) : B.tokens = A.tokens := by
  induction m generalizing A B with
  | done result =>
      cases result <;> cases h
      rfl
  | ask q =>
      cases h
      rfl
  | act action => exact Action.tokens_of_ok (Action.Quiet.not_moves hm) h
  | chain first next ihFirst ihNext =>
      rw [follow] at h
      split at h
      next b C hfirst => exact (ihNext b (hm.2 b) h).trans (ihFirst hm.1 hfirst)
      next => cases h
  | part phrase body ih => exact ih hm h

/-- A quiet compilation meets no syntactic problem. -/
theorem Quiet.not_syntactic {m : CompileM α} (hm : m.Quiet) {p : Problem} {ts : List Token}
    (h : m.follow A = .error (.problem p ts)) : ¬ p.IsSyntactic := by
  induction m generalizing A with
  | done result => cases result <;> cases h
  | ask q => cases h
  | act action => exact Action.Quiet.not_syntactic hm h
  | chain first next ihFirst ihNext =>
      rw [follow] at h
      split at h
      next b C hfirst => exact ihNext b (hm.2 b) h
      next stop hstop =>
        cases h
        exact ihFirst hm.1 hstop
  | part phrase body ih => exact ih hm h

/-! ### Scanning -/

/-- Where the compilation stops at a problem with the order of the tokens, a word of the language
has begun, and whatever follows the token there it stops at the same problem. -/
def Stops (A : Stage) (m : CompileM α) (L : TokenKind → Language TokenKind) : Prop :=
  ∀ ⦃p : Problem⦄ ⦃ts : List Token⦄, m.follow A = .error (.problem p ts) → p.IsSyntactic →
    ∃ us t vs, ts = t :: vs ∧ A.tokens = us ++ t :: vs ∧
      (∃ k ls, us.map Token.kind ++ ls ∈ L k) ∧
      ∀ ws, (ws = [] → t.kind = .eof) →
        m.follow (A.withTokens (us ++ t :: ws)) = .error (.problem p (t :: ws))

/-- How a compilation goes through its tokens. -/
structure Scans (A : Stage) (m : CompileM α) (L : TokenKind → Language TokenKind) : Prop where
  inhabited : ∃ k us, us ∈ L k
  ends : ∀ {a : α} {B : Stage}, m.follow A = .ok (a, B) → B.tokens ≠ [] ∧
    ∃ us, A.tokens = us ++ B.tokens ∧ us.map Token.kind ∈ L (kindOf B.tokens)
  stops : Stops A m L

variable {m m' : CompileM α} {L L' : TokenKind → Language TokenKind} {k : TokenKind}

/-- Stopping in one language is stopping in every larger one. -/
theorem Stops.mono (h : Stops A m L) (hL : ∀ k us, us ∈ L k → us ∈ L' k) : Stops A m L' := by
  intro p ts hfollow hp
  obtain ⟨us, t, vs, hts, htokens, ⟨k, ls, hls⟩, hlocal⟩ := h hfollow hp
  exact ⟨us, t, vs, hts, htokens, ⟨k, ls, hL _ _ hls⟩, hlocal⟩

/-- Scanning one language is scanning every larger one. -/
theorem Scans.mono (h : Scans A m L) (hL : ∀ k us, us ∈ L k → us ∈ L' k) : Scans A m L' where
  inhabited := by
    obtain ⟨k, us, hus⟩ := h.inhabited
    exact ⟨k, us, hL k us hus⟩
  ends hfollow := by
    obtain ⟨hB, us, htokens, hus⟩ := h.ends hfollow
    exact ⟨hB, us, htokens, hL _ _ hus⟩
  stops := h.stops.mono hL

/-- What goes the same way, whatever is behind the next token, stops the same. -/
theorem Stops.congr (h : Stops A m L) (hm : ∀ ts, ts.head? = A.tokens.head? →
    m'.follow (A.withTokens ts) = m.follow (A.withTokens ts)) : Stops A m' L := by
  have hA : m'.follow A = m.follow A := hm A.tokens rfl
  intro p ts hfollow hp
  obtain ⟨us, t, vs, hts, htokens, hls, hlocal⟩ := h (hA ▸ hfollow) hp
  refine ⟨us, t, vs, hts, htokens, hls, fun ws hws => ?_⟩
  rw [hm, hlocal ws hws]
  rw [htokens]
  cases us <;> rfl

/-- Compilations that do the same on every continuation scan the same language. -/
theorem Scans.congr (h : Scans A m L) (hm : ∀ ts, ts.head? = A.tokens.head? →
    m'.follow (A.withTokens ts) = m.follow (A.withTokens ts)) : Scans A m' L where
  inhabited := h.inhabited
  ends hfollow := by
    have hA : m'.follow A = m.follow A := hm A.tokens rfl
    exact h.ends (hA ▸ hfollow)
  stops := h.stops.congr hm

/-- A compilation that passes nothing and reports no problem with the order of the tokens. -/
theorem scans_still {L : TokenKind → Language TokenKind} (hL : [] ∈ L (kindOf A.tokens))
    (hA : A.tokens ≠ [])
    (htokens : ∀ {a B}, m.follow A = .ok (a, B) → B.tokens = A.tokens)
    (hstop : ∀ {p ts}, m.follow A = .error (.problem p ts) → ¬ p.IsSyntactic) : Scans A m L where
  inhabited := ⟨_, [], hL⟩
  ends hfollow := ⟨htokens hfollow ▸ hA, [], (htokens hfollow).symm, htokens hfollow ▸ hL⟩
  stops _ _ hfollow hp := absurd hp (hstop hfollow)

/-- A compilation that stops at its first token, whatever follows it. -/
theorem scans_stop {p : Problem} {t : Token} {ts : List Token} (hA : A.tokens = t :: ts)
    (hL : ∃ k us, us ∈ L k)
    (hself : m.follow A = .error .unknown ∨ m.follow A = .error (.problem p (t :: ts)))
    (hstops : ∀ ws, (ws = [] → t.kind = .eof) →
      m.follow (A.withTokens (t :: ws)) = .error (.problem p (t :: ws))) : Scans A m L where
  inhabited := hL
  ends hfollow := by
    rcases hself with hself | hself <;>
    · rw [hself] at hfollow
      cases hfollow
  stops p' ts' hfollow _ := by
    rcases hself with hself | hself <;> rw [hself] at hfollow <;> cases hfollow
    exact ⟨[], t, ts, rfl, hA, hL, hstops⟩

/-- One compilation behind another, which is to scan what is left of the words. -/
theorem Stops.bind {first : CompileM β} {next : β → CompileM α}
    {L₁ : TokenKind → Language TokenKind} (hfirst : Scans A first L₁)
    (hcomplete : ∀ k us, us ∈ L₁ k → ∃ k' vs, us ++ vs ∈ L k')
    (hnext : ∀ b B us, B.tokens ≠ [] → us ∈ L₁ (kindOf B.tokens) →
      Stops B (next b) fun k => (L k).leftQuotient us) : Stops A (first >>= next) L := by
  intro p ts hfollow hp
  rw [follow_bind] at hfollow
  cases hresult : first.follow A with
  | error stop =>
      rw [hresult] at hfollow
      obtain rfl : stop = .problem p ts := Except.error.inj hfollow
      obtain ⟨us, t, vs, hts, htokens, ⟨k, ls, hls⟩, hlocal⟩ := hfirst.stops hresult hp
      obtain ⟨k', ls', hls'⟩ := hcomplete k _ hls
      refine ⟨us, t, vs, hts, htokens, ⟨k', ls ++ ls', ?_⟩, fun ws hws => ?_⟩
      · rwa [← List.append_assoc]
      · rw [follow_bind, hlocal ws hws]
        rfl
  | ok result =>
      obtain ⟨b, B⟩ := result
      rw [hresult] at hfollow
      obtain ⟨hB, us, htokens, hus⟩ := hfirst.ends hresult
      obtain ⟨us', t, vs, hts, htokens', ⟨k, ls, hls⟩, hlocal⟩ := hnext b B _ hB hus hfollow hp
      obtain ⟨us'', hlooked, hlooks⟩ := looks_follow hresult
      obtain rfl : us'' = us := List.append_cancel_right (hlooked.symm.trans htokens)
      refine ⟨us'' ++ us', t, vs, hts, by rw [htokens, htokens', List.append_assoc],
        ⟨k, ls, ?_⟩, fun ws hws => ?_⟩
      · rw [List.map_append, List.append_assoc]
        exact hls
      · have hhead : (us' ++ t :: ws).head? = B.tokens.head? := by
          rw [htokens']
          cases us' <;> rfl
        rw [List.append_assoc, follow_bind, hlooks _ hhead]
        exact hlocal ws hws

/-- What comes behind a first part scans the quotient by what that part took. -/
theorem Scans.bind [Nonempty β] {first : CompileM β} {next : β → CompileM α}
    {L₁ : TokenKind → Language TokenKind} (hfirst : Scans A first L₁)
    (hnext : ∀ b B us, B.tokens ≠ [] → us ∈ L₁ (kindOf B.tokens) →
      Scans B (next b) fun k => (L k).leftQuotient us) : Scans A (first >>= next) L := by
  have hcomplete (k : TokenKind) (us : List TokenKind) (hus : us ∈ L₁ k) :
      ∃ k' vs, us ++ vs ∈ L k' := by
    obtain ⟨b⟩ := ‹Nonempty β›
    exact (hnext b (A.withTokens [⟨k, "", 0⟩]) us (List.cons_ne_nil _ _) hus).inhabited
  refine ⟨?_, fun {a C} hfollow => ?_,
    .bind hfirst hcomplete fun b B us hB hus => (hnext b B us hB hus).stops⟩
  · obtain ⟨k, us, hus⟩ := hfirst.inhabited
    obtain ⟨k', vs, hvs⟩ := hcomplete k us hus
    exact ⟨k', us ++ vs, hvs⟩
  · rw [follow_bind] at hfollow
    cases hresult : first.follow A with
    | error stop =>
        rw [hresult] at hfollow
        cases hfollow
    | ok result =>
        obtain ⟨b, B⟩ := result
        rw [hresult] at hfollow
        obtain ⟨hB, us, htokens, hus⟩ := hfirst.ends hresult
        obtain ⟨hC, vs, htokens', hvs⟩ := (hnext b B _ hB hus).ends hfollow
        refine ⟨hC, us ++ vs, by rw [htokens, htokens', List.append_assoc], ?_⟩
        rw [List.map_append]
        exact hvs

/-! ### Queries and quiet steps -/

/-- A query may be replaced by its answer. -/
theorem Scans.ask {q : Query β} {next : β → CompileM α}
    (h : Scans A (next (q.answerAt A)) L) : Scans A (.ask q >>= next) L :=
  h.congr fun ts hts => by
    rw [follow_bind, follow, q.answerAt_withTokens hts]
    rfl

/-- A test of the current token may be replaced by its answer. -/
theorem Scans.nextIs {next : Bool → CompileM α}
    (h : Scans A (next (kindOf A.tokens == k)) L) : Scans A (CompileM.nextIs k >>= next) L :=
  h.congr fun ts hts => by
    show (next (kindOf ts == k)).follow _ = _
    rw [kindOf_of_head? hts]

/-- A quiet compilation scans nothing. -/
theorem Scans.of_quiet (hm : m.Quiet) (hA : A.tokens ≠ []) (hL : [] ∈ L (kindOf A.tokens)) :
    Scans A m L :=
  scans_still hL hA hm.tokens hm.not_syntactic

/-- The beginning of a compilation that is quiet passes nothing. -/
theorem Scans.quiet [Nonempty β] {first : CompileM β} {next : β → CompileM α}
    (hfirst : first.Quiet) (hA : A.tokens ≠ [])
    (hnext : ∀ b B, B.tokens ≠ [] → kindOf B.tokens = kindOf A.tokens → Scans B (next b) L) :
    Scans A (first >>= next) L := by
  have hstart : Scans A first fun k => {us | us = [] ∧ k = kindOf A.tokens} :=
    .of_quiet hfirst hA ⟨rfl, rfl⟩
  refine hstart.bind fun b B us hB hus => ?_
  obtain ⟨rfl, hkind⟩ := hus
  exact hnext b B hB hkind

/-- A compilation that goes wrong scans any language with a word in it. -/
theorem Scans.fault {f : Fault} (hL : ∃ k us, us ∈ L k) :
    Scans A (CompileM.fault f : CompileM α) L :=
  { inhabited := hL
    ends := nofun
    stops := nofun }

/-! ### Tokens -/

/-- Moving on, unless the source ends here. -/
theorem Scans.advance {t : Token} {ts : List Token} {next : Unit → CompileM α}
    (hA : A.tokens = t :: ts) (ht : t.kind ≠ .eof)
    (hnext : ∀ B, B.tokens ≠ [] → B.previous = t →
      Scans B (next ()) fun k => (L k).leftQuotient [t.kind]) :
    Scans A (CompileM.advance >>= next) L := by
  have hinhabited : ∃ k us, us ∈ L k := by
    obtain ⟨k, us, hus⟩ := (hnext ⟨[t], t, [], [], A.nest⟩ (List.cons_ne_nil _ _) rfl).inhabited
    exact ⟨k, _, hus⟩
  have hfollow (u : Token) (us : List Token) :
      (CompileM.advance >>= next).follow (A.withTokens (t :: u :: us)) =
        (next ()).follow { A with previous := t, tokens := u :: us } := rfl
  cases ts with
  | nil =>
      have hunknown : (CompileM.advance >>= next).follow A = .error .unknown := by
        rw [follow_bind, CompileM.advance, follow_act, Action.applyAt, Stage.advance, hA]
        simp only [if_neg ht]
        rfl
      refine ⟨hinhabited, fun h => ?_, fun _ _ h => ?_⟩ <;>
      · rw [hunknown] at h
        cases h
  | cons u us =>
      have hfollowA := hfollow u us
      rw [Stage.withTokens_of_eq hA] at hfollowA
      have hscans := hnext { A with previous := t, tokens := u :: us } (List.cons_ne_nil _ _) rfl
      refine ⟨hinhabited, fun h => ?_, fun _ _ h hp => ?_⟩
      · obtain ⟨hB, ws, htokens, hws⟩ := hscans.ends (hfollowA ▸ h)
        exact ⟨hB, t :: ws, by rw [hA, List.cons_append, ← htokens], hws⟩
      · obtain ⟨ws, t', vs, hts, htokens, ⟨k, ls, hls⟩, hlocal⟩ :=
          hscans.stops (hfollowA ▸ h) hp
        refine ⟨t :: ws, t', vs, hts, by rw [hA, List.cons_append, ← htokens], ⟨k, ls, hls⟩,
          fun ws' hws' => ?_⟩
        have hstop := hlocal ws' hws'
        cases hrest : ws ++ t' :: ws' with
        | nil => simp at hrest
        | cons u' us' =>
            rw [hrest] at hstop
            rw [List.cons_append, hrest, hfollow]
            exact hstop

/-- Moving on to report the token just passed. -/
theorem scans_advance_fail {t : Token} {ts : List Token} {next : Unit → CompileM α}
    {p : Problem} (hA : A.tokens = t :: ts) (hL : ∃ k us, us ∈ L k)
    (hnext : ∀ B, B.previous = t → (next ()).follow B = B.fail p) :
    Scans A (CompileM.advance >>= next) L := by
  have hfollow (ws : List Token) (hws : ws = [] → t.kind = .eof) :
      (CompileM.advance >>= next).follow (A.withTokens (t :: ws)) =
        .error (.problem p (t :: ws)) := by
    cases ws with
    | nil =>
        rw [follow_bind, CompileM.advance, follow_act, Action.applyAt, Stage.advance]
        simp only [Stage.tokens_withTokens, if_pos (hws rfl)]
        exact hnext _ rfl
    | cons u us => exact hnext { A with previous := t, tokens := u :: us } rfl
  refine scans_stop hA hL ?_ hfollow
  by_cases hknown : ts = [] → t.kind = .eof
  · exact .inr (Stage.withTokens_of_eq hA ▸ hfollow ts hknown)
  · obtain ⟨rfl, ht⟩ := Classical.not_imp.mp hknown
    refine .inl ?_
    rw [follow_bind, CompileM.advance, follow_act, Action.applyAt, Stage.advance, hA]
    simp only [if_neg ht]
    rfl

/-- A token that is there is accepted. -/
theorem follow_accept (h : kindOf A.tokens = k) :
    (accept k).follow A = CompileM.advance.follow A >>= fun (_, B) => .ok (true, B) := by
  rw [accept, follow_bind, follow_nextIs]
  refine (follow_ite ..).trans ((if_pos (beq_iff_eq.mpr h)).trans ?_)
  rw [follow_bind]
  rfl

/-- Passing a token that may be there comes to one of two compilations. -/
theorem Scans.acceptIf_of {allowed : Bool} {yes no : CompileM α}
    (hyes : allowed = true → kindOf A.tokens = k → Scans A (CompileM.advance >>= fun _ => yes) L)
    (hno : ¬ (allowed = true ∧ kindOf A.tokens = k) → Scans A no L) :
    Scans A (CompileM.acceptIf allowed k >>= fun b => if b = true then yes else no) L := by
  cases allowed with
  | false => exact (hno (by simp)).congr fun ts _ => rfl
  | true =>
      by_cases hkind : kindOf A.tokens = k
      · refine (hyes rfl hkind).congr fun ts hts => ?_
        rw [CompileM.acceptIf, if_pos rfl, follow_bind, follow_bind,
          follow_accept ((kindOf_of_head? hts).trans hkind)]
        cases CompileM.advance.follow (A.withTokens ts) <;> rfl
      · refine (hno fun h => hkind h.2).congr fun ts hts => ?_
        rw [CompileM.acceptIf, if_pos rfl, follow_bind_of_ok
          (follow_accept_false ((kindOf_of_head? hts).trans_ne hkind))]
        rfl

/-- A branch on a token scans what either side does, behind that token or without it. -/
theorem Scans.acceptIf {allowed : Bool} {yes no : CompileM α} (hA : A.tokens ≠ [])
    (hk : k ≠ .eof)
    (hyes : allowed = true → ∀ B, B.tokens ≠ [] → B.previous.kind = k →
      Scans B yes fun k' => (L k').leftQuotient [k])
    (hno : ¬ (allowed = true ∧ kindOf A.tokens = k) → Scans A no L) :
    Scans A (CompileM.acceptIf allowed k >>= fun b => if b = true then yes else no) L := by
  refine .acceptIf_of (fun hallowed hkind => ?_) hno
  obtain ⟨t, ts, htokens⟩ := List.exists_cons_of_ne_nil hA
  obtain rfl : t.kind = k := by rwa [htokens] at hkind
  refine .advance htokens hk fun B hB hprevious => ?_
  exact hyes hallowed B hB (congrArg Token.kind hprevious)

/-- A token that must not be there is reported. -/
theorem Scans.acceptIf_fail {allowed : Bool} {p : Problem} (hA : A.tokens ≠ [])
    (hL : [] ∈ L (kindOf A.tokens)) : Scans A (CompileM.acceptIf allowed k >>= fun b =>
      if b = true then CompileM.fail p else pure ()) L := by
  refine .acceptIf_of (fun _ _ => ?_) fun _ => .of_quiet trivial hA hL
  obtain ⟨t, ts, htokens⟩ := List.exists_cons_of_ne_nil hA
  exact scans_advance_fail htokens ⟨_, [], hL⟩ fun B _ => rfl

/-- A token that is expected and not there is a problem at the current one. -/
theorem follow_expect_of_ne {what : String} (h : kindOf A.tokens ≠ k) :
    (expect k what).follow A = A.failHere (.expected what) := by
  rw [expect, follow_bind, follow_nextIs]
  exact (follow_ite ..).trans (if_neg fun heq => h (beq_iff_eq.mp heq))

/-- An expected token is the first of every word that is scanned. -/
theorem Scans.expect {what : String} {next : Unit → CompileM α} (hA : A.tokens ≠ [])
    (hk : k ≠ .eof) (hnext : ∀ B, B.tokens ≠ [] → B.previous.kind = k →
      Scans B (next ()) fun k' => (L k').leftQuotient [k]) :
    Scans A (CompileM.expect k what >>= next) L := by
  obtain ⟨t, ts, htokens⟩ := List.exists_cons_of_ne_nil hA
  by_cases ht : t.kind = k
  · have hmoves : Scans A (CompileM.advance >>= next) L :=
      .advance htokens (ht ▸ hk) fun B hB hprevious => by
        rw [ht]
        exact hnext B hB (hprevious ▸ ht)
    refine hmoves.congr fun ts' hts' => ?_
    have hanswer : kindOf ts' = k := by
      rw [kindOf_of_head? hts', htokens]
      exact ht
    rw [CompileM.expect, follow_bind, follow_bind, follow_bind, follow_nextIs]
    exact congrArg (· >>= _) ((follow_ite ..).trans (if_pos (beq_iff_eq.mpr hanswer)))
  · have hfail (ws : List Token) : (CompileM.expect k what >>= next).follow
        (A.withTokens (t :: ws)) = .error (.problem (.expected what) (t :: ws)) := by
      rw [follow_bind, follow_expect_of_ne (A := A.withTokens (t :: ws)) ht]
      rfl
    obtain ⟨k', us, hus⟩ := (hnext ⟨[t], ⟨k, "", 0⟩, [], [], A.nest⟩ (List.cons_ne_nil _ _)
      rfl).inhabited
    exact scans_stop htokens ⟨k', k :: us, hus⟩
      (.inr (Stage.withTokens_of_eq htokens ▸ hfail ts)) fun ws _ => hfail ws

/-! ### Parsing -/

/-- The words that some symbols of the grammar stand for. -/
def words (σ : List GrammarSymbol) : Language TokenKind :=
  {us | Derives σ us}

/-- No symbols derive the empty word. -/
theorem words_nil : words [] = 1 := by
  ext us
  refine ⟨fun h => ?_, fun h => ?_⟩
  · cases h
    exact Language.nil_mem_one
  · rw [Language.mem_one] at h
    exact h ▸ .nil

/-- Symbols in a row derive one word behind the other. -/
theorem words_mul (σ τ : List GrammarSymbol) : words σ * words τ = words (σ ++ τ) := by
  ext us
  refine ⟨?_, fun h => ?_⟩
  · rintro ⟨vs, hvs, ws, hws, rfl⟩
    exact hvs.append hws
  · obtain ⟨vs, ws, rfl, hvs, hws⟩ := h.exists_of_append
    exact Language.append_mem_mul hvs hws

/-- A rule derives no more than its phrase. -/
theorem words_le {n : Nonterminal} {σ : List GrammarSymbol} (h : σ ∈ n.rules) :
    words σ ≤ words [.phrase n] :=
  fun _ hus => .rule h hus

/-- A rule in front of further symbols derives no more than its phrase in front of them. -/
theorem words_append_le {n : Nonterminal} (σ τ : List GrammarSymbol) (h : σ ∈ n.rules) :
    words (σ ++ τ) ≤ words (.phrase n :: τ) := by
  intro us hus
  obtain ⟨vs, ws, rfl, hvs, hws⟩ := hus.exists_of_append
  exact .phrase h hvs hws

/-- The compilation scans the same language wherever it begins. -/
def Parses (m : CompileM α) (L : Language TokenKind) : Prop :=
  ∀ ⦃A : Stage⦄, A.tokens ≠ [] → Scans A m fun _ => L

variable {K : Language TokenKind} {σ : List GrammarSymbol} {n : Nonterminal}

/-- Parsing one language is parsing every larger one. -/
theorem Parses.mono {L : Language TokenKind} (h : Parses m K) (hle : K ≤ L) : Parses m L :=
  fun _ hA => (h hA).mono fun _ _ hus => hle hus

/-- Two parts in a row parse the product of their languages. -/
theorem Parses.bind [Nonempty β] {L : Language TokenKind} {first : CompileM β}
    {next : β → CompileM α} (hfirst : Parses first K) (hnext : ∀ b, Parses (next b) L) :
    Parses (first >>= next) (K * L) :=
  fun _ hA => (hfirst hA).bind fun b _ _ hB hus =>
    (hnext b hB).mono fun _ _ hvs => Language.append_mem_mul hus hvs

/-- What follows neither moves on nor looks at the tokens. -/
theorem Parses.bind_one [Nonempty β] {first : CompileM β} {next : β → CompileM α}
    (hfirst : Parses first K) (hnext : ∀ b, Parses (next b) 1) : Parses (first >>= next) K :=
  (hfirst.bind hnext).mono (mul_one K).le

/-- A quiet compilation parses the empty word. -/
theorem parses_quiet (hm : m.Quiet) : Parses m 1 :=
  fun _ hA => .of_quiet hm hA Language.nil_mem_one

/-- An answer parses the empty word. -/
theorem parses_pure (a : α) : Parses (pure a : CompileM α) 1 :=
  parses_quiet trivial

/-- A first part that takes no token may be left out. -/
theorem Parses.one_bind [Nonempty β] {L : Language TokenKind} {first : CompileM β}
    {next : β → CompileM α} (hfirst : Parses first 1) (hnext : ∀ b, Parses (next b) L) :
    Parses (first >>= next) L :=
  (hfirst.bind hnext).mono (one_mul L).le

/-- A quiet first part may be left out. -/
theorem Parses.quiet [Nonempty β] {L : Language TokenKind} {first : CompileM β}
    {next : β → CompileM α} (hfirst : first.Quiet) (hnext : ∀ b, Parses (next b) L) :
    Parses (first >>= next) L :=
  (parses_quiet hfirst).one_bind hnext

/-- A compilation that goes wrong parses any language with a word in it. -/
theorem parses_fault {f : Fault} {us : List TokenKind} (hus : us ∈ K) :
    Parses (CompileM.fault f : CompileM α) K :=
  fun _ _ => .fault ⟨.eof, us, hus⟩

/-- An expected token parses itself. -/
theorem parses_expect {what : String} (hk : k ≠ .eof) :
    Parses (CompileM.expect k what) (words [.token k]) := by
  intro A hA
  have hscans : Scans A (CompileM.expect k what >>= pure) fun _ => words [.token k] :=
    .expect hA hk fun B hB _ => .of_quiet trivial hB (.token .nil)
  refine hscans.congr fun ts _ => ?_
  rw [follow_bind]
  cases (CompileM.expect k what).follow (A.withTokens ts) <;> rfl

/-- An expected token parses the first symbol of a rule. -/
theorem Parses.token {what : String} {next : Unit → CompileM α} (hk : k ≠ .eof)
    (hnext : Parses (next ()) (words σ)) :
    Parses (CompileM.expect k what >>= next) (words (.token k :: σ)) :=
  ((parses_expect hk).bind fun _ => hnext).mono (words_mul [.token k] σ).le

/-- What parses a phrase parses the first symbol of a rule. -/
theorem Parses.phrase [Nonempty β] {first : CompileM β} {next : β → CompileM α}
    (hfirst : Parses first (words [.phrase n])) (hnext : ∀ b, Parses (next b) (words σ)) :
    Parses (first >>= next) (words (.phrase n :: σ)) :=
  (hfirst.bind hnext).mono (words_mul [.phrase n] σ).le

/-- All symbols have been scanned. -/
theorem parses_last (hm : m.Quiet) : Parses m (words []) :=
  words_nil ▸ parses_quiet hm

/-- A query parses what is parsed behind every answer. -/
theorem Parses.ask {L : Language TokenKind} {q : Query β} {next : β → CompileM α}
    (h : ∀ b, Parses (next b) L) : Parses (.ask q >>= next) L :=
  fun _ hA => .ask (h _ hA)

/-- A branch on the current token parses what both sides do. -/
theorem Parses.nextIs {L : Language TokenKind} {next : Bool → CompileM α}
    (htrue : Parses (next true) L) (hfalse : Parses (next false) L) :
    Parses (CompileM.nextIs k >>= next) L :=
  fun A hA => .nextIs <| by
    cases kindOf A.tokens == k
    · exact hfalse hA
    · exact htrue hA

/-- A branch that takes a token parses what it does behind that token, and what it does
without. -/
theorem Parses.accept {L : Language TokenKind} {yes no : CompileM α} (hk : k ≠ .eof)
    (hyes : Parses yes K) (hL : words [.token k] * K ≤ L) (hno : Parses no L) :
    Parses (CompileM.accept k >>= fun b => if b = true then yes else no) L := by
  intro A hA
  have hscans : Scans A (CompileM.acceptIf true k >>= fun b => if b = true then yes else no)
      fun _ => L :=
    .acceptIf hA hk (fun _ _ hB _ => (hyes hB).mono fun _ _ hus =>
      hL (Language.append_mem_mul (show [k] ∈ words [.token k] from .token .nil) hus))
      fun _ => hno hA
  exact hscans

/-- Marking a phrase changes nothing. -/
theorem Parses.part {L : Language TokenKind} {phrase : Phrase} (h : Parses m L) :
    Parses (CompileM.part phrase m) L :=
  fun _ hA => (h hA).congr fun _ _ => rfl

end CompileM

end LoxBytecode
