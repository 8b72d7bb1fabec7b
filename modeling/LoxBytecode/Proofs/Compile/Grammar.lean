import LoxBytecode.Proofs.Compile.Limits
import LoxBytecode.Proofs.Compile.Source
import LoxBytecode.Proofs.Scan.Statement
import LoxBytecode.Proofs.Session.Places

/-!
# Sources and the Grammar

The compiler and the grammar agree. A source that is compiled into a script has no pieces that are
no tokens, and the grammar derives its tokens. Where the first diagnostic is about the order of
the tokens, it is at the first token with which no program begins (`compile_follows_grammar`).

That what was passed begins a program is what compiling scans, word by word. That nothing goes on
from there is the other way around: what the grammar derives is read as a program, and following
the compilation walks through what is read.
-/

namespace LoxBytecode

open Heap Session CompileM GrammarSymbol

variable {source : String} {h : Heap} {host : List Value} {tokens : TokenStream}

/-! ### Pieces that are no token -/

/-- A piece that is passed is reported, or something was reported before. -/
theorem Session.mem_upcoming_readFrom {s : Session} {ts : List Token}
    (hs : s.recovering = true → 0 < s.diagnostics.size) {t : Token} (ht : t ∈ ts)
    (herror : t.kind = .error) :
    t ∈ (s.readFrom ts).upcoming.ahead ∨ 0 < (s.readFrom ts).diagnostics.size := by
  cases ts with
  | nil => cases ht
  | cons tok ts =>
      rw [readFrom]
      split
      next =>
        have hreported : 0 < (s.report tok tok.lexeme).diagnostics.size := by
          cases hrecovering : s.recovering with
          | true => simpa [report, hrecovering] using hs hrecovering
          | false => simp [report, hrecovering]
        exact .inr (Nat.lt_of_lt_of_le hreported (heard_readFrom _ ts).size)
      next htok =>
        rcases List.mem_cons.mp ht with rfl | ht
        · exact absurd herror htok
        · exact .inl ht

/-- As long as nothing is reported, the pieces that are no token are still to come. -/
theorem mem_upcoming_of_run {m : CompileM Unit} {s : Session}
    (hrun : m.run (start tokens h host) = .ok ((), s)) (hquiet : s.diagnostics = #[])
    {t : Token} (ht : t ∈ tokens.ahead) (herror : t.kind = .error) : t ∈ s.upcoming.ahead := by
  have hkeeps := m.run_keeps (P := fun u => Heard (start tokens h host) u ∧
    (t ∈ u.upcoming.ahead ∨ 0 < u.diagnostics.size))
    (fun a u v b hu ha => ?_) ⟨.refl _, .inl ht⟩ hrun
  · rcases hkeeps.2 with hmem | hreported
    · exact hmem
    · rw [hquiet] at hreported
      cases hreported
  · refine ⟨hu.1.trans (a.heard ha), ?_⟩
    rcases hu.2 with hmem | hreported
    · by_cases hmoves : a.Moves
      · cases a with
        | advance =>
            cases ha
            refine mem_upcoming_readFrom (s := { u with previous := u.current }) ?_ hmem herror
            intro hrecovering
            rcases hu.1.recovering hrecovering with hstart | hlt
            · cases hstart
            · exact Nat.zero_lt_of_lt hlt
        | _ => exact hmoves.elim
      · exact .inl ((Action.sameTokens hmoves ha).upcoming ▸ hmem)
    · exact .inr (Nat.lt_of_lt_of_le hreported (a.heard ha).size)

/-- A source that is compiled into a script has no pieces that are no token. -/
theorem clean_of_compile (hw : h.Wf) {c : Compilation} {script : FunctionHandle}
    (hc : compile source h host = .ok c) (hok : c.outcome = .ok script) :
    ∀ t ∈ (TokenStream.ofSource source).ahead, t.kind ≠ .error := by
  intro t ht herror
  obtain ⟨s, heap, hrun, -, -, houtcome⟩ := compile_eq_ok hc
  have hquiet : s.diagnostics = #[] := Array.isEmpty_iff.mp ((houtcome script).mp hok).1
  have hyields := yields_script hw (TokenStream.kind_of_mem_ofSource source) hrun hquiet
  obtain ⟨_, u, τ₁, τ₂, hloop, -, -⟩ := hyields.bind
  have hsettled : (start (TokenStream.ofSource source) h host).advance.scope.Settled := by
    rw [Session.scope, Session.functions_advance]
    exact settled_script
  have hend : u.remaining = [] := (Yields.loop hloop hsettled).1
  have heof : u.current.kind = .eof := by
    by_contra hne
    rw [Session.remaining_of_ne_eof hne] at hend
    cases hend
  have hran : (CompileM.advance >>= fun _ =>
      declarations (budget (TokenStream.ofSource source))).run
        (start (TokenStream.ofSource source) h host) = .ok ((), u) := hloop.ran
  have hmem := mem_upcoming_of_run hran hloop.after.quiet ht herror
  rw [hloop.after.orderly.onTrack.atEnd heof] at hmem
  cases hmem

/-! ### What is passed -/

/-- Declarations up to the end of the source are a program. -/
theorem words_program_le : words [phrase .declarations, token .eof] ≤ words [phrase .program] :=
  words_le (List.mem_cons_self ..)

/-- What a script passes up to the end of the source is a program. -/
theorem derives_of_follow_script {A B : Stage} {budget : Nat} (hA : A.tokens ≠ [])
    (h : (declarations budget >>= fun _ => emitReturn).follow A = .ok ((), B)) :
    ∃ us t, A.tokens = us ++ t :: B.tokens ∧ t.kind = .eof ∧
      Derives [phrase .program] (us.map Token.kind ++ [.eof]) := by
  rw [follow_bind] at h
  cases hloop : (declarations budget).follow A with
  | error stop =>
      rw [hloop] at h
      cases h
  | ok result =>
      obtain ⟨⟨⟩, C⟩ := result
      rw [hloop] at h
      obtain ⟨us, t, htokens, ht, hus⟩ := derives_of_follow_loop hA hloop
      have hsame : B.tokens = C.tokens := Quiet.tokens (by simp [Action.Quiet]) h
      exact ⟨us, t, hsame ▸ htokens, ht, words_program_le hus⟩

/-- Where a script stops at a problem with the order of its tokens, a program has begun. -/
theorem stops_script {A : Stage} {budget : Nat} (hA : A.tokens ≠ []) :
    Stops A (declarations budget >>= fun _ => emitReturn) fun _ => words [phrase .program] := by
  intro p ts h hp
  rw [follow_bind] at h
  cases hloop : (declarations budget).follow A with
  | ok result =>
      rw [hloop] at h
      exact absurd hp (Quiet.not_syntactic (by simp [Action.Quiet]) h)
  | error stop =>
      rw [hloop] at h
      obtain rfl : stop = .problem p ts := Except.error.inj h
      obtain ⟨us, t, vs, hts, htokens, hbegins, hlocal⟩ :=
        (stops_loop hA budget).mono (fun _ _ hus => words_program_le hus) hloop hp
      refine ⟨us, t, vs, hts, htokens, hbegins, fun ws hws => ?_⟩
      rw [follow_bind, show (declarations budget).follow _ = _ from hlocal ws hws]
      rfl

/-! ### What cannot follow -/

/-- There is a token of every kind that can be read as one of that kind. -/
theorem exists_legible (k : TokenKind) : ∃ t : Token, t.kind = k ∧ t.Legible := by
  by_cases hk : k = .string
  · subst hk
    exact ⟨⟨.string, "\"\"", 0⟩, rfl, fun _ => ⟨"", rfl⟩, by rintro ⟨⟩⟩
  · have hnumber : (Number.ofText? "0").isSome = true := by decide
    exact ⟨⟨k, "0", 0⟩, rfl, fun hstring => absurd hstring hk, fun _ =>
      Option.isSome_iff_exists.mp hnumber⟩

/-- There are tokens of all kinds. -/
theorem exists_tokens (ks : List TokenKind) :
    ∃ ts : List Token, ts.map Token.kind = ks ∧ ∀ t ∈ ts, t.Legible := by
  induction ks with
  | nil => exact ⟨[], rfl, List.forall_mem_nil _⟩
  | cons k ks ih =>
      obtain ⟨t, rfl, ht⟩ := exists_legible k
      obtain ⟨ts, rfl, hts⟩ := ih
      exact ⟨t :: ts, rfl, List.forall_mem_cons.mpr ⟨ht, hts⟩⟩

/-- Where a script stops at a problem with the order of its tokens, whatever follows, no program
begins. -/
theorem not_begins_of_follow {us : List Token} {t : Token} {p : Problem} {budget : Nat}
    (hlegible : ∀ u ∈ us ++ [t], u.Legible) (hp : p.IsSyntactic)
    (hstop : ∀ ws, (ws = [] → t.kind = .eof) →
      (declarations budget >>= fun _ => emitReturn).follow (.script (us ++ t :: ws)) =
        .error (.problem p (t :: ws))) : ¬ Begins ((us ++ [t]).map Token.kind) := by
  rintro ⟨ls, hls⟩
  obtain ⟨ws, rfl, hws⟩ := exists_tokens ls
  rw [← List.map_append] at hls
  obtain ⟨us', e, program, htokens, he, hreads⟩ :=
    exists_readsStmt_of_derives hls (List.forall_mem_append.mpr ⟨hlegible, hws⟩)
  have hfollow := hstop ws fun hnil => by
    rw [hnil, List.append_nil] at htokens
    obtain ⟨-, hlast⟩ := List.append_inj' htokens rfl
    rwa [List.singleton_inj.mp hlast]
  rw [show us ++ t :: ws = us' ++ [e] by rw [← htokens, List.append_assoc]; rfl] at hfollow
  obtain ⟨y, hwalks⟩ := walks_script he hreads budget
  cases hwalks with
  | met _ _ hok =>
      rw [Stage.script, hok] at hfollow
      cases hfollow
  | unmet _ _ hlimit hproblem =>
      rw [Stage.script, hproblem] at hfollow
      cases hfollow
      cases p <;> first | exact hlimit | exact hp
  | fault _ hfault =>
      rw [Stage.script, hfault] at hfollow
      cases hfollow

/-! ### Sources -/

/-- Only problems with the order of the tokens say what was expected, or that something cannot be
assigned to. -/
theorem Problem.isSyntactic_of_message {p : Problem} (h : "Expect ".toList <+: p.message.toList ∨
    p.message = "Invalid assignment target.") : p.IsSyntactic := by
  cases p with
  | expected | invalidAssignmentTarget => trivial
  | scope e => cases e <;> exact absurd h (by decide)
  | chunk e =>
      cases e
      exact absurd h (by decide)
  | _ => exact absurd h (by decide)

/-- The tokens of a source have their end of the source at the end, and nowhere else. -/
theorem ends_script (source : String) :
    (Stage.script (TokenStream.ofSource source).toList).Ends := by
  intro t ht
  have hlast : (TokenStream.ofSource source).toList.getLast? = some (Token.eof _) :=
    List.getLast?_concat
  obtain rfl : _ = t := Option.some.inj (hlast.symm.trans ht)
  rfl

/-- What is passed up to an end of the source is the whole source. -/
theorem TokenStream.eq_of_eof {us vs : List Token} {t : Token}
    (htokens : (ofSource source).toList = us ++ t :: vs) (ht : t.kind = .eof) :
    vs = [] := by
  rcases List.eq_nil_or_concat vs with rfl | ⟨vs, e, rfl⟩
  · rfl
  · rw [List.concat_eq_append, ← List.cons_append, ← List.append_assoc] at htokens
    obtain ⟨hahead, -⟩ := List.append_inj' htokens rfl
    have hmem : t ∈ (ofSource source).ahead := by
      rw [hahead]
      exact List.mem_append_right _ (List.mem_cons_self ..)
    exact absurd ht (kind_of_mem_ofSource source t hmem)

/-- What was answered is what following the source says. -/
theorem explains_of_compile (hw : h.Wf) {c : Compilation} (hc : compile source h host = .ok c)
    (hclean : ∀ t ∈ (TokenStream.ofSource source).ahead, t.kind ≠ .error) :
    Explains ((declarations (budget (TokenStream.ofSource source)) >>= fun _ =>
      emitReturn).follow (.script (TokenStream.ofSource source).toList)) c.outcome := by
  obtain ⟨c', hc', hexplains⟩ := exists_compile_follows hw host hclean
  obtain rfl : c' = c := Except.ok.inj (hc'.symm.trans hc)
  exact hexplains

/-- There is always a token left to start from. -/
theorem script_ne_nil (source : String) :
    (Stage.script (TokenStream.ofSource source).toList).tokens ≠ [] :=
  List.append_ne_nil_of_right_ne_nil _ (List.cons_ne_nil _ _)

/-- The grammar derives the tokens of a source that becomes a script. -/
theorem derives_of_compile (hw : h.Wf) {c : Compilation} {script : FunctionHandle}
    (hc : compile source h host = .ok c) (hok : c.outcome = .ok script) :
    Derives [.phrase .program] ((TokenStream.ofSource source).toList.map Token.kind) := by
  have hexplains := explains_of_compile hw hc (clean_of_compile hw hc hok)
  rw [hok] at hexplains
  cases hfollow : (declarations (budget (TokenStream.ofSource source)) >>= fun _ =>
      emitReturn).follow (.script (TokenStream.ofSource source).toList) with
  | error stop =>
      rw [hfollow] at hexplains
      cases hexplains
      exact absurd hfollow (follow_ne_unknown _ (ends_script source))
  | ok result =>
      obtain ⟨⟨⟩, B⟩ := result
      obtain ⟨us, t, htokens, ht, hderives⟩ :=
        derives_of_follow_script (script_ne_nil source) hfollow
      have hall : (TokenStream.ofSource source).toList = us ++ t :: B.tokens := htokens
      rw [hall, TokenStream.eq_of_eof hall ht, List.map_append, List.map_singleton, ht]
      exact hderives

/-- Of some tokens, so many as begin a program. -/
theorem begins_take_iff {us vs : List Token} {t : Token} (hus : Begins (us.map Token.kind))
    (ht : ¬ Begins ((us ++ [t]).map Token.kind)) (n : Nat) :
    Begins (((us ++ t :: vs).take n).map Token.kind) ↔ n ≤ us.length := by
  constructor
  · intro hbegins
    by_contra hlt
    have hlength : (us ++ [t]).length ≤ n := by
      rw [List.length_append, List.length_singleton]
      omega
    rw [List.append_cons, List.take_append, List.take_of_length_le hlength,
      List.map_append] at hbegins
    exact ht hbegins.of_append
  · intro hle
    rw [List.take_append_of_le_length hle]
    have hall : Begins ((us.take n).map Token.kind ++ (us.drop n).map Token.kind) := by
      rwa [← List.map_append, List.take_append_drop]
    exact hall.of_append

/-- A first diagnostic about the order of the tokens is at the token behind the longest beginning
of a program. -/
theorem exists_first_unexpected (hw : h.Wf) {c : Compilation} (hc : compile source h host = .ok c)
    (hclean : ∀ t ∈ (TokenStream.ofSource source).ahead, t.kind ≠ .error) {d : Diagnostic}
    {ds : List Diagnostic} (herror : c.outcome = .error (d :: ds))
    (hmessage : "Expect ".toList <+: d.message.toList ∨ d.message = "Invalid assignment target.") :
    ∃ i, (TokenStream.ofSource source).ReportedAt d i ∧
      ∀ n, Begins (((TokenStream.ofSource source).toList.take n).map Token.kind) ↔ n ≤ i := by
  have hexplains := explains_of_compile hw hc hclean
  rw [herror] at hexplains
  cases hfollow : (declarations (budget (TokenStream.ofSource source)) >>= fun _ =>
      emitReturn).follow (.script (TokenStream.ofSource source).toList) with
  | ok result =>
      rw [hfollow] at hexplains
      cases hexplains
  | error stop =>
      rw [hfollow] at hexplains
      cases hexplains with
      | unknown => exact absurd hfollow (follow_ne_unknown _ (ends_script source))
      | @problem p t ts =>
          have hp := Problem.isSyntactic_of_message hmessage
          obtain ⟨us, t', vs, hts, htokens, ⟨_, hbegins⟩, hlocal⟩ :=
            stops_script (script_ne_nil source) hfollow hp
          obtain ⟨rfl, rfl⟩ := List.cons.inj hts
          have hall : (TokenStream.ofSource source).toList = us ++ t :: ts := htokens
          have hlegible : ∀ u ∈ us ++ [t], u.Legible := by
            intro u hu
            refine TokenStream.legible_of_mem_toList source u ?_
            rw [hall, List.append_cons]
            exact List.mem_append_left _ hu
          have hat : (TokenStream.ofSource source).toList[us.length]? = some t := by
            rw [hall, List.getElem?_append_right (Nat.le_refl _), Nat.sub_self]
            rfl
          refine ⟨us.length, ⟨t, hat, rfl, rfl⟩, ?_⟩
          rw [hall]
          exact begins_take_iff hbegins (not_begins_of_follow hlegible hp hlocal)

/-- Compiling a source always answers. The grammar derives the tokens of a source that becomes a
script, and all pieces of it are tokens. When all pieces of a source are tokens and the first
diagnostic is about their order, it is at the token behind the longest beginning of a program. -/
theorem compile_follows_grammar (source : String) (hw : h.Wf) (host : List Value) :
    ∃ c, compile source h host = .ok c ∧
      (∀ script, c.outcome = .ok script →
        (∀ t ∈ (TokenStream.ofSource source).toList, t.kind ≠ .error) ∧
          Derives [.phrase .program] ((TokenStream.ofSource source).toList.map Token.kind)) ∧
      ∀ d ds, (∀ t ∈ (TokenStream.ofSource source).toList, t.kind ≠ .error) →
        c.outcome = .error (d :: ds) →
        "Expect ".toList <+: d.message.toList ∨ d.message = "Invalid assignment target." →
        ∃ i, (TokenStream.ofSource source).ReportedAt d i ∧
          ∀ n, Begins (((TokenStream.ofSource source).toList.take n).map Token.kind) ↔ n ≤ i := by
  obtain ⟨c, hc⟩ := exists_compile source hw host
  refine ⟨c, hc, fun script hok => ⟨?_, derives_of_compile hw hc hok⟩, ?_⟩
  · refine List.forall_mem_append.mpr ⟨clean_of_compile hw hc hok, ?_⟩
    rw [List.forall_mem_singleton]
    rintro ⟨⟩
  · intro d ds hclean herror hmessage
    exact exists_first_unexpected hw hc (List.forall_mem_append.mp hclean).1 herror hmessage

/-- A sum cannot be assigned to: programs begin with all before the `=` and with nothing more. -/
theorem compile_follows_grammar_sum : ∃ c,
    compile "a + b = 1;" (ofConfig ⟨true, 0, 2⟩) [] = .ok c ∧
      c.outcome = .error [⟨1, .atToken "=", "Invalid assignment target."⟩] ∧
      ∃ i, (TokenStream.ofSource "a + b = 1;").ReportedAt
          ⟨1, .atToken "=", "Invalid assignment target."⟩ i ∧
        ∀ n, Begins (((TokenStream.ofSource "a + b = 1;").toList.take n).map Token.kind) ↔
          n ≤ i := by
  have hfails : (compile "a + b = 1;" (ofConfig ⟨true, 0, 2⟩) []).map Compilation.outcome =
      .ok (.error [⟨1, .atToken "=", "Invalid assignment target."⟩]) := by
    cbv
  have hkinds : (TokenStream.ofSource "a + b = 1;").toList.map Token.kind =
      [.identifier, .plus, .identifier, .equal, .number, .semicolon, .eof] := by
    cbv
  have hclean : ∀ t ∈ (TokenStream.ofSource "a + b = 1;").toList, t.kind ≠ .error := by
    intro t ht herror
    have hmem := List.mem_map.mpr ⟨t, ht, herror⟩
    rw [hkinds] at hmem
    exact absurd hmem (by decide)
  obtain ⟨c, hc, -, hfirst⟩ :=
    compile_follows_grammar "a + b = 1;" (Reachable.ofConfig ⟨true, 0, 2⟩).wf []
  rw [hc] at hfails
  have houtcome : c.outcome = .error _ := Except.ok.inj hfails
  exact ⟨c, hc, houtcome, hfirst _ _ hclean houtcome (.inr rfl)⟩

end LoxBytecode
