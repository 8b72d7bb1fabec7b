import LoxBytecode.Proofs.Code.Stage

/-!
# Compilations that Walk

`Walks m x w a y w'` says that following the compilation `m` does what a step of a walk does: it
comes from the site `x` to the site `y` with the answer `a`, as the walk comes from `w` to
`w'`, if everything that the walk demands on this way is met, and stops at a limit otherwise. The
rules below put such compilations together; nothing is said of one that runs out of its budget.
-/

namespace LoxBytecode

/-- Where a compilation stands, besides the functions on the way. -/
structure Site where
  tokens : List Token
  previous : Token
  code : List UInt8
  outer : List (List UInt8)

/-- The stage at a site, on a walk. -/
def Site.stage (x : Site) (w : Walk) : Stage :=
  ⟨x.tokens, x.previous, x.code, x.outer, w.toNest⟩

namespace CompileM

variable {α β : Type} {x y z : Site} {w w₁ w' : Walk} {a : α} {b : β}

/-- Following a compilation does what a step of a walk does. -/
inductive Walks (m : CompileM α) (x : Site) (w : Walk) (a : α) (y : Site) (w' : Walk) : Prop
  | met {ds : List Demand} : w'.demands = w.demands ++ ds → (∀ d ∈ ds, d.Met) →
      m.follow (x.stage w) = .ok (a, y.stage w') → Walks m x w a y w'
  | unmet {ds : List Demand} {p : Problem} {ts : List Token} : w'.demands = w.demands ++ ds →
      ¬ (∀ d ∈ ds, d.Met) → p.IsLimit →
      m.follow (x.stage w) = .error (.problem p ts) → Walks m x w a y w'
  | fault {ds : List Demand} : w'.demands = w.demands ++ ds →
      m.follow (x.stage w) = .error .fault → Walks m x w a y w'

/-! ### Putting compilations together -/

/-- Where the first part of a chain ends well, the second is followed. -/
theorem follow_bind_of_ok {first : CompileM β} {next : β → CompileM α} {A B : Stage}
    (h : first.follow A = .ok (b, B)) : (first >>= next).follow A = (next b).follow B := by
  rw [follow_bind, h]
  rfl

/-- A walk only adds demands. -/
theorem Walks.precedes {m : CompileM α} (h : m.Walks x w a y w') : w.Precedes w' := by
  cases h with
  | met hds | unmet hds | fault hds => exact ⟨_, hds⟩

/-- One walk after the other is a walk. -/
theorem Walks.bind {first : CompileM β} {next : β → CompileM α} (hfirst : first.Walks x w b y w₁)
    (hnext : (next b).Walks y w₁ a z w') : (first >>= next).Walks x w a z w' := by
  have hall {ds ds' : List Demand} (hds : w₁.demands = w.demands ++ ds)
      (hds' : w'.demands = w₁.demands ++ ds') : w'.demands = w.demands ++ (ds ++ ds') := by
    rw [hds', hds, List.append_assoc]
  have hstops {stop : Stop} (hfollow : first.follow (x.stage w) = .error stop) :
      (first >>= next).follow (x.stage w) = .error stop := by
    rw [follow_bind, hfollow]
    rfl
  obtain ⟨ds', hds'⟩ := hnext.precedes
  cases hfirst with
  | fault hds hfollow => exact .fault (hall hds hds') (hstops hfollow)
  | unmet hds hunmet hlimit hfollow =>
      refine .unmet (hall hds hds') (fun hmet => hunmet fun d hd => ?_) hlimit (hstops hfollow)
      exact hmet d (List.mem_append_left _ hd)
  | @met ds hds hmet hfollow =>
      have hfollow' : (first >>= next).follow (x.stage w) = (next b).follow (y.stage w₁) :=
        follow_bind_of_ok hfollow
      cases hnext with
      | fault hds' hstop => exact .fault (hall hds hds') (hfollow'.trans hstop)
      | unmet hds' hunmet hlimit hstop =>
          refine .unmet (hall hds hds') (fun hboth => hunmet fun d hd => ?_) hlimit
            (hfollow'.trans hstop)
          exact hboth d (List.mem_append_right _ hd)
      | met hds' hmet' hok =>
          refine .met (hall hds hds') (fun d hd => ?_) (hfollow'.trans hok)
          rcases List.mem_append.mp hd with hd | hd
          · exact hmet d hd
          · exact hmet' d hd

/-- A step that demands nothing. -/
theorem Walks.of_ok {m : CompileM α} (hdemands : w'.demands = w.demands)
    (h : m.follow (x.stage w) = .ok (a, y.stage w')) : m.Walks x w a y w' :=
  .met (hdemands.trans (List.append_nil _).symm) (by rintro d ⟨⟩) h

/-- A chain that begins with a step that demands nothing. -/
theorem Walks.step {first : CompileM β} {next : β → CompileM α}
    (hfirst : first.follow (x.stage w) = .ok (b, y.stage w))
    (hnext : (next b).Walks y w a z w') : (first >>= next).Walks x w a z w' :=
  (Walks.of_ok rfl hfirst).bind hnext

/-- A step that demands one thing. -/
theorem Walks.of_demand {m : CompileM α} {d : Demand} (p : Problem)
    (hdemands : w'.demands = w.demands ++ [d]) (hlimit : p.IsLimit)
    (hmet : d.Met → m.follow (x.stage w) = .ok (a, y.stage w'))
    (hunmet : ¬ d.Met → ∃ ts, m.follow (x.stage w) = .error (.problem p ts)) :
    m.Walks x w a y w' := by
  by_cases hd : d.Met
  · refine .met hdemands (fun d' hd' => ?_) (hmet hd)
    rwa [List.mem_singleton.mp hd']
  · obtain ⟨ts, hstop⟩ := hunmet hd
    exact .unmet hdemands (fun hall => hd (hall d (List.mem_singleton_self d))) hlimit hstop

/-- What is demanded is met already. -/
theorem Walks.of_ask {m : CompileM α} {d : Demand} (hd : d.Met)
    (h : m.Walks x (w.ask d) a y w') : m.Walks x w a y w' := by
  have hall {ds : List Demand} (hds : w'.demands = (w.ask d).demands ++ ds) :
      w'.demands = w.demands ++ d :: ds := by
    rw [hds, Walk.ask, List.append_assoc]
    rfl
  cases h with
  | met hds hmet hfollow => exact .met (hall hds) (List.forall_mem_cons.mpr ⟨hd, hmet⟩) hfollow
  | unmet hds hunmet hlimit hfollow =>
      exact .unmet (hall hds) (fun hmet => hunmet (List.forall_mem_cons.mp hmet).2) hlimit hfollow
  | fault hds hfollow => exact .fault (hall hds) hfollow

/-- Something is demanded before a compilation goes on. -/
theorem Walks.demandThen {stop : CompileM Unit} {m : CompileM α} {d : Demand} {p : Problem}
    {ts : List Token} {c : Prop} [Decidable c] (hc : c ↔ ¬ d.Met) (hlimit : p.IsLimit)
    (hstop : stop.follow (x.stage w) = .error (.problem p ts))
    (hprecedes : (w.ask d).Precedes w')
    (hm : d.Met → m.Walks x (w.ask d) a y w') :
    (if c then stop >>= fun _ => m else m).Walks x w a y w' := by
  by_cases hd : d.Met
  · rw [if_neg fun h => hc.mp h hd]
    exact (hm hd).of_ask hd
  · obtain ⟨ds, hds⟩ := hprecedes
    have hfollow : (stop >>= fun _ => m).follow (x.stage w) = .error (.problem p ts) := by
      rw [follow_bind, hstop]
      rfl
    rw [if_pos (hc.mpr hd)]
    refine .unmet (hds.trans (List.append_assoc ..)) (fun hall => ?_) hlimit hfollow
    exact hd (hall d (List.mem_append_left _ (List.mem_singleton_self d)))

/-- A step that is not carried out. -/
theorem Walks.of_fault {m : CompileM α} (hprecedes : w.Precedes w')
    (h : m.follow (x.stage w) = .error .fault) : m.Walks x w a y w' := by
  obtain ⟨ds, hds⟩ := hprecedes
  exact .fault hds h

/-- A value that may not be there. -/
theorem Walks.liftM {result : Checked β} {next : β → CompileM α}
    (hprecedes : w.Precedes w')
    (h : ∀ b, result = .ok b → (next b).Walks x w a y w') :
    ((liftM result : CompileM β) >>= next).Walks x w a y w' := by
  cases result with
  | ok b => exact .step rfl (h b rfl)
  | error fault => exact .of_fault hprecedes rfl

/-- A part is walked as its body. -/
theorem Walks.part {m : CompileM α} {phrase : Phrase} (h : m.Walks x w a y w') :
    (CompileM.part phrase m).Walks x w a y w' := by
  cases h with
  | met hds hmet hfollow => exact .met hds hmet hfollow
  | unmet hds hunmet hlimit hfollow => exact .unmet hds hunmet hlimit hfollow
  | fault hds hfollow => exact .fault hds hfollow

/-- An answer takes no step. -/
theorem walks_pure : (pure a : CompileM α).Walks x w a x w :=
  .of_ok rfl rfl

/-! ### Tokens -/

section

variable {t : Token} {ts : List Token} {prev : Token} {code c : List UInt8}
  {outer : List (List UInt8)} {k : TokenKind} {A : Stage}

/-- Whether the next token has a kind is read off the tokens. -/
theorem follow_nextIs (k : TokenKind) (A : Stage) :
    (nextIs k).follow A = .ok (kindOf A.tokens == k, A) := rfl

/-- Of a branch the side taken is followed. -/
theorem follow_ite {c : Prop} [Decidable c] (yes no : CompileM α) (A : Stage) :
    (if c then yes else no).follow A = if c then yes.follow A else no.follow A := by
  split <;> rfl

/-- Moving on passes the first token. -/
theorem follow_advance (hts : ts ≠ []) :
    advance.follow (Site.stage ⟨t :: ts, prev, code, outer⟩ w) =
      .ok ((), Site.stage ⟨ts, t, code, outer⟩ w) := by
  cases ts with
  | nil => exact absurd rfl hts
  | cons => rfl

/-- A token that is there is passed. -/
theorem follow_expect {what : String} (ht : t.kind = k) (hts : ts ≠ []) :
    (expect k what).follow (Site.stage ⟨t :: ts, prev, code, outer⟩ w) =
      .ok ((), Site.stage ⟨ts, t, code, outer⟩ w) := by
  rw [expect, follow_bind, follow_nextIs]
  refine (follow_ite ..).trans ((if_pos (beq_iff_eq.mpr ht)).trans ?_)
  exact follow_advance hts

/-- A token that may be there and is gets passed. -/
theorem follow_accept_true (ht : t.kind = k) (hts : ts ≠ []) :
    (accept k).follow (Site.stage ⟨t :: ts, prev, code, outer⟩ w) =
      .ok (true, Site.stage ⟨ts, t, code, outer⟩ w) := by
  rw [accept, follow_bind, follow_nextIs]
  refine (follow_ite ..).trans ((if_pos (beq_iff_eq.mpr ht)).trans ?_)
  rw [follow_bind, follow_advance hts]
  rfl

/-- One that is not there is not. -/
theorem follow_accept_false (h : kindOf A.tokens ≠ k) :
    (accept k).follow A = .ok (false, A) := by
  rw [accept, follow_bind, follow_nextIs]
  exact (follow_ite ..).trans (if_neg fun heq => h (beq_iff_eq.mp heq))

/-- A token that may not stand there is not passed. -/
theorem follow_acceptIf_false {allowed : Bool} (h : ¬ (allowed = true ∧ kindOf A.tokens = k)) :
    (acceptIf allowed k).follow A = .ok (false, A) := by
  cases allowed with
  | false => rfl
  | true => exact follow_accept_false fun heq => h ⟨rfl, heq⟩

/-! ### Code -/

/-- Code that is known by another term. -/
theorem Walks.of_code {m : CompileM α} (h : m.Walks x w a ⟨ts, prev, code, outer⟩ w')
    (hcode : code = c) : m.Walks x w a ⟨ts, prev, c, outer⟩ w' :=
  hcode ▸ h

/-- A walk may start from code that is the same. -/
theorem Walks.of_start {m : CompileM α} (h : m.Walks ⟨ts, prev, code, outer⟩ w a y w')
    (hcode : c = code) : m.Walks ⟨ts, prev, c, outer⟩ w a y w' :=
  hcode ▸ h

/-- An instruction adds its bytes and demands nothing. -/
theorem walks_emit (op : Opcode) (operands : List UInt8) :
    (emit op operands).Walks ⟨ts, prev, code, outer⟩ w ()
      ⟨ts, prev, code ++ op.toByte :: operands, outer⟩ w :=
  .of_ok rfl rfl

/-- Several instructions add their bytes and demand nothing. -/
theorem walks_emitAll (ops : List Opcode) :
    (emitAll ops).Walks ⟨ts, prev, code, outer⟩ w ()
      ⟨ts, prev, code ++ ops.map Opcode.toByte, outer⟩ w := by
  induction ops generalizing code with
  | nil => exact walks_pure.of_code (List.append_nil _).symm
  | cons op ops ih =>
      exact ((walks_emit op []).bind ih).of_code (List.append_assoc ..)

/-- A jump ahead is written with room for its distance. -/
theorem walks_emitJump (op : Opcode) :
    (emitJump op).Walks ⟨ts, prev, code, outer⟩ w (code.length + 1)
      ⟨ts, prev, code ++ jumpCode op Session.maxJump, outer⟩ w := by
  refine .of_ok rfl ?_
  rw [emitJump, follow_bind]
  have hsize : (code ++ jumpCode op Session.maxJump).length - 2 = code.length + 1 := by
    simp [jumpCode, Chunk.bytesOf16]
  exact congrArg (fun n => Except.ok (n, Site.stage ⟨_, _, _, _⟩ _)) hsize

/-- The room is filled in when the end of what is skipped is reached. -/
theorem walks_patchJump (op : Opcode) (n : Nat) (skipped : List UInt8) {offset : Nat}
    (hoffset : offset = c.length + 1) (hcode : code = c ++ jumpCode op n ++ skipped) :
    (patchJump offset).Walks ⟨ts, prev, code, outer⟩ w ()
      ⟨ts, prev, c ++ jumpCode op skipped.length ++ skipped, outer⟩
      (w.ask (.jump skipped.length)) := by
  subst hoffset hcode
  have hlength : (c ++ jumpCode op n ++ skipped).length = c.length + 3 + skipped.length := by
    simp [jumpCode, Chunk.bytesOf16]
    omega
  have hroom : ¬ (c ++ jumpCode op n ++ skipped).length < c.length + 1 + 2 := by omega
  have hdistance : (c ++ jumpCode op n ++ skipped).length - (c.length + 1 + 2) =
      skipped.length := by omega
  have hset : ((c ++ jumpCode op n ++ skipped).set (c.length + 1)
      (skipped.length >>> 8).toUInt8).set (c.length + 1 + 1) skipped.length.toUInt8 =
        c ++ jumpCode op skipped.length ++ skipped := by
    simp [jumpCode, Chunk.bytesOf16, Nat.add_assoc]
  refine .of_demand .jumpTooLong rfl trivial (fun hmet => ?_) fun hunmet => ⟨prev :: ts, ?_⟩
  · simp only [patchJump, follow_act, Action.applyAt, Stage.patchJump, Site.stage]
    rw [if_neg hroom, hdistance, if_pos (show skipped.length ≤ Session.maxJump from hmet), hset]
    rfl
  · simp only [patchJump, follow_act, Action.applyAt, Stage.patchJump, Site.stage]
    rw [if_neg hroom, hdistance, if_neg (show ¬ skipped.length ≤ Session.maxJump from hunmet)]
    rfl

/-- A jump back. -/
theorem walks_emitLoop {target : Nat} (htarget : target ≤ code.length) :
    (emitLoop target).Walks ⟨ts, prev, code, outer⟩ w ()
      ⟨ts, prev, code ++ jumpCode .loop (code.length + 3 - target), outer⟩
      (w.ask (.loop (code.length + 3 - target))) := by
  have hfollow (A : Stage) (hA : A.code = code) : (emitLoop target).follow A =
      if code.length + 3 - target ≤ Session.maxJump
      then (emit .loop (Chunk.bytesOf16 (code.length + 3 - target))).follow A
      else (fail .loopTooLong >>= fun _ =>
        emit .loop (Chunk.bytesOf16 Session.maxJump)).follow A := by
    subst hA
    rw [emitLoop, follow_bind]
    refine (follow_ite ..).trans ((if_neg (Nat.not_lt.mpr htarget)).trans ?_)
    exact follow_ite ..
  refine .of_demand .loopTooLong rfl trivial (fun hmet => ?_) fun hunmet => ⟨prev :: ts, ?_⟩
  · exact (hfollow _ rfl).trans (if_pos hmet)
  · exact (hfollow _ rfl).trans (if_neg hunmet)

/-! ### Constants -/

/-- A load adds the bytes of the walk and demands room for its constant. -/
theorem walks_load (l : Constant) {m : CompileM Unit}
    (hm : m.follow (Site.stage ⟨ts, prev, code, outer⟩ w) =
      (Site.stage ⟨ts, prev, code, outer⟩ w).load l >>= fun A => .ok ((), A)) :
    m.Walks ⟨ts, prev, code, outer⟩ w () ⟨ts, prev, code ++ (w.load l).code, outer⟩
      (w.load l).after := by
  refine .of_demand (.chunk .tooManyConstants) rfl trivial (fun hmet => ?_)
    fun hunmet => ⟨prev :: ts, ?_⟩
  · rw [hm, Stage.load]
    have hroom : ¬ Chunk.maxConstants ≤ w.pool := Nat.not_le.mpr hmet
    exact congrArg (· >>= _) (if_neg hroom)
  · rw [hm, Stage.load]
    have hfull : Chunk.maxConstants ≤ w.pool := Nat.not_lt.mp hunmet
    exact congrArg (· >>= _) (if_pos hfull)

/-- The load of a number adds the bytes of the walk and demands room for its constant. -/
theorem walks_loadNumber {n : Number} (hprev : Number.ofText? prev.lexeme = some n) :
    (act .loadNumber).Walks ⟨ts, prev, code, outer⟩ w ()
      ⟨ts, prev, code ++ (w.load (.plain (.number n))).code, outer⟩
      (w.load (.plain (.number n))).after := by
  refine walks_load _ ?_
  simp only [follow_act, Action.applyAt, Site.stage, hprev]
  rfl

/-- The load of a string adds the bytes of the walk and demands room for its constant. -/
theorem walks_loadString {text : String} (hprev : Session.unquote prev.lexeme = .ok text) :
    (act .loadString).Walks ⟨ts, prev, code, outer⟩ w ()
      ⟨ts, prev, code ++ (w.load (.text text)).code, outer⟩ (w.load (.text text)).after := by
  refine walks_load _ ?_
  simp only [follow_act, Action.applyAt, Site.stage, hprev]
  rfl

/-- A name demands a constant whose index fits a byte. -/
theorem walks_nameConstant :
    nameConstant.Walks ⟨ts, prev, code, outer⟩ w (w.short (.text prev.lexeme)).1
      ⟨ts, prev, code, outer⟩ (w.short (.text prev.lexeme)).2 :=
  .of_demand (.chunk .tooManyConstants) rfl trivial (fun hmet => if_pos hmet)
    fun hunmet => ⟨_, if_neg hunmet⟩

end

end CompileM

end LoxBytecode
