import LoxBytecode.Proofs.Code.Steps

/-!
# The Code of Variables

How names are resolved, declared and removed again, by what the session knows at that place: a
name resolves to what `World.Resolves` says, a declaration moves the session to the scope with
the new local, and the end of a scope pops what it owned.
-/

namespace LoxBytecode

namespace CompileM

variable {s t : Session} {τ : List Event} {a : Unit}

/-! ### Uses -/

/-- A capture that is found leads to where the variable is declared, and if none is found there is
none around. -/
theorem Yields.findUpvalue {found : Except ScopeError (Option Nat)}
    (h : (CompileM.act .findUpvalue).Yields s found τ t) (hfound : ∀ e, found ≠ .error e) :
    Wrote s τ [] t ∧ s.Stays t ∧
      (∀ index, found = .ok (some index) → ∃ p,
        findIn? s.previous.lexeme (World.of s).around = some p ∧
          originOf? (World.of t).tables index = some p) ∧
      (found = .ok none → findIn? s.previous.lexeme (World.of s).around = none) := by
  have ht : s.findUpvalue = (found, t) := by
    have happly := h.act.1
    cases happly
    rfl
  obtain ⟨rfl, rfl⟩ := Prod.mk.inj ht
  have hspec := resolveCapture_spec s.previous.lexeme s.functions.current s.functions.enclosing
  have hcurrent : s.findUpvalue.2.functions.current =
      { s.functions.current with
        upvalues := s.findUpvalue.2.functions.current.upvalues } := hspec.inner_eq
  have hcores : s.findUpvalue.2.functions.cores = s.functions.cores :=
    FunctionStack.cores_resolveUpvalue ..
  have hchunk : s.findUpvalue.2.chunk = s.chunk := by
    rw [Session.chunk, hcurrent]
    rfl
  have hsteps : s.Steps [] s.findUpvalue.2 :=
    { function := by rw [hcurrent]
      kind := by rw [hcurrent]
      arity := by rw [hcurrent]
      code := by rw [hchunk, Item.code_nil, List.append_nil]
      constants := hchunk ▸ List.prefix_refl _
      upvalues := hspec.upvalues
      enclosing := hspec.outers_grow
      marks := by
        cases hok : s.findUpvalue.1 with
        | error e => exact absurd hok (hfound e)
        | ok found => exact marksOnly_resolveCapture hok
      finds := .of_cores hcores rfl
      indices := by rw [hchunk] }
  have hscope : s.findUpvalue.2.scope = s.scope := by
    rw [Session.scope, hcurrent]
    rfl
  exact ⟨.of_silent h hsteps, ⟨⟨rfl, rfl, rfl⟩, hscope⟩, hspec.place, hspec.absent⟩

/-- A name resolves to the access to a local, a capture or a global. -/
theorem Yields.resolve {access : Access} (h : resolve.Yields s access τ t) :
    Wrote s τ [] t ∧ s.Stays t ∧ (World.of t).Resolves s.scope s.previous.lexeme access := by
  obtain ⟨found, u, τ₁, τ₂, hask, hrest, rfl⟩ := Yields.bind h
  obtain ⟨hfound, rfl, rfl⟩ := hask.ask
  have hlocal : s.functions.current.resolveLocal s.previous.lexeme = found := hfound.symm
  rw [FunctionState.resolveLocal] at hlocal
  split at hrest
  next slot =>
    obtain ⟨index, v, τ₃, τ₄, hnarrow, hpure, rfl⟩ := hrest.bind
    obtain ⟨hindex, rfl, rfl⟩ := hnarrow.liftM
    obtain ⟨rfl, rfl, rfl⟩ := hpure.pure
    refine ⟨.refl h.before.orderly, ⟨⟨rfl, rfl, rfl⟩, rfl⟩, ?_⟩
    split at hlocal
    · cases hlocal
    next slot' l hfind =>
      split at hlocal <;> cases hlocal
      next hdepth =>
        refine .local (l := l) ?_ (by simpa using hdepth)
        rwa [toNat_of_narrow hindex]
  next e =>
    obtain ⟨_, v, τ₃, τ₄, hfail, -, -⟩ := hrest.bind
    exact hfail.fail.elim
  next =>
    have hfind : FunctionState.findLocal? s.previous.lexeme s.scope.locals = none := by
      split at hlocal
      next hnone => exact hnone
      next => split at hlocal <;> cases hlocal
    obtain ⟨found, u, τ₃, τ₄, hup, hthen, rfl⟩ := hrest.bind
    split at hthen
    next index =>
      obtain ⟨hwrote, hstays, hplace, -⟩ := hup.findUpvalue (by rintro e ⟨⟩)
      obtain ⟨i, v, τ₅, τ₆, hnarrow, hpure, rfl⟩ := hthen.bind
      obtain ⟨hindex, rfl, rfl⟩ := hnarrow.liftM
      obtain ⟨rfl, rfl, rfl⟩ := hpure.pure
      obtain ⟨p, haround, horigin⟩ := hplace index rfl
      refine ⟨by simpa using hwrote, hstays,
        .upvalue hfind (hwrote.le.around ▸ haround) ?_⟩
      rw [toNat_of_narrow hindex]
      exact horigin
    next e =>
      obtain ⟨_, v, τ₅, τ₆, hfail, -, -⟩ := hthen.bind
      exact hfail.fail.elim
    next =>
      obtain ⟨hwrote, hstays, -, habsent⟩ := hup.findUpvalue (by rintro e ⟨⟩)
      obtain ⟨i, v, τ₅, τ₆, hname, hpure, rfl⟩ := hthen.bind
      obtain ⟨rfl, rfl, rfl⟩ := hpure.pure
      obtain ⟨hwrote', hstays', htext⟩ := hname.nameConstant
      refine ⟨by simpa using hwrote.trans hwrote', hstays.trans hstays',
        .global hfind ((hwrote.le.trans hwrote'.le).around ▸ habsent rfl) ?_⟩
      rwa [hstays.tokens.previous] at htext

/-! ### Scopes -/

/-- A change of the locals and the depth of the current function. -/
theorem steps_scope {f : FunctionState → FunctionState} {Γ : Scope}
    (h : f s.functions.current =
      { s.functions.current with locals := Γ.locals, scopeDepth := Γ.depth }) :
    s.Steps [] (s.modifyFunction f) ∧ (s.modifyFunction f).scope = Γ ∧
      s.SameTokens (s.modifyFunction f) := by
  have hcurrent : (s.modifyFunction f).functions.current =
      { s.functions.current with locals := Γ.locals, scopeDepth := Γ.depth } := h
  refine ⟨.of_eq ?_ ?_ ?_ ?_ ?_ rfl rfl, ?_, rfl, rfl, rfl⟩
  · rw [hcurrent]
  · rw [hcurrent]
  · rw [hcurrent]
  · rw [Session.chunk, hcurrent]
    rfl
  · rw [hcurrent]
  · rw [Session.scope, hcurrent]
    rfl

/-- Entering a scope writes nothing. -/
theorem Yields.beginScope (h : beginScope.Yields s a τ t) :
    Wrote s τ [] t ∧ t.scope = s.scope.enter ∧ s.SameTokens t := by
  have ht : s.modifyFunction FunctionState.beginScope = t := by
    have happly := h.act.1
    cases happly
    rfl
  subst ht
  obtain ⟨hsteps, hscope, htokens⟩ := steps_scope (Γ := s.scope.enter) (s := s)
    (f := FunctionState.beginScope) rfl
  exact ⟨.of_silent h hsteps, hscope, htokens⟩

/-- Making a local readable does to a function what defining it does to the scope. -/
theorem markInitialized_eq (st : FunctionState) :
    st.markInitialized =
      { st with locals := st.scope.define.locals, scopeDepth := st.scope.define.depth } := by
  obtain ⟨function, kind, chunk, arity, locals, upvalues, scopeDepth⟩ := st
  cases scopeDepth with
  | zero => rfl
  | succ depth => cases locals <;> rfl

/-- Making a local readable writes nothing. -/
theorem Yields.markInitialized (h : markInitialized.Yields s a τ t) :
    Wrote s τ [] t ∧ t.scope = s.scope.define ∧ s.SameTokens t := by
  have ht : s.modifyFunction FunctionState.markInitialized = t := by
    have happly := h.act.1
    cases happly
    rfl
  subst ht
  obtain ⟨hsteps, hscope, htokens⟩ :=
    steps_scope (s := s) (Γ := s.scope.define) (markInitialized_eq s.functions.current)
  exact ⟨.of_silent h hsteps, hscope, htokens⟩

/-- The end of a scope pops the locals that it owned. -/
theorem Yields.endScope (h : endScope.Yields s a τ t) :
    Wrote s τ s.scope.pops t ∧ t.scope = s.scope.leave ∧ s.SameTokens t := by
  obtain ⟨flags, u, τ₁, τ₂, hend, hpops, rfl⟩ := Yields.bind h
  obtain ⟨⟨flags', st⟩, hst, hok⟩ := bind_eq_ok.mp hend.act.1
  rw [FunctionState.endScope] at hst
  split at hst
  · cases hst
  next depth hdepth =>
    have hleave : s.scope.leave =
        ⟨s.functions.current.locals.dropWhile (FunctionState.isWithin depth), depth⟩ := by
      rw [Scope.leave, Session.scope, FunctionState.scope, hdepth]
      rfl
    have howned : s.scope.owned =
        s.functions.current.locals.takeWhile (FunctionState.isWithin depth) := by
      rw [Scope.owned, Session.scope, FunctionState.scope, hdepth]
      rfl
    cases hst
    cases hok
    obtain ⟨hsteps, hscope, htokens⟩ := steps_scope (s := s) (Γ := s.scope.leave)
      (f := fun _ => { s.functions.current with
        locals := s.functions.current.locals.dropWhile (FunctionState.isWithin depth)
        scopeDepth := depth }) (by rw [hleave])
    have hwrote := Wrote.of_silent hend hsteps
    obtain ⟨hwrote', hstays⟩ := hpops.emitAll fun op hop => by
      obtain ⟨captured, -, rfl⟩ := List.mem_map.mp hop
      cases captured <;> rintro ⟨⟩
    have hitems : ((s.functions.current.locals.takeWhile
        (FunctionState.isWithin depth)).map Local.captured).map
          (fun captured => if captured then Opcode.closeUpvalue else .pop) =
        s.scope.owned.map fun l => if l.captured then .closeUpvalue else .pop := by
      rw [howned, List.map_map]
      rfl
    rw [hscope, hitems, List.map_map] at hwrote'
    exact ⟨hwrote.trans hwrote', hstays.scope.trans hscope,
      htokens.trans hstays.tokens⟩

/-! ### Declarations -/

/-- Declaring a local writes nothing, and there was room for it. -/
theorem Yields.declare (h : (CompileM.act .declare).Yields s a τ t) :
    Wrote s τ [] t ∧ t.scope = s.scope.declare s.previous.lexeme ∧ s.SameTokens t ∧
      s.scope.locals.length < maxSlots := by
  have ht : s.declare = t := by
    have happly := h.act.1
    cases happly
    rfl
  rw [Session.declare] at ht
  cases hdeclare : s.functions.current.declareLocal s.previous.lexeme with
  | error e =>
      rw [hdeclare] at ht
      exact absurd (ht ▸ h.after) (not_clean_report h.before.alert)
  | ok st =>
      rw [hdeclare] at ht
      subst ht
      simp only [FunctionState.declareLocal, FunctionState.addLocal] at hdeclare
      split at hdeclare
      · cases hdeclare
      · split at hdeclare <;> cases hdeclare
        next hroom =>
          obtain ⟨hsteps, hscope, htokens⟩ :=
            steps_scope (s := s) (Γ := s.scope.declare s.previous.lexeme)
              (f := fun _ => { s.functions.current with
                locals := ⟨s.previous.lexeme, none, false⟩ :: s.functions.current.locals }) rfl
          exact ⟨.of_silent h hsteps, hscope, htokens, hroom⟩

/-- At the top nothing is declared, and elsewhere a local. -/
theorem Yields.declareVariable (h : declareVariable.Yields s a τ t) :
    Wrote s τ [] t ∧ s.SameTokens t ∧
      (s.scope.depth = 0 ∧ t.scope = s.scope ∨
        s.scope.depth ≠ 0 ∧ t.scope = s.scope.declare s.previous.lexeme ∧
          s.scope.locals.length < maxSlots) := by
  obtain ⟨top, u, τ₁, τ₂, htop, hrest, rfl⟩ := Yields.bind h
  obtain ⟨rfl, rfl, rfl⟩ := htop.atTopScope
  by_cases hdepth : s.functions.current.scopeDepth = 0
  · simp only [hdepth, beq_self_eq_true, if_true] at hrest
    obtain ⟨-, rfl, rfl⟩ := hrest.pure
    exact ⟨.refl h.before.orderly, .refl s, Or.inl ⟨hdepth, rfl⟩⟩
  · simp only [beq_eq_false_iff_ne.mpr hdepth, Bool.false_eq_true, if_false] at hrest
    obtain ⟨hwrote, hscope, htokens, hroom⟩ := Yields.declare hrest
    exact ⟨hwrote, htokens, Or.inr ⟨hdepth, hscope, hroom⟩⟩

/-- The name of a variable is passed and declared. -/
theorem Yields.parseVariable {what : String} {i : UInt8}
    (h : (parseVariable what).Yields s i τ t) :
    s.current.kind = .identifier ∧ Wrote s τ [] t ∧ t.previous = s.current ∧
      s.remaining = s.current :: t.remaining ∧
      (s.scope.depth = 0 ∧ t.scope = s.scope ∧
          (World.of t).HasText i.toNat s.current.lexeme ∨
        s.scope.depth ≠ 0 ∧ t.scope = s.scope.declare s.current.lexeme ∧
          s.scope.locals.length < maxSlots) := by
  obtain ⟨_, u, τ₁, τ₂, hexpect, hrest, rfl⟩ := Yields.bind h
  obtain ⟨hkind, rfl, hpasses⟩ := hexpect.expect_passes (by decide)
  obtain ⟨_, v, τ₃, τ₄, hdeclare, hthen, rfl⟩ := hrest.bind
  obtain ⟨hwrote, htokens, hcases⟩ := hdeclare.declareVariable
  obtain ⟨top, w, τ₅, τ₆, htop, hlast, rfl⟩ := hthen.bind
  obtain ⟨rfl, rfl, rfl⟩ := htop.atTopScope
  have hremaining : s.remaining = s.current :: v.remaining :=
    hpasses.remaining.trans (congrArg _ htokens.remaining.symm)
  have hprevious : v.previous = s.current := htokens.previous.trans hpasses.previous
  have hname : u.previous.lexeme = s.current.lexeme := congrArg Token.lexeme hpasses.previous
  have hboth := hpasses.wrote.trans hwrote
  rw [hpasses.scope, hname] at hcases
  rcases hcases with ⟨hdepth, hscope⟩ | ⟨hdepth, hscope, hroom⟩
  · have hzero : v.functions.current.scopeDepth = 0 := (congrArg Scope.depth hscope).trans hdepth
    simp only [hzero, beq_self_eq_true, if_true] at hlast
    obtain ⟨hwrote', hstays, htext⟩ := hlast.nameConstant
    rw [hprevious] at htext
    exact ⟨hkind, hboth.trans hwrote', hstays.tokens.previous.trans hprevious,
      hremaining.trans (congrArg _ hstays.tokens.remaining.symm),
      Or.inl ⟨hdepth, hstays.scope.trans hscope, htext⟩⟩
  · have hsome : v.functions.current.scopeDepth ≠ 0 := fun hzero =>
      hdepth ((congrArg Scope.depth hscope).symm.trans hzero)
    simp only [beq_eq_false_iff_ne.mpr hsome, Bool.false_eq_true, if_false] at hlast
    obtain ⟨-, rfl, rfl⟩ := hlast.pure
    refine ⟨hkind, ?_, hprevious, hremaining, Or.inr ⟨hdepth, hscope, hroom⟩⟩
    simpa using hboth

/-- A global gets its value from the stack, and a local stays there. -/
theorem Yields.defineVariable {i : UInt8} (h : (CompileM.defineVariable i).Yields s a τ t) :
    s.SameTokens t ∧
      (s.scope.depth = 0 ∧ Wrote s τ [s.scope.op .defineGlobal [i]] t ∧ t.scope = s.scope ∨
        s.scope.depth ≠ 0 ∧ Wrote s τ [] t ∧ t.scope = s.scope.define) := by
  obtain ⟨top, u, τ₁, τ₂, htop, hrest, rfl⟩ := Yields.bind h
  obtain ⟨rfl, rfl, rfl⟩ := htop.atTopScope
  by_cases hdepth : s.functions.current.scopeDepth = 0
  · simp only [hdepth, beq_self_eq_true, if_true] at hrest
    obtain ⟨hwrote, hstays⟩ := Yields.emit hrest (by decide)
    exact ⟨hstays.tokens, Or.inl ⟨hdepth, hwrote, hstays.scope⟩⟩
  · simp only [beq_eq_false_iff_ne.mpr hdepth, Bool.false_eq_true, if_false] at hrest
    obtain ⟨hwrote, hscope, htokens⟩ := Yields.markInitialized hrest
    exact ⟨htokens, Or.inr ⟨hdepth, hwrote, hscope⟩⟩

end CompileM

end LoxBytecode
