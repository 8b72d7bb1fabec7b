import LoxBytecode.Proofs.Walk.Rules

/-!
# Scopes and Variables on a Walk

Declaring a name, leaving a scope and looking a name up walk. What the compiler finds through the
functions around is the innermost local with the name (`resolveAround_spec`), and it gives up
just where a walk demands what is not met: a local without its value, or one capture too many.
-/

namespace LoxBytecode

/-! ### Looking around -/

/-- To capture a variable demands that it is captured already or that there is room. -/
theorem captureDemands_met_iff {v : Nat × Nat} {d : Draft} :
    (∀ q ∈ d.captureDemands v, q.Met) ↔ v ∈ d.captures ∨ d.captures.length < maxSlots := by
  rw [Draft.captureDemands]
  split
  next hmem => simp [hmem]
  next hmem =>
      simp only [List.mem_singleton, forall_eq, Demand.Met, hmem, false_or]
      exact Nat.succ_le_iff

/-- Where that is met, the variable is captured. -/
theorem tryCapture_of_met {v : Nat × Nat} {d : Draft} (h : ∀ q ∈ d.captureDemands v, q.Met) :
    d.tryCapture v = (.ok (some v), d.capture v) :=
  if_pos (captureDemands_met_iff.mp h)

/-- Where it is not, there are too many captures. -/
theorem tryCapture_of_unmet {v : Nat × Nat} {d : Draft}
    (h : ¬ ∀ q ∈ d.captureDemands v, q.Met) :
    d.tryCapture v = (.error .tooManyUpvalues, d) :=
  if_neg (mt captureDemands_met_iff.mpr h)

/-- A name that no function around has. -/
theorem resolveAround_of_none {name : String} {d : Draft} {ds : List Draft}
    (h : findAround? name ds = none) : resolveAround name d ds = (.ok none, d, ds) := by
  induction ds generalizing d with
  | nil => rfl
  | cons outer rest ih =>
      rw [findAround?] at h
      rw [resolveAround]
      cases hfind : FunctionState.findLocal? name outer.scope.locals with
      | some found =>
          rw [hfind] at h
          cases h
      | none =>
          rw [hfind] at h
          rw [ih (Option.map_eq_none_iff.mp h)]

/-- A name that some function around has. -/
theorem resolveAround_spec {name : String} {d : Draft} {ds : List Draft} {distance slot : Nat}
    {depth : Option Nat} (h : findAround? name ds = some ((distance, slot), depth)) :
    ((∀ q ∈ captureFromDemands slot distance d ds ++ [.use depth], q.Met) →
      resolveAround name d ds = (.ok (some (distance, slot)), captureFrom slot distance d ds)) ∧
    ((¬ ∀ q ∈ captureFromDemands slot distance d ds ++ [.use depth], q.Met) →
      ∃ e, (resolveAround name d ds).1 = .error e) := by
  induction ds generalizing d distance with
  | nil => cases h
  | cons outer rest ih =>
      rw [findAround?] at h
      rw [resolveAround]
      cases hfind : FunctionState.findLocal? name outer.scope.locals with
      | some found =>
          obtain ⟨slot', l⟩ := found
          rw [hfind] at h
          cases h
          simp only [captureFromDemands, captureFrom, List.forall_mem_append]
          cases hdepth : l.depth with
          | none =>
              refine ⟨fun ⟨_, huse⟩ => absurd rfl (huse _ (List.mem_singleton_self _)), fun _ => ?_⟩
              exact ⟨_, rfl⟩
          | some depth =>
              simp only [Option.isNone_some, Bool.false_eq_true, if_false]
              refine ⟨fun ⟨hcapture, _⟩ => by rw [tryCapture_of_met hcapture], fun hunmet => ?_⟩
              have hcapture : ¬ ∀ q ∈ d.captureDemands (0, slot), q.Met := by
                refine fun hmet => hunmet ⟨hmet, fun q hq => ?_⟩
                rw [List.mem_singleton.mp hq]
                exact Option.some_ne_none depth
              rw [tryCapture_of_unmet hcapture]
              exact ⟨_, rfl⟩
      | none =>
          rw [hfind] at h
          obtain ⟨⟨⟨further, slot'⟩, depth'⟩, hfound, heq⟩ := Option.map_eq_some_iff.mp h
          cases heq
          obtain ⟨hmet, hunmet⟩ := ih (d := outer) hfound
          simp only [captureFromDemands, captureFrom, List.append_assoc]
          refine ⟨fun hall => ?_, fun hnot => ?_⟩
          · simp only [List.forall_mem_append] at hall hmet
            obtain ⟨hinner, hcapture, huse⟩ := hall
            rw [hmet ⟨hinner, huse⟩]
            simp only [tryCapture_of_met hcapture]
          · by_cases hinner : ∀ q ∈ captureFromDemands slot further outer rest ++ [.use depth],
                q.Met
            · have hcapture : ¬ ∀ q ∈ d.captureDemands (further + 1, slot), q.Met := by
                intro hcapture
                simp only [List.forall_mem_append] at hnot hinner
                exact hnot ⟨hinner.1, hcapture, hinner.2⟩
              rw [hmet hinner]
              simp only [tryCapture_of_unmet hcapture]
              exact ⟨_, rfl⟩
            · obtain ⟨e, he⟩ := hunmet hinner
              rcases hresolve : resolveAround name outer rest with ⟨found, outer', rest'⟩
              rw [hresolve] at he
              dsimp only at he
              subst he
              exact ⟨e, rfl⟩

namespace CompileM

variable {w : Walk} {ts : List Token} {prev : Token} {code : List UInt8}
  {outer : List (List UInt8)}

/-! ### Uses -/

/-- A number that is not refused becomes that byte. -/
theorem eq_of_narrow {n : Nat} {b : UInt8} (h : narrow n = .ok b) : b = n.toUInt8 := by
  rw [narrow] at h
  split at h <;> cases h
  rfl

/-- A name that is a local resolves to its slot. -/
theorem walks_resolve_local {slot : Nat} {l : Local}
    (hfind : FunctionState.findLocal? prev.lexeme w.current.scope.locals = some (slot, l)) :
    resolve.Walks ⟨ts, prev, code, outer⟩ w (.local slot.toUInt8) ⟨ts, prev, code, outer⟩
      (w.ask (.use l.depth)) := by
  have hanswer : Query.findLocal.answerAt (Site.stage ⟨ts, prev, code, outer⟩ w) =
      if l.depth.isNone then .error .ownInitializer else .ok (some slot) := by
    simp only [Query.answerAt, Stage.findLocal, Site.stage, hfind]
  cases hdepth : l.depth with
  | none =>
      rw [hdepth] at hanswer
      have hfollow : resolve.follow (Site.stage ⟨ts, prev, code, outer⟩ w) =
          .error (.problem (.scope .ownInitializer) (prev :: ts)) := by
        rw [resolve, follow_bind, follow_ask, hanswer]
        rfl
      have hnot : ¬ ∀ q ∈ [Demand.use none], q.Met :=
        fun hall => hall _ (List.mem_singleton_self _) rfl
      exact .unmet (p := .scope .ownInitializer) rfl hnot trivial hfollow
  | some depth =>
      rw [hdepth] at hanswer
      refine .step (congrArg (fun found => Except.ok (found, _)) hanswer) ?_
      refine .liftM ⟨_, rfl⟩ fun b hb => ?_
      rw [eq_of_narrow hb]
      exact .of_ask (d := .use (some depth)) (Option.some_ne_none depth) walks_pure

/-- A name of a function around resolves to a capture. -/
theorem walks_resolve_upvalue
    (hnone : FunctionState.findLocal? prev.lexeme w.current.scope.locals = none)
    {distance slot : Nat} {depth : Option Nat}
    (hfind : findAround? prev.lexeme w.around = some ((distance, slot), depth)) :
    resolve.Walks ⟨ts, prev, code, outer⟩ w (w.access prev.lexeme).1
      ⟨ts, prev, code, outer⟩ (w.access prev.lexeme).2 := by
  have hanswer : (ask .findLocal).follow (Site.stage ⟨ts, prev, code, outer⟩ w) =
      .ok (.ok none, Site.stage ⟨ts, prev, code, outer⟩ w) := by
    simp only [follow_ask, Query.answerAt, Stage.findLocal, Site.stage, hnone]
  obtain ⟨hmet, hunmet⟩ := resolveAround_spec (d := w.current) hfind
  have haccess : w.access prev.lexeme =
      (.upvalue ((captureFrom slot distance w.current w.around).1.captures.idxOf
        (distance, slot)).toUInt8,
        { current := (captureFrom slot distance w.current w.around).1
          around := (captureFrom slot distance w.current w.around).2
          demands := w.demands ++
            (captureFromDemands slot distance w.current w.around ++ [.use depth]) }) := by
    rw [Walk.access, hnone]
    simp only [hfind]
  by_cases hall : ∀ q ∈ captureFromDemands slot distance w.current w.around ++ [.use depth], q.Met
  · refine .step hanswer ?_
    have hupvalue : (act .findUpvalue).Walks ⟨ts, prev, code, outer⟩ w
        (.ok (some ((captureFrom slot distance w.current w.around).1.captures.idxOf
          (distance, slot)))) ⟨ts, prev, code, outer⟩ (w.access prev.lexeme).2 := by
      rw [haccess]
      refine .met rfl hall ?_
      simp only [follow_act, Action.applyAt, Stage.findUpvalue, Site.stage, hmet hall]
      rfl
    refine hupvalue.bind (.liftM (.refl _) fun b hb => ?_)
    rw [eq_of_narrow hb, haccess]
    exact walks_pure
  · obtain ⟨e, he⟩ := hunmet hall
    have hupvalue : (act .findUpvalue).follow (Site.stage ⟨ts, prev, code, outer⟩ w) =
        .ok (.error e, (Stage.findUpvalue (Site.stage ⟨ts, prev, code, outer⟩ w)).2) := by
      simp only [follow_act, Action.applyAt, Stage.findUpvalue, Site.stage, he]
      rfl
    have hfollow : resolve.follow (Site.stage ⟨ts, prev, code, outer⟩ w) =
        .error (.problem (.scope e) (prev :: ts)) := by
      rw [resolve, follow_bind_of_ok hanswer]
      dsimp only
      rw [follow_bind_of_ok hupvalue]
      rfl
    rw [haccess]
    exact .unmet (p := .scope e) rfl hall trivial hfollow

/-- A name is resolved as its access is walked. -/
theorem walks_resolve : resolve.Walks ⟨ts, prev, code, outer⟩ w (w.access prev.lexeme).1
    ⟨ts, prev, code, outer⟩ (w.access prev.lexeme).2 := by
  cases hlocal : FunctionState.findLocal? prev.lexeme w.current.scope.locals with
  | some found =>
      have haccess : w.access prev.lexeme = (.local found.1.toUInt8, w.ask (.use found.2.depth)) := by
        rw [Walk.access, hlocal]
      rw [haccess]
      exact walks_resolve_local hlocal
  | none =>
      cases haround : findAround? prev.lexeme w.around with
      | some found => exact walks_resolve_upvalue hlocal haround
      | none =>
          have hanswer : Query.findLocal.answerAt (Site.stage ⟨ts, prev, code, outer⟩ w) =
              .ok none := by
            simp only [Query.answerAt, Stage.findLocal, Site.stage, hlocal]
          have hupvalue : (act .findUpvalue).follow (Site.stage ⟨ts, prev, code, outer⟩ w) =
              .ok (.ok none, Site.stage ⟨ts, prev, code, outer⟩ w) := by
            simp only [follow_act, Action.applyAt, Stage.findUpvalue, Site.stage,
              resolveAround_of_none haround]
            rfl
          rw [Walk.access, hlocal]
          simp only [haround]
          refine .step (congrArg (fun found => Except.ok (found, _)) hanswer) ?_
          exact .step hupvalue (walks_nameConstant.bind walks_pure)

/-! ### Declarations -/

/-- A local is declared as it is walked. -/
theorem walks_declare (hdepth : w.current.scope.depth ≠ 0) :
    (act .declare).Walks ⟨ts, prev, code, outer⟩ w () ⟨ts, prev, code, outer⟩
      (w.declare prev.lexeme) := by
  have hdemands : (w.declare prev.lexeme).demands = w.demands ++
      [.fresh prev.lexeme (w.current.scope.owned.map Local.name),
        .named w.current.scope.locals.length] := List.append_assoc ..
  have howned : (w.current.scope.locals.takeWhile fun l =>
      !l.depth.any (· < w.current.scope.depth)) = w.current.scope.owned := by
    obtain ⟨depth, hdepth⟩ := Nat.exists_eq_succ_of_ne_zero hdepth
    rw [Scope.owned, hdepth]
    congr 1
    funext l
    simp only [FunctionState.isWithin, Nat.succ_eq_add_one, Nat.add_one_sub_one, Nat.lt_succ_iff]
  have hfollow : (act .declare).follow (Site.stage ⟨ts, prev, code, outer⟩ w) =
      if w.current.scope.owned.any (·.name == prev.lexeme) then
        .error (.problem (.scope .alreadyDeclared) (prev :: ts))
      else if w.current.scope.locals.length < maxSlots then
        .ok ((), Site.stage ⟨ts, prev, code, outer⟩ (w.declare prev.lexeme))
      else .error (.problem (.scope .tooManyLocals) (prev :: ts)) := by
    simp only [follow_act, Action.applyAt, Stage.declare, Site.stage, howned]
    split
    · rfl
    · split <;> rfl
  have hused : w.current.scope.owned.any (·.name == prev.lexeme) = true ↔
      prev.lexeme ∈ w.current.scope.owned.map Local.name := by
    simp [List.any_eq_true]
  by_cases hfresh : prev.lexeme ∈ w.current.scope.owned.map Local.name
  · refine .unmet (p := .scope .alreadyDeclared) hdemands (fun hall => ?_) trivial
      (hfollow.trans (if_pos (hused.mpr hfresh)))
    exact hall _ (List.mem_cons_self ..) hfresh
  · rw [if_neg (mt hused.mp hfresh)] at hfollow
    by_cases hroom : w.current.scope.locals.length < maxSlots
    · refine .met hdemands ?_ (hfollow.trans (if_pos hroom))
      rw [List.forall_mem_cons, List.forall_mem_singleton]
      exact ⟨hfresh, Nat.le_of_lt_succ hroom⟩
    · refine .unmet (p := .scope .tooManyLocals) hdemands (fun hall => ?_) trivial
        (hfollow.trans (if_neg hroom))
      exact hroom (Nat.lt_succ_of_le (hall _ (List.mem_cons_of_mem _ (List.mem_singleton_self _))))

/-- Whether declarations are global is read off the scope. -/
theorem follow_atTopScope (x : Site) (w : Walk) : atTopScope.follow (x.stage w) =
    .ok (w.current.scope.depth == 0, x.stage w) := rfl

/-- The name of a variable, behind the word that declares it. -/
theorem walks_parseVariable {name : Token} {what : String} (hname : name.kind = .identifier)
    (hts : ts ≠ []) : (parseVariable what).Walks ⟨name :: ts, prev, code, outer⟩ w
      (w.newName name.lexeme).1 ⟨ts, name, code, outer⟩ (w.newName name.lexeme).2 := by
  refine .step (follow_expect hname hts) ?_
  rw [Walk.newName]
  by_cases hdepth : w.current.scope.depth = 0
  · have htop : atTopScope.follow (Site.stage ⟨ts, name, code, outer⟩ w) =
        .ok (true, Site.stage ⟨ts, name, code, outer⟩ w) := by
      rw [follow_atTopScope, hdepth]
      rfl
    rw [if_pos hdepth]
    refine .step (follow_bind_of_ok htop) (.step htop ?_)
    exact walks_nameConstant
  · have hinside (w : Walk) (h : w.current.scope.depth ≠ 0) :
        atTopScope.follow (Site.stage ⟨ts, name, code, outer⟩ w) =
          .ok (false, Site.stage ⟨ts, name, code, outer⟩ w) := by
      rw [follow_atTopScope, beq_false_of_ne h]
    rw [if_neg hdepth]
    have hdeclare : declareVariable.Walks ⟨ts, name, code, outer⟩ w () ⟨ts, name, code, outer⟩
        (w.declare name.lexeme) := .step (hinside w hdepth) (walks_declare hdepth)
    exact hdeclare.bind (.step (hinside _ hdepth) walks_pure)

/-- A variable is declared as it is walked, at the top and in scopes. -/
theorem walks_declareVariable : declareVariable.Walks ⟨ts, prev, code, outer⟩ w ()
    ⟨ts, prev, code, outer⟩
    (if w.current.scope.depth = 0 then w else w.declare prev.lexeme) := by
  by_cases hdepth : w.current.scope.depth = 0
  · rw [if_pos hdepth]
    refine .step (follow_atTopScope _ _) ?_
    rw [hdepth]
    exact walks_pure
  · rw [if_neg hdepth]
    refine .step (follow_atTopScope _ _) ?_
    rw [beq_false_of_ne hdepth]
    exact walks_declare hdepth

/-- Making a local readable defines it in the scope. -/
theorem walks_markInitialized : markInitialized.Walks ⟨ts, prev, code, outer⟩ w ()
    ⟨ts, prev, code, outer⟩ (w.modifyScope Scope.define) :=
  .of_ok rfl rfl

/-- A variable is bound as it is walked. -/
theorem walks_defineVariable (global : UInt8) :
    (defineVariable global).Walks ⟨ts, prev, code, outer⟩ w ()
      ⟨ts, prev, code ++ (w.bind global).code, outer⟩ (w.bind global).after := by
  rw [Walk.bind]
  refine .step (follow_atTopScope _ _) ?_
  by_cases hdepth : w.current.scope.depth = 0
  · rw [if_pos hdepth, hdepth]
    exact walks_emit .defineGlobal [global]
  · rw [if_neg hdepth, beq_false_of_ne hdepth]
    exact walks_markInitialized.of_code (List.append_nil _).symm

/-! ### Scopes -/

/-- A scope is entered as it is walked. -/
theorem walks_beginScope : beginScope.Walks ⟨ts, prev, code, outer⟩ w ()
    ⟨ts, prev, code, outer⟩ (w.modifyScope Scope.enter) :=
  .of_ok rfl rfl

/-- A scope is left as it is walked, and its locals are removed. -/
theorem walks_endScope : CompileM.endScope.Walks ⟨ts, prev, code, outer⟩ w ()
    ⟨ts, prev, code ++ w.leave.code, outer⟩ w.leave.after := by
  by_cases hdepth : w.current.scope.depth = 0
  · refine .of_fault (.refl _) ?_
    rw [CompileM.endScope, follow_bind, follow_act]
    exact congrArg (· >>= _) (if_pos hdepth)
  · have hleave : (act .endScope).Walks ⟨ts, prev, code, outer⟩ w
        (w.current.scope.owned.map Local.captured) ⟨ts, prev, code, outer⟩ w.leave.after :=
      .of_ok rfl (if_neg hdepth)
    refine hleave.bind ((walks_emitAll _).of_code ?_)
    rw [List.map_map, List.map_map]
    rfl

end CompileM

end LoxBytecode
