import LoxBytecode.Proofs.Compile.Statement

/-!
# Compiling Functions

What happens between the beginning of a nested function and the closure that makes it. The
object of the function is new, so nothing has happened to it before; the code of its body is
written like any other; and when it ends, its object is `Finished` and a constant of the
function around it, to which nothing else has happened meanwhile.
-/

namespace LoxBytecode

open Heap

namespace CompileM

variable {s t u : Session} {τ τ₁ τ₂ : List Event} {a : Unit} {declaration : CompileM Unit}

/-! ### Parameters -/

/-- A place behind some parameters of a function: they are counted and the only locals. -/
structure AmongParameters (s : Session) (names : List String) : Prop where
  scope : s.scope = .ofParameters names
  arity : s.functions.current.arity = names.length

variable {names : List String}

/-- Counting a parameter writes nothing, and there is one parameter more. -/
theorem Yields.countParameter (h : (CompileM.act .countParameter).Yields s a τ t) :
    Continues s τ [] t ∧ s.Stays t ∧
      t.functions.current.arity = s.functions.current.arity + 1 := by
  have ht : s.countParameter = t := by
    have happly := h.act.1
    cases happly
    rfl
  have hτ : τ = [] := by
    rw [h.act.2]
    exact Action.trace_of_size_eq h.act.1 (ht ▸ rfl)
  subst ht hτ
  have hwaiting : Waiting s.countParameter.functions.states = Waiting s.functions.states :=
    waiting_congr rfl
  refine ⟨?_, ⟨⟨rfl, rfl, rfl⟩, rfl⟩, rfl⟩
  exact
    { preserves := h.preserves
      function := rfl
      kind := rfl
      code := (List.append_nil _).symm
      constants := List.prefix_refl _
      upvalues := List.prefix_refl _
      enclosing := forall₂_grows_refl _
      marks := hwaiting ▸ forall₂_marksOnly_refl _
      own := rfl
      enclosed := by simp
      others := by simp
      complete := fun σ hσ =>
        hσ.of_yields h (fun _ => id) (.of_preserves h.preserves rfl) (by simp)
      closures := (List.append_nil _).symm }

/-- A parameter is a name, and becomes a local behind those before. -/
theorem Yields.parameter (h : CompileM.parameter.Yields s a τ t) (hs : AmongParameters s names) :
    s.current.kind = .identifier ∧ s.remaining = s.current :: t.remaining ∧
      Continues s τ [] t ∧ AmongParameters t (names ++ [s.current.lexeme]) := by
  have hdepth : s.scope.depth ≠ 0 := hs.scope ▸ Nat.one_ne_zero
  obtain ⟨_, s₁, τ₁, τ₂, hcount, hrest, rfl⟩ := Yields.bind h
  obtain ⟨hcontinues, hstays, harity⟩ := hcount.countParameter
  obtain ⟨n, s₂, τ₃, τ₄, hask, hrest₁, rfl⟩ := hrest.bind
  obtain ⟨rfl, rfl, rfl⟩ := hask.ask
  dsimp only at hrest₁
  split at hrest₁
  · obtain ⟨_, s₂, τ₅, τ₆, hfail, -, -⟩ := hrest₁.bind
    exact hfail.failHere.elim
  · obtain ⟨i, s₂, τ₅, τ₆, hname, hdefine, rfl⟩ := hrest₁.bind
    obtain ⟨hkind, hwrote₂, -, hremaining, hplace⟩ := hname.parseVariable
    obtain ⟨htokens, hdefined⟩ := hdefine.defineVariable
    rw [hstays.tokens.current, hstays.tokens.remaining] at hremaining
    rw [hstays.tokens.current] at hkind
    rw [hstays.scope, hstays.tokens.current] at hplace
    obtain ⟨hzero, -, -⟩ | ⟨-, hscope, -⟩ := hplace
    · exact absurd hzero hdepth
    · rw [hscope] at hdefined
      obtain ⟨hzero, -, -⟩ | ⟨-, hwrote₃, hscope₃⟩ := hdefined
      · exact absurd hzero hdepth
      · refine ⟨hkind, hremaining.trans (congrArg _ htokens.remaining.symm), ?_, ?_, ?_⟩
        · simpa using hcontinues.trans (hwrote₂.trans hwrote₃).toContinues
        · rw [hscope₃, hs.scope, Scope.ofParameters_append]
        · rw [hwrote₃.arity, hwrote₂.arity, harity, hs.arity, List.length_append,
            List.length_singleton]

/-- Parameters become locals in order. -/
theorem Yields.parameters {budget : Nat} (h : (CompileM.parameters budget).Yields s a τ t)
    (hs : AmongParameters s names) :
    ∃ more, ReadsParameters s.remaining more t.remaining ∧ Continues s τ [] t ∧
      AmongParameters t (names ++ more) := by
  induction budget generalizing s τ names with
  | zero => exact h.fault.elim
  | succ budget ih =>
      obtain ⟨_, u, τ₁, τ₂, hone, hrest, rfl⟩ := Yields.bind h
      obtain ⟨hkind, hremaining, hcontinues, hu⟩ := hone.parameter hs
      obtain ⟨comma, v, τ₃, τ₄, haccept, hthen, rfl⟩ := hrest.bind
      obtain ⟨rfl, hcases⟩ := haccept.accept_passes (by decide)
      rcases hcases with ⟨rfl, hcomma, hpasses⟩ | ⟨rfl, hno, rfl⟩
      · obtain ⟨more, hreads, hcontinues', ht⟩ :=
          ih hthen ⟨hpasses.scope.trans hu.scope, hpasses.wrote.arity.trans hu.arity⟩
        rw [hremaining, hpasses.remaining]
        refine ⟨_, .more hkind hcomma hreads, ?_, by simpa using ht⟩
        simpa using (hcontinues.trans hpasses.wrote.toContinues).trans hcontinues'
      · obtain ⟨-, rfl, rfl⟩ := Yields.pure hthen
        rw [hremaining]
        refine ⟨_, .last hkind ?_, ?_, hu⟩
        · rwa [Session.kindOf_remaining]
        · simpa using hcontinues

/-! ### The beginning -/

/-- Naming a function writes nothing. -/
theorem Yields.nameFunction (h : (CompileM.act .nameFunction).Yields s a τ t) :
    Wrote s τ [] t ∧ s.Stays t := by
  obtain ⟨u, hu, hok⟩ := bind_eq_ok.mp h.act.1
  obtain rfl : u = t := by
    cases hok
    rfl
  rw [Session.nameFunction] at hu
  obtain ⟨heap, -, rfl⟩ := Session.changeHeap_eq_ok hu
  refine ⟨.of_silent h ⟨rfl, rfl, rfl, (List.append_nil _).symm, List.prefix_refl _,
    List.prefix_refl _, forall₂_grows_refl _, forall₂_marksOnly_refl _,
    .of_preserves h.preserves rfl, rfl⟩,
    ⟨rfl, rfl, rfl⟩, rfl⟩

/-- A function that begins is new, and nothing is written. -/
theorem Yields.beginFunction (h : (CompileM.act .beginFunction).Yields s a τ t) :
    (∃ f, t.functions = s.functions.push (.start f .function)) ∧ τ = [] ∧ s.SameTokens t ∧
      ∀ σ, Complete σ s → Complete σ t := by
  have ht : s.beginFunction = t := by
    have happly := h.act.1
    cases happly
    rfl
  have hτ : τ = [] := by
    rw [h.act.2, Action.trace, h.act.1, ← ht]
    exact if_neg fun hwrites => absurd hwrites.2 (Nat.not_lt_zero _)
  subst ht hτ
  refine ⟨⟨_, rfl⟩, rfl, ⟨rfl, rfl, rfl⟩, fun σ hσ => ?_⟩
  have hkept := hσ.of_yields h (fun _ => List.mem_cons_of_mem _) (.of_preserves h.preserves rfl)
    (by simp)
  rwa [List.append_nil] at hkept

/-- Nothing has happened to a function that begins. -/
theorem ne_of_complete {σ : List Event} {f : FunctionHandle} (hσ : Complete σ s)
    (ht : t.Sound []) (hp : Session.Preserves [] s t)
    (hfunctions : t.functions = s.functions.push (.start f .function)) :
    ∀ e ∈ σ, e.function ≠ f := by
  have hf : f ∈ t.functions.handles := by
    rw [hfunctions]
    exact List.mem_cons_self ..
  have hnodup := ht.nodup
  rw [hfunctions] at hnodup
  rintro e he rfl
  rcases hσ.accounted e he with hhandle | hreach
  · exact (List.nodup_cons.mp hnodup).1 hhandle
  · exact ht.apart _ hf (hp.reach _ rfl hreach)

/-! ### The end -/

/-- The heap after a session in which the object of the current function got what was
compiled. -/
structure StoresFunction (s : Session) (h : Heap) : Prop where
  object : ∃ o, h.functions.get? s.functions.current.function.index = some o ∧
    o.arity = s.functions.current.arity ∧
    o.upvalueCount = s.functions.current.upvalues.length ∧ o.chunk = s.chunk
  agree : ∀ v, v ≠ .function s.functions.current.function → s.heap.Agree h v

/-- The function that ends is put into the heap as it was compiled. -/
theorem storesFunction (hs : s.Sound []) {h : Heap}
    (hmodify : s.heap.modifyFunction s.functions.current.function (fun o =>
      { o with
        arity := s.functions.current.arity
        upvalueCount := s.functions.current.upvalues.length
        chunk := s.functions.current.chunk }) = .ok h) : StoresFunction s h := by
  obtain ⟨o, ho⟩ := live_function_iff.mp (hs.live_handle (List.mem_cons_self ..))
  have hget := (get?_modifyFunction hmodify _).trans (if_pos rfl)
  rw [show s.heap.functions.get? s.functions.current.function.index = some o from ho] at hget
  exact ⟨⟨_, hget, rfl, rfl, rfl⟩, fun v hv => agree_modifyFunction hmodify hv⟩

/-- Nothing that the session reaches changes: the current function is not reached yet. -/
theorem StoresFunction.agree_pool {h : Heap} (hstores : StoresFunction s h) (hs : s.Sound [])
    (v : Value) (hv : s.heap.Reach s.functions.pool v) : s.heap.Agree h v := by
  refine hstores.agree v ?_
  rintro rfl
  exact hs.apart _ (List.mem_cons_self ..) hv

/-- The world of a function does not change by what its object gets. -/
theorem StoresFunction.le {h : Heap} (hstores : StoresFunction s h) (hs : s.Sound []) :
    (World.of s).Le { World.of s with heap := h } :=
  { World.Le.refl (World.of s) with
    agree := fun v hv =>
      hstores.agree_pool hs v (hv.mono fun _ => Session.mem_pool_of_mem_constants) }

/-- The code of a function's body is that of the object which it leaves. -/
theorem StoresFunction.paired {h : Heap} (hstores : StoresFunction s h) (hs : s.Sound [])
    {σ : List Event} {is : List Item}
    (hbody : ClosedBody (World.of s) s.functions.current.arity is)
    (hcode : s.chunk.code.toList = Item.code is)
    (hevents : Event.ofFunction s.functions.current.function σ =
      Item.events s.functions.current.function 0 is)
    (hpaired : Value.functionIndices s.chunk.constants.toList = Item.made is) :
    PairedFunction h σ s.functions.current.function := by
  obtain ⟨o, ho, harity, hcount, hchunk⟩ := hstores.object
  refine ⟨o, { World.of s with heap := h }, is, ho, ⟨?_, rfl, hcount.symm⟩, ?_,
    hchunk ▸ hcode, hevents, hchunk ▸ hpaired⟩
  · rw [hchunk]
    rfl
  · rw [harity]
    exact hbody.mono (hstores.le hs)

/-- From `s` to `t` the function `st` ends: its object gets what was compiled and becomes a
constant of the function around it. -/
structure EndsFunction (s : Session) (st parent : FunctionState) (rest : List FunctionState)
    (k : UInt8) (t : Session) : Prop where
  before : s.functions = ⟨st, parent :: rest⟩
  after : t.functions =
    ⟨{ parent with chunk := (parent.chunk.addConstant (.function st.function)).2 }, rest⟩
  stores : StoresFunction s t.heap
  index : k.toNat = parent.chunk.constants.size
  tokens : s.SameTokens t

/-- A function ends by becoming a constant of the one around it. -/
theorem Yields.endFunction {k : UInt8} {captures : List Capture}
    (h : (CompileM.act .endFunction).Yields s (k, captures) τ t) :
    ∃ st parent rest, EndsFunction s st parent rest k t ∧ captures = st.upvalues ∧ τ = [] := by
  obtain ⟨st, parent, rest, heap, u, hfunctions, hcaptures, hmodify, rfl, hadd⟩ :=
    Session.endFunction_eq_ok h.act.1
  have hcurrent : s.functions.current = st := by rw [hfunctions]
  rw [← hcurrent] at hmodify
  have hstores := storesFunction h.before.orderly.sound hmodify
  rcases Session.addConstant_eq_ok hadd with ⟨hfits, rfl, rfl⟩ | ⟨-, rfl⟩
  · refine ⟨st, parent, rest, ⟨hfunctions, rfl, hstores, ?_, rfl, rfl, rfl⟩, hcaptures,
      h.act.2.trans (Action.trace_endFunction h.before.orderly.sound h.act.1)⟩
    exact Nat.mod_eq_of_lt (Nat.lt_succ_of_le hfits)
  · exact absurd h.after (not_clean_report h.before.alert)

variable {st parent : FunctionState} {rest : List FunctionState} {k : UInt8}

/-- The one around has one more constant, and no other function changes. -/
theorem EndsFunction.cores (h : EndsFunction s st parent rest k t) : t.functions.cores =
    (parent.function, parent.chunk.constants.push (.function st.function)) ::
      rest.map FunctionState.core := by
  rw [h.after]
  rfl

/-- Nothing else about the one around changes. -/
theorem EndsFunction.current (h : EndsFunction s st parent rest k t) : t.functions.current =
    { parent with chunk := (parent.chunk.addConstant (.function st.function)).2 } := by
  rw [h.after]

/-- A closure of the function that ended is one of its object, and the captures around the body
are those of the functions that remain. -/
theorem EndsFunction.makesClosure (h : EndsFunction s st parent rest k t) (hs : s.Orderly)
    {pairs : List UInt8} (hpairs : captureBytes st.upvalues = .ok pairs) :
    ∃ o, (World.of t).MakesClosure t.scope o k st.upvalues pairs ∧
      (World.of t).inside t.scope o st.upvalues = { World.of s with heap := t.heap } ∧
      o.chunk = s.chunk := by
  obtain ⟨o, ho, -, hcount, hstored⟩ := h.stores.object
  have hlinked := hs.linked
  rw [h.before] at ho hcount hlinked
  refine ⟨o, ⟨⟨st.function, ?_, ho⟩, hcount, hpairs, fun c hc => ?_⟩, ?_, hstored⟩
  · show t.functions.current.chunk.constants.toList[k.toNat]? = _
    rw [h.current, h.index, Chunk.constants_addConstant]
    simp
  · show if c.isLocal then c.index < t.functions.current.locals.length else
      c.index < t.functions.current.upvalues.length
    rw [h.current]
    exact hlinked.1 c hc
  · simp only [World.inside, World.of, hstored, h.before, h.after, Session.scope,
      FunctionStack.states, List.map_cons]
    rfl

/-- What was complete stays complete, when the function that ends is paired. -/
theorem EndsFunction.complete (h : EndsFunction s st parent rest k t) {σ : List Event}
    (hσ : Complete σ s) (hp : Session.Preserves [] s t)
    (hpaired : PairedFunction t.heap σ st.function) : Complete σ t where
  paired f hf := by
    obtain ⟨o, ho, -, -, hchunk⟩ := h.stores.object
    rw [h.before] at ho
    rw [Session.chunk, h.before] at hchunk
    have hfound : t.heap.Reach ([] ++ t.functions.pool) (.function f) := hf
    rcases Session.reach_of_pop (s := { s with heap := t.heap }) h.before ho
      (congrArg Chunk.constants hchunk) h.cores hfound with hold | heq | hnone
    · have hreach : s.heap.Reach s.functions.pool (.function f) := hold.of_agree' hp.agree
      simpa using hσ.paired_of_agree (τ := []) hp.agree hreach (by simp)
    · cases heq
      exact hpaired
    · cases hnone
  accounted e he := by
    rcases hσ.accounted e he with hhandle | hreach
    · rw [FunctionStack.handles, h.before] at hhandle
      rcases List.mem_cons.mp hhandle with heq | hhandle
      · refine Or.inr (.root ?_)
        rw [FunctionStack.pool, h.cores, heq]
        simp [FunctionState.core]
      · refine Or.inl ?_
        rw [FunctionStack.handles, h.cores]
        exact hhandle
    · exact Or.inr (hp.reach _ rfl hreach)

/-! ### From the beginning to the end -/

/-- Behind `s` the function `f` began, in `s₁`, and its items were written up to `u`. -/
structure WritesFunction (s s₁ : Session) (f : FunctionHandle) (τ : List Event) (is : List Item)
    (u : Session) : Prop where
  begins : s₁.functions = s.functions.push (.start f .function)
  preserves : Session.Preserves [] s s₁
  complete : ∀ σ, Complete σ s → Complete σ s₁
  body : Continues s₁ τ is u

namespace WritesFunction

variable {s₁ v : Session} {f : FunctionHandle} {is : List Item}

/-- The function that is written is the current one at the end of its body. -/
theorem function (h : WritesFunction s s₁ f τ is u) : u.functions.current.function = f := by
  rw [h.body.function, h.begins]
  rfl

/-- The function that is written begins without code. -/
theorem chunk (h : WritesFunction s s₁ f τ is u) : s₁.chunk = Chunk.empty := by
  rw [Session.chunk, h.begins]
  rfl

/-- The code of the function is that of the items written. -/
theorem code (h : WritesFunction s s₁ f τ is u) : u.chunk.code.toList = Item.code is := by
  have hcode := h.body.code
  rw [h.chunk] at hcode
  exact hcode

/-- The functions in it are those that the items make. -/
theorem closures (h : WritesFunction s s₁ f τ is u) :
    Value.functionIndices u.chunk.constants.toList = Item.made is := by
  have hclosures := h.body.closures
  rw [h.chunk] at hclosures
  exact hclosures

/-- What has happened to the function is what its items say. -/
theorem events (h : WritesFunction s s₁ f τ is u) {σ : List Event} (hσ : Complete σ s) :
    Event.ofFunction f (σ ++ τ) = Item.events f 0 is := by
  have hown := h.body.own
  rw [h.chunk, h.begins] at hown
  rw [Event.ofFunction_append,
    Event.ofFunction_eq_nil (ne_of_complete hσ h.preserves.sound h.preserves h.begins)]
  exact hown

/-- Nothing has happened to the functions around it. -/
theorem enclosed (h : WritesFunction s s₁ f τ is u) :
    ∀ e ∈ τ, ∀ st ∈ s.functions.states, e.function ≠ st.function := by
  have henclosed := h.body.enclosed
  rw [h.begins] at henclosed
  exact henclosed

section

variable (h : WritesFunction s s₁ f τ is u) (hends : EndsFunction u st parent rest k v)

include h hends

/-- The functions around it have only grown. -/
theorem grows : s.functions.current.Grows parent ∧
    List.Forall₂ FunctionState.Grows s.functions.enclosing rest := by
  have henclosing := h.body.enclosing
  rw [hends.before, h.begins] at henclosing
  exact List.forall₂_cons.mp henclosing

/-- All that it did to their locals is mark what it captures. -/
theorem marks : parent.locals = markAll st.upvalues s.functions.current.locals ∧
    List.Forall₂ MarksOnly (Waiting s.functions.states) (Waiting (parent :: rest)) := by
  have hwaiting := h.body.marks
  rw [FunctionStack.states, FunctionStack.states, hends.before, h.begins] at hwaiting
  obtain ⟨hmarks, hwaits⟩ := List.forall₂_cons.mp hwaiting
  exact ⟨hmarks.eq_markAll, hwaits⟩

/-- The function around it goes on with a constant more. -/
theorem proceeds (hp : Session.Preserves [] u v)
    (hclosed : ClosedBody (World.of u) u.functions.current.arity is) : Proceeds s τ [] v := by
  obtain ⟨hgrows, hrest⟩ := h.grows hends
  have hparent := hends.current
  have hwaiting : Waiting v.functions.states = Waiting (parent :: rest) := by
    rw [FunctionStack.states, hends.after]
    exact waiting_congr rfl
  exact
    { preserves := h.preserves.trans (h.body.preserves.trans hp)
      function := by
        rw [hparent]
        exact congrArg Prod.fst hgrows.core
      kind := by
        rw [hparent]
        exact hgrows.kind
      code := by
        rw [Session.chunk, hparent, hgrows.chunk]
        exact (List.append_nil _).symm
      constants := by
        rw [Session.chunk, Session.chunk, hparent, hgrows.chunk, Chunk.constants_addConstant,
          Array.toList_push]
        exact List.prefix_append ..
      upvalues := by
        rw [hparent]
        exact hgrows.upvalues
      enclosing := by
        rw [hends.after]
        exact hrest
      marks := hwaiting ▸ (h.marks hends).2
      own := Event.ofFunction_eq_nil fun e he => h.enclosed e he _ (List.mem_cons_self ..)
      enclosed := fun e he st hst => h.enclosed e he st (List.mem_cons_of_mem _ hst)
      others := fun e he hreach => h.body.others e he (h.preserves.reach _ rfl hreach)
      complete := fun σ hσ => by
        have hevents := h.events hσ
        rw [← h.function] at hevents
        have hpaired := hends.stores.paired h.body.preserves.sound hclosed h.code hevents h.closures
        rw [hends.before] at hpaired
        exact hends.complete (h.body.complete σ (h.complete σ hσ)) hp hpaired }

end

end WritesFunction

/-- The end of a function and the closure that makes it. -/
def closeFunction : CompileM Unit := do
  let ended ← act .endFunction
  emit .closure (ended.1 :: (← captureBytes ended.2))

/-- When a function ends that began in `s`, all that was done to the function around it is the
closure. -/
theorem Yields.closeFunction {f : FunctionHandle} {s₁ : Session} {body : Stmt}
    {is : List Item} {Γ : Scope}
    (h : CompileM.closeFunction.Yields u a τ₂ t)
    (hwrites : WritesFunction s s₁ f τ₁ (is ++ [Γ.op .nil [], Γ.op .ret []]) u)
    (hcode : StmtCode (World.of u) (.ofParameters names) body is Γ)
    (hclosed : ClosedCode (World.of u) (.ofParameters names) body is Γ)
    (harity : u.functions.current.arity = names.length) :
    ∃ k pairs, s.scope.Same t.scope ∧
      ClosureCode (World.of t) t.scope names body k pairs ∧
      ClosureCloses (World.of t) s.scope t.scope names body k pairs ∧
      Wrote s (τ₁ ++ τ₂) [t.scope.op .closure (k :: pairs)] t ∧ u.SameTokens t := by
  obtain ⟨⟨k, captures⟩, v, τ₃, τ₄, hend, hrest, rfl⟩ := Yields.bind h
  obtain ⟨st, parent, rest, hends, rfl, rfl⟩ := hend.endFunction
  obtain ⟨pairs, v', τ₅, τ₆, hlift, hemit, rfl⟩ := hrest.bind
  obtain ⟨hpairs, rfl, rfl⟩ := hlift.liftM
  obtain ⟨hsteps, hstays⟩ := hemit.steps_emit
  have hwrote := Proceeds.of_yields hemit hsteps (hemit.act.2.trans (hsteps.trace_eq hemit.act.1))
  have hsound := hend.before.orderly.sound
  have hparent := hends.current
  obtain ⟨hgrows, -⟩ := hwrites.grows hends
  have hbody : ClosedBody (World.of u) u.functions.current.arity
      (is ++ [Γ.op .nil [], Γ.op .ret []]) := by
    refine .intro ?_ (Scope.settled_ofParameters names) hcode hclosed
    rw [Scope.length_ofParameters, harity]
  have hv : Proceeds s τ₁ [] v := hwrites.proceeds hends hend.preserves hbody
  -- the function became a constant, and it is that one which a closure is made of
  have hindices : Value.functionIndices v.chunk.constants.toList =
      Value.functionIndices s.chunk.constants.toList ++ [k.toNat] := by
    rw [Session.chunk, hparent, Chunk.constants_addConstant, Array.toList_push,
      Value.functionIndices_concat, Session.chunk, hends.index, hgrows.chunk]
    rfl
  have hscope : s.scope.Same v.scope := by
    rw [Session.scope, Session.scope, hparent]
    exact ⟨hgrows.locals, hgrows.scopeDepth⟩
  rw [hstays.scope]
  suffices hmade : ClosureCode (World.of v) v.scope names body k pairs ∧
      ClosureCloses (World.of v) s.scope v.scope names body k pairs from
    ⟨k, pairs, hscope, hmade.1.mono hwrote.le, hmade.2.mono hwrote.le,
      { toProceeds := by simpa using hv.trans hwrote
        closures := hsteps.indices.trans hindices
        arity := by
          rw [hsteps.arity, hparent]
          exact hgrows.arity }, hends.tokens.trans hstays.tokens⟩
  obtain ⟨o, hmakes, hinside, hstored⟩ := hends.makesClosure hend.before.orderly hpairs
  have hlocals : v.scope.locals = markAll st.upvalues s.scope.locals := by
    rw [Session.scope, hparent]
    exact (hwrites.marks hends).1
  have hbytes := hwrites.code
  refine ⟨.intro hmakes ?_ (hstored ▸ hbytes), .intro hmakes ?_ (hstored ▸ hbytes) hlocals⟩
  · rw [hinside]
    exact hcode.mono (hends.stores.le hsound)
  · rw [hinside]
    exact hclosed.mono (hends.stores.le hsound)

/-- What is compiled between the parameters of a function and its closure. -/
def functionBody (declaration : CompileM Unit) (budget : Nat) : CompileM Unit := do
  expect .rightParen "')' after parameters"
  expect .leftBrace "'\x7b' before function body"
  block declaration budget
  emitReturn
  closeFunction

/-- The body of a function translates to its code, up to the return of nil. -/
theorem Yields.functionBody (hdeclaration : TranslatingDeclaration declaration) {budget : Nat}
    (h : (CompileM.functionBody declaration budget).Yields s a τ t)
    (hs : AmongParameters s names) :
    s.current.kind = .rightParen ∧ ∃ opening ts body is Γ u τ₁ τ₂,
      s.remaining = s.current :: opening :: ts ∧ opening.kind = .leftBrace ∧
      ReadsStmt .block ts body u.remaining ∧
      Wrote s τ₁ (is ++ [Γ.op .nil [], Γ.op .ret []]) u ∧
      StmtCode (World.of u) (.ofParameters names) body is Γ ∧
      ClosedCode (World.of u) (.ofParameters names) body is Γ ∧
      (∃ b, CompileM.closeFunction.Yields u b τ₂ t) ∧ τ = τ₁ ++ τ₂ := by
  obtain ⟨_, s₁, τ₁, τ₂, hexpect, hrest₁, rfl⟩ := Yields.bind h
  obtain ⟨hclosing, rfl, hpasses₁⟩ := hexpect.expect_passes (by decide)
  obtain ⟨_, s₂, τ₃, τ₄, hexpect', hrest₂, rfl⟩ := hrest₁.bind
  obtain ⟨hopening, rfl, hpasses₂⟩ := hexpect'.expect_passes (by decide)
  obtain ⟨_, s₃, τ₅, τ₆, hblock, hrest₃, rfl⟩ := hrest₂.bind
  have hs₂ : s₂.scope = .ofParameters names :=
    (hpasses₂.scope.trans hpasses₁.scope).trans hs.scope
  obtain ⟨body, is, hreads, hcode, hcloses, hwrote₃⟩ :=
    hblock.block hdeclaration (hs₂ ▸ Scope.settled_ofParameters names)
  obtain ⟨_, s₄, τ₇, τ₈, hreturn, hclose, rfl⟩ := hrest₃.bind
  obtain ⟨hwrote₄, hstays₄⟩ := Yields.emitAll hreturn (by decide)
  have hpasses := hpasses₁.wrote.trans hpasses₂.wrote
  rw [hs₂] at hcode hcloses
  rw [← hstays₄.tokens.remaining] at hreads
  refine ⟨hclosing, s₁.current, s₂.remaining, body, is, s₃.scope, s₄, τ₅ ++ τ₇, τ₈, ?_, hopening,
    hreads, ?_, hcode.mono hwrote₄.le, hcloses.code.mono hwrote₄.le, ⟨_, hclose⟩, ?_⟩
  · rw [hpasses₁.remaining, hpasses₂.remaining]
  · simpa using hpasses.trans (hwrote₃.trans hwrote₄)
  · simp

/-- A function translates to the closure that makes it. -/
theorem Yields.function (hdeclaration : TranslatingDeclaration declaration) {budget : Nat}
    (h : (CompileM.function declaration budget).Yields s a τ t) :
    ∃ names opening ts body k pairs,
      ReadsSignature s.remaining names (opening :: ts) ∧ opening.kind = .leftBrace ∧
      ReadsStmt .block ts body t.remaining ∧ s.scope.Same t.scope ∧
      ClosureCode (World.of t) t.scope names body k pairs ∧
      ClosureCloses (World.of t) s.scope t.scope names body k pairs ∧
      Wrote s τ [t.scope.op .closure (k :: pairs)] t := by
  obtain ⟨_, s₁, τ₁, τ₂, hbegin, hrest₁, rfl⟩ := Yields.bind h
  obtain ⟨⟨f, hfunctions₁⟩, rfl, htokens₁, hcomplete₁⟩ := hbegin.beginFunction
  obtain ⟨_, s₂, τ₃, τ₄, hname, hrest₂, rfl⟩ := hrest₁.bind
  obtain ⟨hwrote₂, hstays₂⟩ := hname.nameFunction
  obtain ⟨_, s₃, τ₅, τ₆, hscope, hrest₃, rfl⟩ := hrest₂.bind
  obtain ⟨hwrote₃, hscope₃, htokens₃⟩ := hscope.beginScope
  obtain ⟨_, s₄, τ₇, τ₈, hexpect, hrest₄, rfl⟩ := hrest₃.bind
  obtain ⟨hopening, rfl, hpasses₄⟩ := hexpect.expect_passes (by decide)
  obtain ⟨b, s₄', τ₉, τ₁₀, hnext, hrest₅, rfl⟩ := hrest₄.bind
  obtain ⟨rfl, rfl, rfl⟩ := hnext.nextIs
  have hs₄ : AmongParameters s₄ [] := by
    have hstart : s₁.functions.current = .start f .function := by
      rw [hfunctions₁]
      rfl
    refine ⟨?_, ?_⟩
    · rw [hpasses₄.scope, hscope₃, hstays₂.scope, Session.scope, hstart]
      rfl
    · rw [hpasses₄.wrote.arity, hwrote₃.arity, hwrote₂.arity, hstart]
      rfl
  have hprelude := (hwrote₂.trans hwrote₃).trans hpasses₄.wrote
  have hremaining : s.remaining = s₃.current :: s₄.remaining := by
    rw [← hpasses₄.remaining, htokens₃.remaining, hstays₂.tokens.remaining, htokens₁.remaining]
  rw [hremaining]
  -- The parameters are there or not, and what follows them is the same.
  have hfinish : ∀ {s₅ : Session} {names : List String} {τ₁₁ τ₁₂ : List Event},
      Continues s₄ τ₁₁ [] s₅ → AmongParameters s₅ names →
        (CompileM.functionBody declaration budget).Yields s₅ a τ₁₂ t →
          s₅.current.kind = .rightParen ∧ ∃ opening ts body k pairs,
            s₅.remaining = s₅.current :: opening :: ts ∧ opening.kind = .leftBrace ∧
            ReadsStmt .block ts body t.remaining ∧ s.scope.Same t.scope ∧
            ClosureCode (World.of t) t.scope names body k pairs ∧
            ClosureCloses (World.of t) s.scope t.scope names body k pairs ∧
            Wrote s (τ₃ ++ (τ₅ ++ (τ₁₁ ++ τ₁₂))) [t.scope.op .closure (k :: pairs)] t := by
    intro s₅ names τ₁₁ τ₁₂ hcontinues hs₅ hrest
    obtain ⟨hclosing, opening, ts, body, is, Γ, u, τ₁₃, τ₁₄, hremaining, hbrace, hreads, hwrote,
      hcode, hclosed, ⟨b, hclose⟩, rfl⟩ := hrest.functionBody hdeclaration hs₅
    have hbody : Continues s₁ (τ₃ ++ (τ₅ ++ (τ₁₁ ++ τ₁₃)))
        (is ++ [Γ.op .nil [], Γ.op .ret []]) u := by
      simpa using (hprelude.toContinues.trans hcontinues).trans hwrote.toContinues
    obtain ⟨k, pairs, hsame, hmakes, hcloses, hwrote', htokens⟩ :=
      hclose.closeFunction ⟨hfunctions₁, hbegin.preserves, hcomplete₁, hbody⟩ hcode hclosed
        (hwrote.arity.trans hs₅.arity)
    rw [← htokens.remaining] at hreads
    refine ⟨hclosing, opening, ts, body, k, pairs, hremaining, hbrace, hreads, hsame, hmakes,
      hcloses, ?_⟩
    simpa using hwrote'
  dsimp only at hrest₅
  split at hrest₅
  next hnone =>
    obtain ⟨hclosing, opening, ts, body, k, pairs, hremaining', hbrace, hreads, hsame, hmakes,
      hcloses, hwrote⟩ := hfinish (Wrote.refl hnext.before.orderly).toContinues hs₄ hrest₅
    rw [hremaining']
    exact ⟨[], opening, ts, body, k, pairs, .none hopening hclosing, hbrace, hreads, hsame,
      hmakes, hcloses, by simpa using hwrote⟩
  next hsome =>
    obtain ⟨_, s₅, τ₁₁, τ₁₂, hparameters, hbody, rfl⟩ := hrest₅.bind
    obtain ⟨names, hnames, hcontinues, hs₅⟩ := hparameters.parameters hs₄
    obtain ⟨hclosing, opening, ts, body, k, pairs, hremaining', hbrace, hreads, hsame, hmakes,
      hcloses, hwrote⟩ := hfinish hcontinues hs₅ hbody
    rw [hremaining'] at hnames
    exact ⟨names, opening, ts, body, k, pairs, .some hopening hnames hclosing, hbrace, hreads,
      hsame, hmakes, hcloses, by simpa using hwrote⟩

end CompileM

end LoxBytecode
