import LoxBytecode.Proofs.Code.Stage
import LoxBytecode.Proofs.Session.Orderly

/-!
# Looking One Token Ahead

Following a compilation looks no further than the token behind those that it passes. So where it
goes does not change when the tokens further on are others (`CompileM.looks_follow`). When the
tokens to come end with the end of the source, it never stops at a token that is not known
(`CompileM.follow_ne_unknown`).
-/

namespace LoxBytecode

variable {α β : Type} {A B : Stage} {ts : List Token}

namespace Stage

/-- The stage with other tokens to come. -/
def withTokens (A : Stage) (ts : List Token) : Stage :=
  { A with tokens := ts }

@[simp] theorem tokens_withTokens : (A.withTokens ts).tokens = ts := rfl

@[simp] theorem previous_withTokens : (A.withTokens ts).previous = A.previous := rfl

/-- A stage that is given its own tokens stays as it is. -/
theorem withTokens_of_eq (h : A.tokens = ts) : A.withTokens ts = A := by
  subst h
  rfl

/-! ### Steps that do not move on -/

/-- The tokens have no part in adding a constant with a short index. -/
theorem short_withTokens (A : Stage) (ts : List Token) (c : Constant) :
    ((A.withTokens ts).short c).toOption =
      (A.short c).toOption.map (Prod.map id (·.withTokens ts)) := by
  by_cases h : A.nest.current.constants.length ≤ Chunk.maxShortConstant
  · simp [short, withTokens, h, Except.toOption, addConstant, modify]
  · simp [short, withTokens, h, Except.toOption, fail]

/-- The tokens have no part in loading a constant. -/
theorem load_withTokens (A : Stage) (ts : List Token) (c : Constant) :
    ((A.withTokens ts).load c).toOption = (A.load c).toOption.map (·.withTokens ts) := by
  by_cases h : Chunk.maxConstants ≤ A.nest.current.constants.length
  · simp [load, withTokens, h, Except.toOption, fail]
  · simp [load, withTokens, h, Except.toOption, addConstant, modify, write]

/-- The tokens have no part in filling in a distance. -/
theorem patchJump_withTokens (A : Stage) (ts : List Token) (offset : Nat) :
    ((A.withTokens ts).patchJump offset).toOption =
      (A.patchJump offset).toOption.map (·.withTokens ts) := by
  by_cases h : A.code.length < offset + 2
  · simp [patchJump, withTokens, h, Except.toOption]
  · by_cases h' : A.code.length - (offset + 2) ≤ Session.maxJump
    · simp [patchJump, withTokens, h, h', Except.toOption]
    · simp [patchJump, withTokens, h, h', Except.toOption, fail]

/-- The tokens have no part in declaring a local. -/
theorem declare_withTokens (A : Stage) (ts : List Token) (name : String) :
    ((A.withTokens ts).declare name).toOption =
      (A.declare name).toOption.map (·.withTokens ts) := by
  by_cases h : (A.nest.current.scope.locals.takeWhile fun l =>
      !l.depth.any (· < A.nest.current.scope.depth)).any (·.name == name) = true
  · have hused (B : Stage) (hB : B.nest = A.nest) :
        B.declare name = B.fail (.scope .alreadyDeclared) := by
      rw [declare, hB]
      exact if_pos h
    rw [hused A rfl, hused (A.withTokens ts) rfl]
    rfl
  · have hfresh (B : Stage) (hB : B.nest = A.nest) : B.declare name =
        if B.nest.current.scope.locals.length < maxSlots then .ok (B.modifyScope (·.declare name))
        else B.fail (.scope .tooManyLocals) := by
      rw [declare, hB]
      exact if_neg h
    rw [hfresh A rfl, hfresh (A.withTokens ts) rfl]
    by_cases h' : A.nest.current.scope.locals.length < maxSlots
    · simp [withTokens, h', Except.toOption, modifyScope, modify]
    · simp [withTokens, h', Except.toOption, fail]

/-- The tokens have no part in leaving a scope. -/
theorem endScope_withTokens (A : Stage) (ts : List Token) :
    (A.withTokens ts).endScope.toOption =
      A.endScope.toOption.map (Prod.map id (·.withTokens ts)) := by
  by_cases h : A.nest.current.scope.depth = 0
  · simp [endScope, withTokens, h, Except.toOption]
  · simp [endScope, withTokens, h, Except.toOption, modifyScope, modify]

/-- The tokens have no part in ending a function. -/
theorem endFunction_withTokens (A : Stage) (ts : List Token) :
    (A.withTokens ts).endFunction.toOption =
      A.endFunction.toOption.map (Prod.map id (·.withTokens ts)) := by
  obtain ⟨tokens, previous, code, outer, ⟨current, around⟩⟩ := A
  cases around with
  | nil => rfl
  | cons d ds =>
      cases outer with
      | nil => rfl
      | cons code' codes =>
          by_cases h : d.constants.length ≤ Chunk.maxShortConstant
          · simp [endFunction, short, withTokens, h, Except.toOption, addConstant, modify]
          · simp [endFunction, short, withTokens, h, Except.toOption, fail]

end Stage

/-- What an action does that does not move on, it does whatever tokens are to come. -/
theorem Action.applyAt_withTokens {a : Action β} (ha : ¬ a.Moves) (A : Stage)
    (ts : List Token) : (a.applyAt (A.withTokens ts)).toOption =
      (a.applyAt A).toOption.map (Prod.map id (·.withTokens ts)) := by
  have hunit {x y : Except Stop Stage} (h : x.toOption = y.toOption.map (·.withTokens ts)) :
      (x >>= fun B => pure ((), B)).toOption =
        (y >>= fun B => pure ((), B)).toOption.map (Prod.map id (·.withTokens ts)) := by
    cases x <;> cases y <;> simp_all [Except.toOption, bind, Except.bind, pure, Except.pure]
  cases a with
  | advance => exact absurd trivial ha
  | fail | failHere | resume | emit | beginScope | markInitialized | findUpvalue | beginFunction
  | nameFunction | countParameter => rfl
  | patchJump offset => exact hunit (A.patchJump_withTokens ts offset)
  | loadNumber =>
      simp only [applyAt, Stage.previous_withTokens]
      split
      · exact hunit (A.load_withTokens ts _)
      · rfl
  | loadString =>
      simp only [applyAt, Stage.previous_withTokens]
      split
      · exact hunit (A.load_withTokens ts _)
      · rfl
  | nameConstant => exact A.short_withTokens ts _
  | endScope => exact A.endScope_withTokens ts
  | declare => exact hunit (A.declare_withTokens ts _)
  | endFunction => exact A.endFunction_withTokens ts

/-! ### Following -/

/-- What can be said of a step that ends well: it passes some tokens, and does the same whatever
tokens are to come behind the next one. -/
def Looks (f : Stage → Except Stop (α × Stage)) (A : Stage) (a : α) (B : Stage) : Prop :=
  ∃ us, A.tokens = us ++ B.tokens ∧
    ∀ vs, vs.head? = B.tokens.head? → f (A.withTokens (us ++ vs)) = .ok (a, B.withTokens vs)

/-- Moving on passes one token, and looks no further than the next. -/
theorem Stage.looks_advance (h : A.advance = .ok B) :
    Looks (fun A => do return ((), ← A.advance)) A () B := by
  obtain ⟨tokens, previous, code, outer, nest⟩ := A
  rcases tokens with _ | ⟨t, _ | ⟨u, ts⟩⟩
  · cases h
    refine ⟨[], rfl, fun vs hvs => ?_⟩
    obtain rfl : vs = [] := List.head?_eq_none_iff.mp hvs
    rfl
  · simp only [advance] at h
    split at h
    next heof =>
      cases h
      refine ⟨[t], rfl, fun vs hvs => ?_⟩
      obtain rfl : vs = [] := List.head?_eq_none_iff.mp hvs
      simp [advance, withTokens, heof, pure, Except.pure, bind, Except.bind]
    next => cases h
  · cases h
    refine ⟨[t], rfl, fun vs hvs => ?_⟩
    obtain ⟨ts', rfl⟩ := List.head?_eq_some_iff.mp hvs
    rfl

/-- An action that does not move on does the same whatever tokens are to come. -/
theorem Action.anyway_of_ok {a : Action β} (ha : ¬ a.Moves) {b : β}
    (h : a.applyAt A = .ok (b, B)) (ts : List Token) :
    a.applyAt (A.withTokens ts) = .ok (b, B.withTokens ts) := by
  have hsame := applyAt_withTokens ha A ts
  rw [h] at hsame
  cases happly : a.applyAt (A.withTokens ts) with
  | error stop =>
      rw [happly] at hsame
      cases hsame
  | ok p =>
      rw [happly] at hsame
      exact congrArg Except.ok (Option.some.inj hsame)

/-- An action that does not move on passes no token. -/
theorem Action.tokens_of_ok {a : Action β} (ha : ¬ a.Moves) {b : β}
    (h : a.applyAt A = .ok (b, B)) : B.tokens = A.tokens := by
  have hself := anyway_of_ok ha h A.tokens
  rw [Stage.withTokens_of_eq rfl, h] at hself
  have hB : B = B.withTokens A.tokens := (Prod.mk.inj (Except.ok.inj hself)).2
  have htokens : B.tokens = (B.withTokens A.tokens).tokens := congrArg Stage.tokens hB
  exact htokens

/-- No action looks further than the next token. -/
theorem Action.looks {a : Action β} {b : β} (h : a.applyAt A = .ok (b, B)) :
    Looks a.applyAt A b B := by
  by_cases hmoves : a.Moves
  · cases a with
    | advance =>
        obtain ⟨C, hadvance, hpure⟩ : ∃ C, A.advance = .ok C ∧ (b, B) = ((), C) := by
          simp only [applyAt] at h
          cases hA : A.advance with
          | error stop =>
              rw [hA] at h
              cases h
          | ok C =>
              rw [hA] at h
              cases h
              exact ⟨_, rfl, rfl⟩
        cases hpure
        exact Stage.looks_advance hadvance
    | _ => cases hmoves
  · exact ⟨[], (tokens_of_ok hmoves h).symm, fun vs _ => anyway_of_ok hmoves h vs⟩

/-- The kind of the next token depends on the first one only. -/
theorem kindOf_of_head? {us : List Token} (h : ts.head? = us.head?) : kindOf ts = kindOf us := by
  cases ts <;> cases us <;> simp_all

/-- The answer to any query depends on the first token only. -/
theorem Query.answerAt_withTokens (q : Query β) (h : ts.head? = A.tokens.head?) :
    q.answerAt (A.withTokens ts) = q.answerAt A := by
  cases q with
  | currentKind => exact kindOf_of_head? h
  | _ => rfl

namespace CompileM

/-- Following passes some tokens, and goes the same way whatever tokens are to come behind the
next one. -/
theorem looks_follow {m : CompileM α} {a : α} (h : m.follow A = .ok (a, B)) :
    Looks m.follow A a B := by
  induction m generalizing A B with
  | done result =>
      cases result with
      | error fault => cases h
      | ok a =>
          cases h
          exact ⟨[], rfl, fun vs _ => rfl⟩
  | ask q =>
      cases h
      exact ⟨[], rfl, fun vs hvs => by
        rw [follow, List.nil_append, q.answerAt_withTokens hvs]⟩
  | act action => exact action.looks h
  | chain first next ihFirst ihNext =>
      rw [follow] at h
      split at h
      next b C hfirst =>
        obtain ⟨us, htokens, hlooks⟩ := ihFirst hfirst
        obtain ⟨us', htokens', hlooks'⟩ := ihNext b h
        refine ⟨us ++ us', by rw [htokens, htokens', List.append_assoc], fun vs hvs => ?_⟩
        have hhead : (us' ++ vs).head? = C.tokens.head? := by
          rw [htokens', List.head?_append, List.head?_append, hvs]
        have hfollow := hlooks _ hhead
        have hfollow' := hlooks' vs hvs
        rw [List.append_assoc]
        simp only [follow, hfollow]
        exact hfollow'
      next => cases h
  | part phrase body ih => exact ih h

end CompileM

/-! ### Known tokens -/

/-- The tokens to come, when there are any, end with the end of the source. -/
def Stage.Ends (A : Stage) : Prop :=
  ∀ t, A.tokens.getLast? = some t → t.kind = .eof

/-- The tokens left end as all did. -/
theorem Stage.Ends.of_append {us : List Token} (hA : A.Ends) (h : A.tokens = us ++ B.tokens) :
    B.Ends := by
  intro t ht
  refine hA t ?_
  rw [h, List.getLast?_append, ht, Option.some_or]

/-- Where the source ends, moving on never runs out of tokens. -/
theorem Stage.Ends.advance_ne_unknown (hA : A.Ends) : A.advance ≠ .error .unknown := by
  obtain ⟨tokens, previous, code, outer, nest⟩ := A
  rcases tokens with _ | ⟨t, _ | ⟨u, ts⟩⟩
  · rintro ⟨⟩
  · have heof : t.kind = .eof := hA t rfl
    simp [Stage.advance, heof]
  · rintro ⟨⟩

/-- Loading a constant needs no token. -/
theorem Stage.load_ne_unknown (A : Stage) (c : Constant) : A.load c ≠ .error .unknown := by
  rw [load]
  split <;> rintro ⟨⟩

/-- Adding a constant needs no token. -/
theorem Stage.short_ne_unknown (A : Stage) (c : Constant) : A.short c ≠ .error .unknown := by
  rw [short]
  split <;> rintro ⟨⟩

/-- What comes behind without a step changes nothing about that. -/
theorem bind_pure_ne_unknown {γ : Type} {x : Except Stop γ} (h : x ≠ .error .unknown)
    (f : γ → α) : (x >>= fun c => pure (f c)) ≠ .error .unknown := by
  cases x with
  | error stop =>
      intro hstop
      exact h (congrArg Except.error (Except.error.inj hstop))
  | ok c => rintro ⟨⟩

/-- Only moving on needs another token. -/
theorem Action.applyAt_ne_unknown (a : Action β) (hA : A.Ends) :
    a.applyAt A ≠ .error .unknown := by
  cases a with
  | advance => exact bind_pure_ne_unknown hA.advance_ne_unknown _
  | fail | failHere | resume | emit | beginScope | markInitialized | findUpvalue | beginFunction
  | nameFunction | countParameter => rintro ⟨⟩
  | patchJump offset =>
      refine bind_pure_ne_unknown ?_ _
      rw [Stage.patchJump]
      split
      · rintro ⟨⟩
      · dsimp only
        split <;> rintro ⟨⟩
  | loadNumber =>
      rw [applyAt]
      split
      · exact bind_pure_ne_unknown (A.load_ne_unknown _) _
      · rintro ⟨⟩
  | loadString =>
      rw [applyAt]
      split
      · exact bind_pure_ne_unknown (A.load_ne_unknown _) _
      · rintro ⟨⟩
  | nameConstant => exact A.short_ne_unknown _
  | endScope =>
      rw [applyAt, Stage.endScope]
      split <;> rintro ⟨⟩
  | declare =>
      refine bind_pure_ne_unknown ?_ _
      rw [Stage.declare]
      split
      · rintro ⟨⟩
      · split <;> rintro ⟨⟩
  | endFunction =>
      rw [applyAt, Stage.endFunction]
      split
      · exact bind_pure_ne_unknown (Stage.short_ne_unknown _ _) _
      · rintro ⟨⟩

/-- No compilation runs out of tokens. -/
theorem CompileM.follow_ne_unknown (m : CompileM α) (hA : A.Ends) :
    m.follow A ≠ .error .unknown := by
  induction m generalizing A with
  | done result => cases result <;> rintro ⟨⟩
  | ask q => rintro ⟨⟩
  | act action => exact action.applyAt_ne_unknown hA
  | chain first next ihFirst ihNext =>
      rw [follow]
      split
      next b C hfirst =>
        obtain ⟨us, htokens, -⟩ := looks_follow hfirst
        exact ihNext b (hA.of_append htokens)
      next stop hstop =>
        rintro ⟨⟩
        exact ihFirst hA hstop
  | part phrase body ih => exact ih hA

end LoxBytecode
