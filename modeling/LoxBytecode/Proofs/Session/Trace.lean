import LoxBytecode.Proofs.Session.Orderly

/-!
# Traces

What a compilation does to the code of its functions, in the order in which it does it: at
which offset of which function it writes an instruction, and where phrases of the program begin
and end (`CompileM.trace`). Nothing in a compilation depends on its trace.
-/

namespace LoxBytecode

/-! ### Events -/

/-- What happens at an offset of a function's code. -/
inductive Happening where
  /-- An instruction is written. -/
  | writes
  /-- The compilation of a phrase begins, or has ended. -/
  | begins (phrase : Phrase)
  | ends (phrase : Phrase)
deriving DecidableEq, Repr

/-- Something that happens while a function is compiled. -/
structure Event where
  function : FunctionHandle
  happening : Happening
  /-- The length of the function's code before it. -/
  offset : Nat
  /-- The number of the function's locals in scope, the reserved one among them. -/
  locals : Nat
deriving DecidableEq, Repr

/-- Something that happens in a session. -/
def Session.event (s : Session) (happening : Happening) : Event :=
  ⟨s.functions.current.function, happening, s.chunk.size, s.functions.current.locals.length⟩

/-- The event of an action: it writes an instruction if the code of the current function is
longer after it. -/
def Action.trace {β : Type} (a : Action β) (s : Session) : List Event :=
  match a.apply s with
  | .ok (_, t) =>
    if t.functions.current.function = s.functions.current.function ∧ s.chunk.size < t.chunk.size
    then [s.event .writes] else []
  | .error _ => []

namespace CompileM

/-- The events of a compilation, in their order. -/
def trace {α : Type} : CompileM α → Session → List Event
  | .done _, _ => []
  | .ask _, _ => []
  | .act a, s => a.trace s
  | .chain first next, s =>
    first.trace s ++
      match first.run s with
      | .ok (b, t) => (next b).trace t
      | .error _ => []
  | .part phrase body, s =>
    s.event (.begins phrase) :: body.trace s ++
      match body.run s with
      | .ok (_, t) => [t.event (.ends phrase)]
      | .error _ => []

section

variable {α β : Type} {s t : Session} {b : β}

@[simp] theorem trace_pure (a : α) : (pure a : CompileM α).trace s = [] := rfl

@[simp] theorem trace_act (a : Action α) : (act a).trace s = a.trace s := rfl

/-- The events of a chain, when its first part runs through. -/
theorem trace_bind {first : CompileM β} {next : β → CompileM α}
    (h : first.run s = .ok (b, t)) :
    (first >>= next).trace s = first.trace s ++ (next b).trace t := by
  show (chain first next).trace s = _
  rw [trace, h]

/-- The happenings of a part stand between its beginning and its end. -/
theorem trace_part {phrase : Phrase} {body : CompileM β} (h : body.run s = .ok (b, t)) :
    (part phrase body).trace s =
      s.event (.begins phrase) :: body.trace s ++ [t.event (.ends phrase)] := by
  rw [trace, h]

end

end CompileM

/-! ### The functions of a trace -/

/-- An action's event belongs to the function being compiled. -/
theorem Action.function_of_mem_trace {β : Type} {a : Action β} {s : Session} {e : Event}
    (he : e ∈ a.trace s) : e.function = s.functions.current.function := by
  rw [trace] at he
  split at he
  · split at he
    · rw [List.mem_singleton.mp he]
      rfl
    · cases he
  · cases he

/-- The end of a function writes nothing: the code that is at the front after it is another
function's. -/
theorem Action.trace_endFunction {kept : List Value} {s t : Session}
    {ended : UInt8 × List Capture} (hs : s.Sound kept) (ht : s.endFunction = .ok (ended, t)) :
    Action.endFunction.trace s = [] := by
  have ha : Action.endFunction.apply s = .ok (ended, t) := ht
  obtain ⟨st, parent, rest, heap, u, hfunctions, -, -, rfl, hadd⟩ := Session.endFunction_eq_ok ht
  have hparent : t.functions.current.function = parent.function := by
    rcases Session.addConstant_eq_ok hadd with ⟨-, -, rfl⟩ | ⟨-, rfl⟩
    · rfl
    · rw [Session.fail, Session.functions_report]
      rfl
  have hnodup := hs.nodup
  rw [hfunctions] at hnodup
  rw [trace, ha]
  refine if_neg fun hwrites => (List.nodup_cons.mp hnodup).1 (List.mem_cons.mpr (Or.inl ?_))
  rw [hparent, hfunctions] at hwrites
  exact hwrites.1.symm

/-- Every event happens in a session that preserves what was there at the beginning, to the
function compiled then. -/
theorem CompileM.exists_of_mem_trace {α : Type} {m : CompileM α} {kept : List Value}
    {s : Session} {e : Event} (hs : s.Sound kept) (he : e ∈ m.trace s) :
    ∃ u, Session.Preserves kept s u ∧ e.function = u.functions.current.function := by
  induction m generalizing s with
  | done | ask => cases he
  | act a => exact ⟨s, .refl hs, a.function_of_mem_trace he⟩
  | chain first next ihFirst ihNext =>
      rw [trace] at he
      rcases List.mem_append.mp he with hfirst | hnext
      · exact ihFirst hs hfirst
      · split at hnext
        next b t hrun =>
          have hp := first.preserves hs hrun
          obtain ⟨u, hu, hfunction⟩ := ihNext b hp.sound hnext
          exact ⟨u, hp.trans hu, hfunction⟩
        next => cases hnext
  | part phrase body ih =>
      rw [trace] at he
      rcases List.mem_append.mp he with hbody | hend
      · rcases List.mem_cons.mp hbody with rfl | hbody
        · exact ⟨s, .refl hs, rfl⟩
        · exact ih hs hbody
      · split at hend
        next b t hrun =>
          rw [List.mem_singleton.mp hend]
          exact ⟨t, body.preserves hs hrun, rfl⟩
        next => cases hend

/-- Nothing happens to a function that was finished before. -/
theorem CompileM.not_mem_trace_of_finished {α : Type} {m : CompileM α} {kept : List Value}
    {s : Session} {e : Event} (hs : s.Sound kept) (he : e ∈ m.trace s) :
    ¬ s.heap.Reach (kept ++ s.functions.pool) (.function e.function) := by
  intro hreach
  obtain ⟨u, hu, hfunction⟩ := CompileM.exists_of_mem_trace hs he
  have hmem : u.functions.current.function ∈ u.functions.handles := List.mem_cons_self ..
  exact hu.sound.apart _ hmem (hfunction ▸ hu.reach _ rfl hreach)

end LoxBytecode
