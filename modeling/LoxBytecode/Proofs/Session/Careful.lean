import LoxBytecode.Proofs.Session.Captures
import LoxBytecode.Proofs.Session.Clean
import LoxBytecode.Proofs.Session.Tight

/-!
# Slot Zero

Slot 0 of a function is reserved for the function being called. Leaving a scope keeps it as long
as it counts as initialized at depth 0 (`Session.Grounded`). One action could break that:
initializing the local declared last, where no local was declared. And loading a number or a
string is meant for behind a token of that kind only. A compilation is `Careful` when it carries
out none of these otherwise; what it does to the scopes of all functions being compiled is said by
their `lexicals`.
-/

namespace LoxBytecode

/-! ### Scopes and locals -/

/-- How deep a function is in scopes, and its locals without their marks. -/
def FunctionState.lexical (st : FunctionState) : Nat × List (String × Option Nat) :=
  (st.scopeDepth, st.locals.map ident)

/-- A function that grows keeps its scopes and locals. -/
theorem FunctionState.Grows.lexical {st st' : FunctionState} (h : st.Grows st') :
    st'.lexical = st.lexical :=
  Prod.ext h.scopeDepth h.locals

/-- Functions around that grow keep their scopes and locals. -/
theorem map_lexical_of_grows {outers outers' : List FunctionState}
    (h : List.Forall₂ FunctionState.Grows outers outers') :
    outers'.map FunctionState.lexical = outers.map FunctionState.lexical := by
  induction h with
  | nil => rfl
  | cons hgrows _ ih => rw [List.map_cons, List.map_cons, hgrows.lexical, ih]

namespace Session

/-- The scopes of the functions being compiled, innermost first. -/
def lexicals (s : Session) : List (Nat × List (String × Option Nat)) :=
  s.functions.states.map FunctionState.lexical

variable {s t : Session}

/-- The scopes of all functions are those of the current one and those around it. -/
theorem lexicals_eq (s : Session) :
    s.lexicals = s.functions.current.lexical ::
      s.functions.enclosing.map FunctionState.lexical := rfl

/-- The scopes of a session depend on its functions alone. -/
theorem lexicals_of_functions (h : t.functions = s.functions) : t.lexicals = s.lexicals :=
  congrArg (fun fs => fs.states.map FunctionState.lexical) h

/-- A change of the current function that keeps its scopes keeps all of them. -/
theorem lexicals_modifyFunction {f : FunctionState → FunctionState}
    (h : (f s.functions.current).lexical = s.functions.current.lexical) :
    (s.modifyFunction f).lexicals = s.lexicals :=
  congrArg (· :: _) h

/-- Loading a value leaves all scopes alone. -/
theorem lexicals_load (s : Session) (v : Value) : (s.load v).lexicals = s.lexicals := by
  rw [load]
  split
  · exact lexicals_of_functions (functions_report ..)
  · exact lexicals_modifyFunction rfl

/-- Adding a constant leaves all scopes alone. -/
theorem lexicals_addConstant {v : Value} {index : UInt8} (h : s.addConstant v = .ok (index, t)) :
    t.lexicals = s.lexicals := by
  have hadded : (s.modifyChunk fun c => (c.addConstant v).2).lexicals = s.lexicals :=
    lexicals_modifyFunction rfl
  rcases addConstant_eq_ok h with ⟨-, -, rfl⟩ | ⟨-, rfl⟩
  · exact hadded
  · exact (lexicals_of_functions (functions_report ..)).trans hadded

/-- Slot 0 of every function is there to stay: it has no name, and is initialized outside all
scopes. -/
def Grounded (s : Session) : Prop :=
  ∀ x ∈ s.lexicals, x.2.getLast? = some ("", some 0)

/-- The local to be initialized is not slot 0. -/
def Declared (s : Session) : Prop :=
  s.functions.current.scopeDepth = 0 ∨ 2 ≤ s.functions.current.locals.length

/-- Slot 0 stays where it is if all scopes are left alone. -/
theorem Grounded.of_lexicals (hs : s.Grounded) (h : t.lexicals = s.lexicals) : t.Grounded := by
  rwa [Grounded, h]

/-- A local that was declared stays so if all scopes are left alone. -/
theorem Declared.of_lexicals (hs : s.Declared) (h : t.lexicals = s.lexicals) : t.Declared := by
  obtain ⟨hcurrent, -⟩ := List.cons_eq_cons.mp h
  obtain ⟨hdepth, hlocals⟩ := Prod.mk.inj hcurrent
  have hlength : t.functions.current.locals.length = s.functions.current.locals.length := by
    simpa using congrArg List.length hlocals
  rwa [Declared, hdepth, hlength]

/-- What becomes of the current function decides about slot 0. -/
theorem Grounded.modifyFunction (hs : s.Grounded) {f : FunctionState → FunctionState}
    (h : ((f s.functions.current).locals.map FunctionState.ident).getLast? =
      some ("", some 0)) : (s.modifyFunction f).Grounded :=
  List.forall_mem_cons.mpr ⟨h, (List.forall_mem_cons.mp hs).2⟩

/-- The current function has its slot 0. -/
theorem Grounded.current (hs : s.Grounded) :
    (s.functions.current.locals.map FunctionState.ident).getLast? = some ("", some 0) :=
  (List.forall_mem_cons.mp hs).1

end Session

/-! ### Careful actions -/

/-- The action begins and ends no scope and no function, and declares no local. -/
def Action.Tame {β : Type} : Action β → Prop
  | .beginScope | .endScope | .declare | .markInitialized | .beginFunction | .endFunction => False
  | _ => True

/-- Numbers are loaded behind numbers and strings behind strings, and a local is initialized where
one was declared. -/
def Action.Careful {β : Type} (s : Session) : Action β → Prop
  | .loadNumber => s.previous.kind = .number
  | .loadString => s.previous.kind = .string
  | .markInitialized => s.Declared
  | _ => True

section

variable {s t : Session} {β : Type} {a : Action β} {b : β}

/-- A tame action leaves all scopes alone. -/
theorem Action.lexicals_of_tame (h : a.apply s = .ok (b, t)) (ha : a.Tame) :
    t.lexicals = s.lexicals := by
  cases a with
  | beginScope | endScope | declare | markInitialized | beginFunction | endFunction =>
      exact ha.elim
  | advance =>
      cases h
      exact Session.lexicals_of_functions (Session.functions_advance s)
  | fail | failHere =>
      cases h
      exact Session.lexicals_of_functions (Session.functions_report ..)
  | resume =>
      cases h
      rfl
  | emit | countParameter =>
      cases h
      exact Session.lexicals_modifyFunction rfl
  | patchJump offset =>
      obtain ⟨u, hu, h⟩ := bind_eq_ok.mp h
      cases h
      rcases Session.patchJump_eq_ok hu with ⟨c, -, -, -, rfl⟩ | ⟨-, rfl⟩
      · exact Session.lexicals_modifyFunction rfl
      · exact Session.lexicals_of_functions (Session.functions_report ..)
  | loadNumber =>
      cases h
      rw [Session.loadNumber]
      split
      · exact Session.lexicals_load s _
      · exact Session.lexicals_of_functions (Session.functions_report ..)
  | loadString =>
      obtain ⟨u, hu, h⟩ := bind_eq_ok.mp h
      cases h
      obtain ⟨text, -, hload⟩ := bind_eq_ok.mp hu
      cases hload
      exact Session.lexicals_load (s.intern text).2 _
  | nameConstant =>
      exact Session.lexicals_addConstant (s := (s.intern s.previous.lexeme).2) h
  | findUpvalue =>
      cases h
      have hspec := resolveCapture_spec s.previous.lexeme s.functions.current
        s.functions.enclosing
      exact List.cons_eq_cons.mpr ⟨hspec.grows.lexical, map_lexical_of_grows hspec.outers_grow⟩
  | nameFunction =>
      obtain ⟨u, hu, h⟩ := bind_eq_ok.mp h
      cases h
      rw [Session.nameFunction] at hu
      obtain ⟨heap, -, rfl⟩ := Session.changeHeap_eq_ok hu
      rfl

/-- The end of a function leaves the others alone. -/
theorem Session.lexicals_endFunction {r : UInt8 × List Capture}
    (h : s.endFunction = .ok (r, t)) : t.lexicals = s.lexicals.tail := by
  obtain ⟨st, parent, rest, heap, v, hfunctions, -, -, rfl, hadd⟩ :=
    Session.endFunction_eq_ok h
  rw [Session.lexicals_addConstant hadd, lexicals_eq s, hfunctions]
  rfl

/-- Leaving a scope keeps slot 0. -/
theorem FunctionState.getLast?_endScope {st st' : FunctionState} {flags : List Bool}
    (h : st.endScope = .ok (flags, st'))
    (hground : (st.locals.map ident).getLast? = some ("", some 0)) :
    (st'.locals.map ident).getLast? = some ("", some 0) := by
  obtain ⟨depth, hdepth⟩ : ∃ depth, st.scopeDepth = depth + 1 := by
    refine Nat.exists_eq_succ_of_ne_zero fun hzero => ?_
    rw [FunctionState.endScope, hzero] at h
    cases h
  rw [FunctionState.endScope, hdepth] at h
  cases h
  obtain ⟨before, l, hlocals, hl⟩ : ∃ before l, st.locals = before ++ [l] ∧
      ident l = ("", some 0) := by
    rw [List.getLast?_map, Option.map_eq_some_iff] at hground
    obtain ⟨l, hlast, hl⟩ := hground
    exact ⟨_, l, (List.dropLast_append_getLast? l hlast).symm, hl⟩
  have hkept : ¬ FunctionState.isWithin depth l = true := by
    have hzero : l.depth = some 0 := congrArg Prod.snd hl
    simp [FunctionState.isWithin, hzero]
  show ((st.locals.dropWhile (FunctionState.isWithin depth)).map ident).getLast? = _
  rw [hlocals, List.dropWhile_append]
  split
  · rw [List.dropWhile_cons_of_neg hkept]
    simp [hl]
  · simp [hl]

/-- A local that was declared in a scope is not slot 0, and neither is the last one where another
was refused. -/
theorem Session.Grounded.declare (hs : s.Grounded) :
    s.declare.Grounded ∧ s.declare.Declared := by
  have hground := hs.current
  have hreported {problem : Problem} (h : s.Declared) :
      (s.fail problem).Grounded ∧ (s.fail problem).Declared := by
    have hsame : (s.fail problem).lexicals = s.lexicals :=
      Session.lexicals_of_functions (Session.functions_report ..)
    exact ⟨hs.of_lexicals hsame, h.of_lexicals hsame⟩
  obtain ⟨l, hl, hident⟩ : ∃ l, s.functions.current.locals.getLast? = some l ∧
      FunctionState.ident l = ("", some 0) := by
    rwa [List.getLast?_map, Option.map_eq_some_iff] at hground
  have hpos : 0 < s.functions.current.locals.length :=
    List.length_pos_of_mem (List.mem_of_getLast? hl)
  rw [Session.declare]
  cases hdeclare : s.functions.current.declareLocal s.previous.lexeme with
  | ok st =>
      simp only [FunctionState.declareLocal, FunctionState.addLocal] at hdeclare
      split at hdeclare
      · cases hdeclare
      · split at hdeclare <;> cases hdeclare
        refine ⟨hs.modifyFunction ?_, Or.inr ?_⟩
        · rw [List.map_cons, List.getLast?_cons, hground]
          rfl
        · exact Nat.succ_le_succ hpos
  | error e =>
      refine hreported ?_
      by_cases hdepth : s.functions.current.scopeDepth = 0
      · exact Or.inl hdepth
      · refine Or.inr (Nat.lt_of_not_le fun hle => ?_)
        -- with slot 0 alone there is room, and nothing in the scope to clash with
        obtain ⟨l', hone⟩ := List.length_eq_one_iff.mp (Nat.le_antisymm hle hpos)
        obtain rfl : l' = l := by simpa [hone] using hl
        have hzero : l'.depth = some 0 := congrArg Prod.snd hident
        simp only [FunctionState.declareLocal, FunctionState.addLocal, hone] at hdeclare
        simp [hzero, Nat.pos_of_ne_zero hdepth, maxSlots] at hdeclare

/-- A careful action keeps slot 0. -/
theorem Action.Careful.grounded (ha : a.Careful s) (hs : s.Grounded)
    (h : a.apply s = .ok (b, t)) : t.Grounded := by
  cases a with
  | advance | fail | failHere | resume | emit | countParameter | patchJump | loadNumber
  | loadString | nameConstant | findUpvalue | nameFunction =>
      exact hs.of_lexicals (Action.lexicals_of_tame h trivial)
  | beginScope =>
      cases h
      exact hs.modifyFunction hs.current
  | endScope =>
      obtain ⟨⟨flags, st⟩, hst, h⟩ := bind_eq_ok.mp h
      cases h
      exact hs.modifyFunction (FunctionState.getLast?_endScope hst hs.current)
  | declare =>
      cases h
      exact hs.declare.1
  | markInitialized =>
      cases h
      refine hs.modifyFunction ?_
      have hground := hs.current
      rw [FunctionState.markInitialized]
      split
      next depth l ls hdepth hlocals =>
        rw [hlocals] at hground
        rcases ha with hzero | hlength
        · rw [hdepth] at hzero
          cases hzero
        · rw [hlocals] at hlength
          obtain ⟨l', ls', rfl⟩ := List.exists_cons_of_length_pos (Nat.le_of_succ_le_succ hlength)
          exact hground
      next => exact hground
  | beginFunction =>
      cases h
      exact List.forall_mem_cons.mpr ⟨rfl, hs⟩
  | endFunction =>
      rw [Session.Grounded, Session.lexicals_endFunction h]
      exact fun x hx => hs x (List.mem_of_mem_tail hx)

end

/-! ### Careful compilations -/

namespace CompileM

variable {α β : Type} {s t u : Session}

/-- Every action that is carried out from here on is careful. -/
def Careful {α : Type} : CompileM α → Session → Prop
  | .done _, _ => True
  | .ask _, _ => True
  | .act a, s => a.Careful s
  | .chain first next, s =>
    first.Careful s ∧ ∀ b t, first.run s = .ok (b, t) → (next b).Careful t
  | .part _ body, s => body.Careful s

/-- The action is carried out in this session on the way of a run. -/
inductive Performs {β : Type} (a : Action β) (u : Session) :
    {α : Type} → CompileM α → Session → Prop
  | act : Performs a u (.act a) u
  | first {α γ : Type} {first : CompileM γ} {next : γ → CompileM α} {s : Session} :
      Performs a u first s → Performs a u (.chain first next) s
  | next {α γ : Type} {first : CompileM γ} {next : γ → CompileM α} {s t : Session} {c : γ} :
      first.run s = .ok (c, t) → Performs a u (next c) t → Performs a u (.chain first next) s
  | part {α : Type} {phrase : Phrase} {body : CompileM α} {s : Session} :
      Performs a u body s → Performs a u (.part phrase body) s

/-- A careful compilation keeps slot 0 of every function. -/
theorem Careful.grounded {m : CompileM α} {a : α} (hm : m.Careful s) (hs : s.Grounded)
    (hrun : m.run s = .ok (a, t)) : t.Grounded := by
  induction m generalizing s t with
  | done result =>
      cases result with
      | error fault => cases hrun
      | ok a =>
          cases hrun
          exact hs
  | ask q =>
      cases hrun
      exact hs
  | act action => exact Action.Careful.grounded hm hs hrun
  | chain first next ihFirst ihNext =>
      obtain ⟨⟨b, u⟩, hfirst, hnext⟩ := bind_eq_ok.mp ((run_bind s first next).symm.trans hrun)
      exact ihNext b (hm.2 b u hfirst) (ihFirst hm.1 hs hfirst) hnext
  | part phrase body ih => exact ih hm hs hrun

/-- Slot 0 stays in all sessions on the way. -/
theorem Careful.grounded_of_visits {m : CompileM α} (hm : m.Careful s) (hs : s.Grounded)
    (hu : m.Visits s u) : u.Grounded := by
  induction m generalizing s with
  | done | ask => exact hu ▸ hs
  | act action =>
      rcases hu with rfl | ⟨b, hb⟩
      · exact hs
      · exact Action.Careful.grounded hm hs hb
  | chain first next ihFirst ihNext =>
      rcases hu with hu | ⟨b, t, hfirst, hu⟩
      · exact ihFirst hm.1 hs hu
      · exact ihNext b (hm.2 b t hfirst) (hm.1.grounded hs hfirst) hu
  | part phrase body ih => exact ih hm hs hu

namespace Performs

variable {a : Action β} {m : CompileM α}

/-- Every action that a careful compilation carries out is careful where it is carried out. -/
theorem careful (h : Performs a u m s) (hm : m.Careful s) : a.Careful u := by
  induction h with
  | act => exact hm
  | first _ ih => exact ih hm.1
  | next hrun _ ih => exact ih (hm.2 _ _ hrun)
  | part _ ih => exact ih hm

/-- Where an action is carried out, a session is visited. -/
theorem visits (h : Performs a u m s) : m.Visits s u := by
  induction h with
  | act => exact Or.inl rfl
  | first _ ih => exact Or.inl ih
  | next hrun _ ih => exact Or.inr ⟨_, _, hrun, ih⟩
  | part _ ih => exact ih

/-- In a run without a fault no action has one. -/
theorem exists_apply (h : Performs a u m s) {r : α × Session} (hrun : m.run s = .ok r) :
    ∃ b t, a.apply u = .ok (b, t) := by
  induction h with
  | act => exact ⟨_, _, hrun⟩
  | @first α γ first next s _ ih =>
      obtain ⟨⟨b, t⟩, hfirst, -⟩ := bind_eq_ok.mp ((run_bind s first next).symm.trans hrun)
      exact ih hfirst
  | @next α γ first next s t c hfirst _ ih =>
      obtain ⟨⟨b, t'⟩, hfirst', hnext⟩ := bind_eq_ok.mp ((run_bind s first next).symm.trans hrun)
      cases hfirst.symm.trans hfirst'
      exact ih hnext
  | part _ ih => exact ih hrun

end Performs

end CompileM

end LoxBytecode
