import LoxBytecode.Proofs.Session.Careful

/-!
# Tables of Locals

The locals of a function lie in layers, one for each scope that is open: the depths grow along
the slots, and within a layer no name is there twice. A local that waits for its initialization
counts as one of the innermost scope, to which it is going to belong; then refusing a duplicate
when the local is declared is all that the layers need when it is initialized.

Initializing acts on the local declared last, also where the declaration was refused, and can
move a local of an outer scope inwards. That is why `Layered` asks for the order of the depths
and not for the scope that a local was declared in.

What an action asks for is that it neither declares a local nor begins a function while another
local waits (`Action.Timely`); with slot 0 safe (`Action.Careful`), every action keeps the layers.
-/

namespace LoxBytecode

open FunctionState

/-! ### Layers -/

/-- The depth of the scope that a local belongs to, or is going to belong to. -/
def layerOf (depth : Nat) (l : String × Option Nat) : Nat :=
  l.2.getD depth

/-- The locals of a function, innermost first, in scopes up to a depth. -/
structure Layered (x : Nat × List (String × Option Nat)) : Prop where
  /-- None but the last local waits for its initialization. -/
  initialized : ∀ l ∈ x.2.tail, l.2 ≠ none
  within : ∀ l ∈ x.2, layerOf x.1 l ≤ x.1
  ordered : x.2.Pairwise fun l l' => layerOf x.1 l' ≤ layerOf x.1 l
  distinct : x.2.Pairwise fun l l' => layerOf x.1 l = layerOf x.1 l' → l.1 ≠ l'.1
  /-- Outside all scopes there is slot 0 only. -/
  inScopes : ∀ l ∈ x.2.dropLast, l.2 ≠ some 0

/-- No local waits for its initialization. -/
def Initialized (ls : List (String × Option Nat)) : Prop :=
  ∀ l ∈ ls, l.2 ≠ none

section

variable {depth depth' : Nat} {ls : List (String × Option Nat)} {l : String × Option Nat}
  {name : String}

/-- The layer of a local that is initialized does not depend on the depth around it. -/
theorem layerOf_of_ne_none (h : l.2 ≠ none) : layerOf depth l = layerOf depth' l := by
  obtain ⟨name, - | d⟩ := l
  · exact absurd rfl h
  · rfl

/-- The layer of a local is the depth that it was initialized at. -/
theorem layerOf_eq_of_some {d : Nat} (h : l.2 = some d) : layerOf depth l = d := by
  rw [layerOf, h]
  rfl

/-- Where no local waits, the layers do not depend on the depth of the function. -/
theorem Layered.of_initialized (h : Layered (depth, ls)) (hinit : Initialized ls)
    (hwithin : ∀ l ∈ ls, layerOf depth l ≤ depth') : Layered (depth', ls) where
  initialized := h.initialized
  within l hl := by
    rw [layerOf_of_ne_none (hinit l hl)]
    exact hwithin l hl
  ordered := by
    refine h.ordered.imp_of_mem fun {l l'} hl hl' hle => ?_
    rw [layerOf_of_ne_none (hinit l hl), layerOf_of_ne_none (hinit l' hl')]
    exact hle
  distinct := by
    refine h.distinct.imp_of_mem fun {l l'} hl hl' hne heq => hne ?_
    rw [layerOf_of_ne_none (hinit l hl), layerOf_of_ne_none (hinit l' hl')]
    exact heq
  inScopes := h.inScopes

/-- Slot 0 alone lies in layers. -/
theorem layered_reserved : Layered (0, [("", some 0)]) where
  initialized := List.forall_mem_nil _
  within := List.forall_mem_singleton.mpr (Nat.le_refl _)
  ordered := List.pairwise_singleton ..
  distinct := List.pairwise_singleton ..
  inScopes := List.forall_mem_nil _

/-- Entering a scope keeps the layers if no local waits. -/
theorem Layered.beginScope (h : Layered (depth, ls)) (hinit : Initialized ls) :
    Layered (depth + 1, ls) :=
  h.of_initialized hinit fun l hl => Nat.le_succ_of_le (h.within l hl)

/-- A local is declared where none waits, and none of the innermost scope has its name. -/
theorem Layered.declare (h : Layered (depth, ls)) (hinit : Initialized ls) (hne : ls ≠ [])
    (hfresh : ∀ l ∈ ls, layerOf depth l = depth → l.1 ≠ name) :
    Layered (depth, (name, none) :: ls) where
  initialized := hinit
  within := List.forall_mem_cons.mpr ⟨Nat.le_refl _, h.within⟩
  ordered := List.pairwise_cons.mpr ⟨h.within, h.ordered⟩
  distinct := List.pairwise_cons.mpr
    ⟨fun l hl hlayer => (hfresh l hl hlayer.symm).symm, h.distinct⟩
  inScopes := by
    rw [List.dropLast_cons_of_ne_nil hne]
    exact List.forall_mem_cons.mpr ⟨by simp, h.inScopes⟩

/-- Initializing the last local keeps the layers, whether it waited or not. -/
theorem Layered.markInitialized (h : Layered (depth, l :: ls)) (hne : ls ≠ []) (hdepth : depth ≠ 0) :
    Layered (depth, (l.1, some depth) :: ls) := by
  obtain ⟨hl, hls⟩ := List.forall_mem_cons.mp h.within
  obtain ⟨hle, hordered⟩ := List.pairwise_cons.mp h.ordered
  obtain ⟨hdistinct, hrest⟩ := List.pairwise_cons.mp h.distinct
  have hscopes := h.inScopes
  rw [List.dropLast_cons_of_ne_nil hne] at hscopes
  refine ⟨h.initialized, List.forall_mem_cons.mpr ⟨Nat.le_refl _, hls⟩,
    List.pairwise_cons.mpr ⟨hls, hordered⟩, List.pairwise_cons.mpr ⟨fun l' hl' heq => ?_, hrest⟩, ?_⟩
  · -- a local of the innermost scope below means that this one belonged there already
    have hsame : layerOf depth l = layerOf depth l' :=
      Nat.le_antisymm (Nat.le_trans hl (Nat.le_of_eq heq)) (hle l' hl')
    exact hdistinct l' hl' hsame
  · rw [List.dropLast_cons_of_ne_nil hne]
    exact List.forall_mem_cons.mpr ⟨by simpa using hdepth, (List.forall_mem_cons.mp hscopes).2⟩

/-- Leaving a scope takes away the locals that belong to it, and the one that waits. -/
theorem Layered.endScope {below : List (String × Option Nat)} (h : Layered (depth + 1, ls))
    (hsuffix : below <:+ ls) (hhead : ∀ l ∈ below.head?, ∃ d ≤ depth, l.2 = some d) :
    Layered (depth, below) ∧ Initialized below := by
  obtain ⟨above, rfl⟩ := hsuffix
  cases below with
  | nil => exact ⟨⟨by simp, by simp, .nil, .nil, by simp⟩, by simp [Initialized]⟩
  | cons l below =>
      obtain ⟨d, hd, hdepth⟩ := hhead l rfl
      have hbelow : ∀ l' ∈ below, l'.2 ≠ none := by
        intro l' hl'
        refine h.initialized l' ?_
        cases above with
        | nil => exact hl'
        | cons => exact List.mem_append_right _ (List.mem_cons_of_mem _ hl')
      have hinit : Initialized (l :: below) :=
        List.forall_mem_cons.mpr ⟨by simp [hdepth], hbelow⟩
      have hordered := (List.pairwise_append.mp h.ordered).2.1
      have hold : Layered (depth + 1, l :: below) :=
        ⟨hbelow, fun l' hl' => h.within l' (List.mem_append_right _ hl'), hordered,
          (List.pairwise_append.mp h.distinct).2.1, fun l' hl' => h.inScopes l' <| by
            rw [List.dropLast_append_of_ne_nil (by simp)]
            exact List.mem_append_right _ hl'⟩
      have hl : layerOf (depth + 1) l ≤ depth := by rwa [layerOf_eq_of_some hdepth]
      exact ⟨hold.of_initialized hinit <| List.forall_mem_cons.mpr
        ⟨hl, fun l' hl' => Nat.le_trans ((List.pairwise_cons.mp hordered).1 l' hl') hl⟩, hinit⟩

end

/-! ### What the operations on one function do -/

section

variable {st st' : FunctionState} {name : String}

/-- What is left after a scope begins with a local of a scope around. -/
theorem FunctionState.lexical_endScope {flags : List Bool} (h : st.endScope = .ok (flags, st')) :
    ∃ depth below, st.scopeDepth = depth + 1 ∧ st'.lexical = (depth, below) ∧
      below <:+ st.lexical.2 ∧ ∀ l ∈ below.head?, ∃ d ≤ depth, l.2 = some d := by
  rw [FunctionState.endScope] at h
  split at h <;> cases h
  next depth hdepth =>
    refine ⟨depth, _, hdepth, rfl, (List.dropWhile_suffix _).map ident, fun l hl => ?_⟩
    rw [List.head?_map] at hl
    obtain ⟨l', hl', rfl⟩ := Option.map_eq_some_iff.mp hl
    have hkept := List.head?_dropWhile_not (isWithin depth) st.locals
    rw [hl'] at hkept
    obtain ⟨d, hd, hle⟩ : ∃ d, l'.depth = some d ∧ d ≤ depth := by
      simpa [isWithin, Option.any_eq_true] using hkept
    exact ⟨d, hle, hd⟩

/-- Making a local readable initializes the last one at the depth of its scope. -/
theorem FunctionState.lexical_markInitialized {depth : Nat} {l : Local} {ls : List Local}
    (hdepth : st.scopeDepth = depth + 1) (hlocals : st.locals = l :: ls) :
    st.markInitialized.lexical = (depth + 1, (l.name, some (depth + 1)) :: ls.map ident) := by
  rw [FunctionState.markInitialized, hdepth, hlocals]
  rfl

/-- A local is searched for a name that is declared when it belongs to the innermost scope. -/
theorem FunctionState.isInnermost_iff {depth : Nat} {l : Local} :
    (!l.depth.any (· < depth)) = true ↔ depth ≤ layerOf depth (ident l) := by
  cases hdepth : l.depth with
  | none => simp [layerOf, ident, hdepth]
  | some d => simp [layerOf, ident, hdepth]

/-- A search that stops nowhere before a member reaches it. -/
theorem mem_takeWhile_of_pairwise {α : Type} {p : α → Bool} {l : α} {ls : List α}
    (h : ls.Pairwise fun l l' => p l' = true → p l = true) (hl : l ∈ ls) (hp : p l = true) :
    l ∈ ls.takeWhile p := by
  induction ls with
  | nil => cases hl
  | cons l' ls ih =>
      obtain ⟨hfirst, hrest⟩ := List.pairwise_cons.mp h
      rcases List.mem_cons.mp hl with rfl | hl
      · rw [List.takeWhile_cons_of_pos hp]
        exact List.mem_cons_self ..
      · rw [List.takeWhile_cons_of_pos (hfirst l hl hp)]
        exact List.mem_cons_of_mem _ (ih hrest hl)

/-- A local that is declared comes last and waits. -/
theorem FunctionState.lexical_declareLocal (h : st.declareLocal name = .ok st') :
    st'.lexical = (st.scopeDepth, (name, none) :: st.locals.map ident) := by
  simp only [FunctionState.declareLocal, FunctionState.addLocal] at h
  split at h
  · cases h
  · split at h <;> cases h
    rfl

/-- Where the depths grow along the slots, the locals of the innermost scope are all searched
for a name before it is declared. -/
theorem FunctionState.ne_of_declareLocal (hst : Layered st.lexical)
    (h : st.declareLocal name = .ok st') :
    ∀ l ∈ st.lexical.2, layerOf st.scopeDepth l = st.scopeDepth → l.1 ≠ name := by
  simp only [FunctionState.lexical, List.forall_mem_map]
  intro l hl hlayer hname
  simp only [FunctionState.declareLocal] at h
  split at h
  · cases h
  next hnone =>
    refine hnone (List.any_eq_true.mpr
      ⟨l, mem_takeWhile_of_pairwise ?_ hl ?_, beq_iff_eq.mpr hname⟩)
    · refine (List.pairwise_map.mp hst.ordered).imp fun {l l'} hle hin => ?_
      exact isInnermost_iff.mpr (Nat.le_trans (isInnermost_iff.mp hin) hle)
    · exact isInnermost_iff.mpr (Nat.le_of_eq hlayer.symm)

end

/-! ### Sessions -/

namespace Session

variable {s t u : Session}

/-- The locals of all functions being compiled lie in layers. -/
def Layered (s : Session) : Prop :=
  ∀ x ∈ s.lexicals, LoxBytecode.Layered x

/-- No local of a function being compiled waits for its initialization. -/
def Settled (s : Session) : Prop :=
  ∀ x ∈ s.lexicals, Initialized x.2

/-- In `u` there is one local more than in `t`: it was declared, in a scope, and waits for its
initialization. -/
def Awaits (t u : Session) : Prop :=
  ∃ depth locals rest name, t.lexicals = (depth + 1, locals) :: rest ∧
    u.lexicals = (depth + 1, (name, none) :: locals) :: rest

/-- What leaves all scopes alone keeps the layers. -/
theorem Layered.of_lexicals (hs : s.Layered) (h : t.lexicals = s.lexicals) : t.Layered := by
  rwa [Layered, h]

/-- What leaves all scopes alone lets no local wait that did not. -/
theorem Settled.of_lexicals (hs : s.Settled) (h : t.lexicals = s.lexicals) : t.Settled := by
  rwa [Settled, h]

/-- What leaves all scopes alone lets a local wait that did. -/
theorem Awaits.of_lexicals (hs : s.Awaits t) (h : u.lexicals = t.lexicals) : s.Awaits u := by
  rwa [Awaits, h]

/-- A local that waits does so from every earlier session with the same scopes. -/
theorem Awaits.from_lexicals (hs : s.Awaits t) (h : u.lexicals = s.lexicals) : u.Awaits t := by
  rwa [Awaits, h]

/-- Where no local waits, none of the current function does. -/
theorem Settled.current (hs : s.Settled) : Initialized (s.functions.current.locals.map ident) :=
  (List.forall_mem_cons.mp hs).1

/-- Where all locals lie in layers, those of the current function do. -/
theorem Layered.current (hs : s.Layered) : LoxBytecode.Layered s.functions.current.lexical :=
  (List.forall_mem_cons.mp hs).1

/-- A change of the current function keeps the layers if it keeps those of that function. -/
theorem Layered.modifyFunction (hs : s.Layered) {f : FunctionState → FunctionState}
    (h : LoxBytecode.Layered (f s.functions.current).lexical) : (s.modifyFunction f).Layered :=
  List.forall_mem_cons.mpr ⟨h, (List.forall_mem_cons.mp hs).2⟩

/-- A change after which no local of the current function waits lets none wait. -/
theorem Settled.modifyFunction (hs : s.Settled) {f : FunctionState → FunctionState}
    (h : Initialized (f s.functions.current).lexical.2) : (s.modifyFunction f).Settled :=
  List.forall_mem_cons.mpr ⟨h, (List.forall_mem_cons.mp hs).2⟩

/-- There is at least slot 0. -/
theorem Grounded.locals_ne_nil (hs : s.Grounded) :
    s.functions.current.locals.map ident ≠ [] := by
  intro hnil
  have hground := hs.current
  rw [hnil] at hground
  cases hground

end Session

/-! ### Actions -/

/-- No local is declared and no scope or function begins while a local waits. -/
def Action.Timely {β : Type} (s : Session) : Action β → Prop
  | .declare | .beginScope | .beginFunction => s.Settled
  | _ => True

section

variable {s t : Session} {β : Type} {a : Action β} {b : β}

/-- An action that leaves all scopes alone is in time, whatever waits. -/
theorem Action.Tame.timely (ha : a.Tame) : a.Timely s := by
  cases a <;> trivial

/-- Where no local waits, every action is in time. -/
theorem Session.Settled.timely (hs : s.Settled) : a.Timely s := by
  cases a <;> trivial

/-- A declaration leaves one local more, which waits, or it is refused. -/
theorem Session.awaits_declare (hdepth : s.functions.current.scopeDepth ≠ 0) :
    s.declare.lexicals = s.lexicals ∨ s.Awaits s.declare := by
  rw [Session.declare]
  cases hdeclare : s.functions.current.declareLocal s.previous.lexeme with
  | ok st =>
      obtain ⟨depth, hdepth⟩ := Nat.exists_eq_succ_of_ne_zero hdepth
      have hst := FunctionState.lexical_declareLocal hdeclare
      refine Or.inr ⟨depth, s.functions.current.locals.map ident,
        s.functions.enclosing.map FunctionState.lexical, s.previous.lexeme, ?_, ?_⟩
      · rw [Session.lexicals_eq, FunctionState.lexical, hdepth]
      · rw [hdepth] at hst
        exact congrArg (· :: _) hst
  | error e => exact Or.inl (Session.lexicals_of_functions (Session.functions_report ..))

/-- A careful and timely action keeps the layers. -/
theorem Action.Timely.layered (ha : a.Timely s) (hcareful : a.Careful s) (hground : s.Grounded)
    (hs : s.Layered) (h : a.apply s = .ok (b, t)) : t.Layered := by
  cases a with
  | advance | fail | failHere | resume | emit | countParameter | patchJump | loadNumber
  | loadString | nameConstant | findUpvalue | nameFunction =>
      exact hs.of_lexicals (Action.lexicals_of_tame h trivial)
  | beginScope =>
      cases h
      exact hs.modifyFunction (hs.current.beginScope ha.current)
  | endScope =>
      obtain ⟨⟨flags, st⟩, hst, h⟩ := bind_eq_ok.mp h
      cases h
      obtain ⟨depth, below, hdepth, hlexical, hsuffix, hhead⟩ := FunctionState.lexical_endScope hst
      refine hs.modifyFunction ?_
      have hcurrent := hs.current
      rw [FunctionState.lexical, hdepth] at hcurrent
      rw [hlexical]
      exact (hcurrent.endScope hsuffix hhead).1
  | declare =>
      cases h
      rw [Session.declare]
      cases hdeclare : s.functions.current.declareLocal s.previous.lexeme with
      | ok st =>
          refine hs.modifyFunction ?_
          rw [FunctionState.lexical_declareLocal hdeclare]
          exact hs.current.declare ha.current hground.locals_ne_nil
            (FunctionState.ne_of_declareLocal hs.current hdeclare)
      | error e => exact hs.of_lexicals (Session.lexicals_of_functions (Session.functions_report ..))
  | markInitialized =>
      cases h
      refine hs.modifyFunction ?_
      rw [FunctionState.markInitialized]
      split
      next depth l ls hdepth hlocals =>
        have hcurrent := hs.current
        rw [FunctionState.lexical, hdepth, hlocals] at hcurrent
        have hne : ls.map ident ≠ [] := by
          rcases hcareful with hzero | hlength
          · cases hdepth.symm.trans hzero
          · rw [hlocals] at hlength
            intro hnil
            rw [List.map_eq_nil_iff.mp hnil, List.length_singleton] at hlength
            exact absurd hlength (by decide)
        rw [FunctionState.lexical, hdepth]
        exact hcurrent.markInitialized hne (Nat.succ_ne_zero depth)
      next => exact hs.current
  | beginFunction =>
      cases h
      exact List.forall_mem_cons.mpr ⟨layered_reserved, hs⟩
  | endFunction =>
      rw [Session.Layered, Session.lexicals_endFunction h]
      exact fun x hx => hs x (List.mem_of_mem_tail hx)

/-- The action declares no local. -/
def Action.Undeclaring {β : Type} : Action β → Prop
  | .declare => False
  | _ => True

/-- Where no local waits, none does after anything but a declaration. -/
theorem Action.Undeclaring.settled (ha : a.Undeclaring) (hs : s.Settled)
    (h : a.apply s = .ok (b, t)) : t.Settled := by
  cases a with
  | declare => exact ha.elim
  | advance | fail | failHere | resume | emit | countParameter | patchJump | loadNumber
  | loadString | nameConstant | findUpvalue | nameFunction =>
      exact hs.of_lexicals (Action.lexicals_of_tame h trivial)
  | beginScope =>
      cases h
      exact hs.modifyFunction hs.current
  | endScope =>
      obtain ⟨⟨flags, st⟩, hst, h⟩ := bind_eq_ok.mp h
      cases h
      obtain ⟨depth, below, -, hlexical, hsuffix, -⟩ := FunctionState.lexical_endScope hst
      refine hs.modifyFunction ?_
      rw [hlexical]
      exact fun l hl => hs.current l (hsuffix.subset hl)
  | markInitialized =>
      cases h
      refine hs.modifyFunction ?_
      have hcurrent := hs.current
      rw [FunctionState.markInitialized]
      split
      next depth l ls hdepth hlocals =>
        rw [hlocals] at hcurrent
        exact List.forall_mem_cons.mpr
          ⟨Option.some_ne_none _, (List.forall_mem_cons.mp hcurrent).2⟩
      next => exact hcurrent
  | beginFunction =>
      cases h
      exact List.forall_mem_cons.mpr ⟨List.forall_mem_singleton.mpr (Option.some_ne_none 0), hs⟩
  | endFunction =>
      rw [Session.Settled, Session.lexicals_endFunction h]
      exact fun x hx => hs x (List.mem_of_mem_tail hx)

/-- The local that waits is initialized. -/
theorem Session.Awaits.markInitialized {r : Session} (h : r.Awaits s) (hr : r.Settled) :
    (s.modifyFunction FunctionState.markInitialized).Settled := by
  obtain ⟨depth, locals, rest, name, hbefore, hafter⟩ := h
  rw [Session.Settled, hbefore] at hr
  obtain ⟨hlocals, hrest⟩ := List.forall_mem_cons.mp hr
  rw [Session.lexicals_eq] at hafter
  obtain ⟨hcurrent, henclosing⟩ := List.cons_eq_cons.mp hafter
  obtain ⟨hdepth, hident⟩ := Prod.mk.inj hcurrent
  obtain ⟨l, ls, hls, -, hmap⟩ := List.map_eq_cons_iff.mp hident
  refine List.forall_mem_cons.mpr ⟨?_, henclosing ▸ hrest⟩
  show Initialized s.functions.current.markInitialized.lexical.2
  rw [FunctionState.lexical_markInitialized hdepth hls, hmap]
  exact List.forall_mem_cons.mpr ⟨Option.some_ne_none _, hlocals⟩

end

end LoxBytecode
