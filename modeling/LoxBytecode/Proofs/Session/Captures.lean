import Mathlib.Data.List.Forall2
import LoxBytecode.Proofs.Session.Fields
import LoxBytecode.Proofs.Syntax.Scoping

/-!
# Captures

A capture of a function names a slot or a capture of the function around it. The stack of the
functions being compiled is `Linked` when every capture on it names one that exists, and the
outermost function has none.

While a function is compiled, those around it wait. All that happens to them is that locals are
marked as captured and that captures are added at the end (`FunctionState.Grows`), both by
`resolveCapture`. The capture that it answers with leads back to the innermost local of the name
in the functions around (`Resolution.place`), through the captures of those in between
(`originOf?`).
-/

namespace LoxBytecode

/-! ### Functions that wait -/

namespace FunctionState

/-- A local without the mark of being captured. -/
def ident (l : Local) : String × Option Nat :=
  (l.name, l.depth)

/-- What can happen to a function while an inner one is compiled. -/
structure Grows (st st' : FunctionState) : Prop where
  core : st'.core = st.core
  kind : st'.kind = st.kind
  chunk : st'.chunk = st.chunk
  arity : st'.arity = st.arity
  scopeDepth : st'.scopeDepth = st.scopeDepth
  locals : st'.locals.map ident = st.locals.map ident
  upvalues : st.upvalues <+: st'.upvalues

/-- A function that stays as it is grows by nothing. -/
theorem Grows.refl (st : FunctionState) : st.Grows st :=
  ⟨rfl, rfl, rfl, rfl, rfl, rfl, List.prefix_refl _⟩

/-- Growing after growing is growing. -/
theorem Grows.trans {st st' st'' : FunctionState} (h₁ : st.Grows st') (h₂ : st'.Grows st'') :
    st.Grows st'' where
  core := h₂.core.trans h₁.core
  kind := h₂.kind.trans h₁.kind
  chunk := h₂.chunk.trans h₁.chunk
  arity := h₂.arity.trans h₁.arity
  scopeDepth := h₂.scopeDepth.trans h₁.scopeDepth
  locals := h₂.locals.trans h₁.locals
  upvalues := h₁.upvalues.trans h₂.upvalues

/-- The slots stay as many. -/
theorem Grows.length_locals {st st' : FunctionState} (h : st.Grows st') :
    st'.locals.length = st.locals.length := by
  simpa using congrArg List.length h.locals

/-- Marking a local as captured is growth. -/
theorem grows_capture (st : FunctionState) (slot : Nat) : st.Grows (st.capture slot) := by
  rw [capture]
  split
  · refine ⟨rfl, rfl, rfl, rfl, rfl, ?_, List.prefix_refl _⟩
    apply List.ext_getElem?
    intro i
    simp only [List.getElem?_map, List.getElem?_modify]
    cases st.locals[i]? with
    | none => rfl
    | some l => split <;> rfl
  · exact .refl st

/-- Adding a capture changes nothing but the captures. -/
theorem addUpvalue_eq (st : FunctionState) (c : Capture) :
    (st.addUpvalue c).2 = { st with upvalues := (st.addUpvalue c).2.upvalues } := by
  rw [addUpvalue]
  split
  · rfl
  · split <;> rfl

/-- A capture that is added is there already or comes last. -/
theorem upvalues_addUpvalue (st : FunctionState) (c : Capture) :
    (st.addUpvalue c).2.upvalues = st.upvalues ∨
      (st.addUpvalue c).2.upvalues = st.upvalues ++ [c] := by
  rw [addUpvalue]
  split
  · exact Or.inl rfl
  · split
    · exact Or.inr rfl
    · exact Or.inl rfl

/-- No capture is lost or moved. -/
theorem prefix_addUpvalue (st : FunctionState) (c : Capture) :
    st.upvalues <+: (st.addUpvalue c).2.upvalues := by
  rcases st.upvalues_addUpvalue c with h | h
  · exact h ▸ List.prefix_refl _
  · exact h ▸ List.prefix_append ..

/-- The index answered is that of the capture. -/
theorem getElem?_of_addUpvalue {st : FunctionState} {c : Capture} {index : Nat}
    (h : (st.addUpvalue c).1 = .ok index) : (st.addUpvalue c).2.upvalues[index]? = some c := by
  rw [addUpvalue] at h ⊢
  split at h
  next i hi =>
    cases h
    obtain ⟨hlt, heq, -⟩ := List.findIdx?_eq_some_iff_getElem.mp hi
    rw [List.getElem?_eq_getElem hlt, eq_of_beq heq]
  next hnone =>
    split at h
    next hroom =>
      cases h
      simp [hroom]
    next => cases h

/-- A local that is found lies in its slot. -/
theorem lt_of_findLocal? {name : String} {ls : List Local} {slot : Nat} {l : Local}
    (h : findLocal? name ls = some (slot, l)) : slot < ls.length := by
  induction ls with
  | nil => cases h
  | cons l' ls ih =>
      rw [findLocal?] at h
      split at h
      · cases h
        exact Nat.lt_succ_self _
      · exact Nat.lt_succ_of_lt (ih h)

/-- The slot that a name resolves to is one of the locals. -/
theorem lt_of_resolveLocal {st : FunctionState} {name : String} {slot : Nat}
    (h : st.resolveLocal name = .ok (some slot)) : slot < st.locals.length := by
  rw [resolveLocal] at h
  split at h
  · cases h
  next slot' l hfind =>
    split at h <;> cases h
    exact lt_of_findLocal? hfind

end FunctionState

/-! ### Following captures -/

/-- Where a capture leads, through the captures of a function and of those around it, innermost
first: how many functions lie between, and the slot in the one that it comes from. -/
def originOf? : List (List Capture) → Nat → Option (Nat × Nat)
  | [], _ => none
  | captures :: tables, index =>
    match captures[index]? with
    | none => none
    | some c =>
      if c.isLocal then some (0, c.index)
      else (originOf? tables c.index).map fun place => (place.1 + 1, place.2)

/-- More captures lead where they led before. -/
theorem originOf?_mono {tables tables' : List (List Capture)}
    (h : List.Forall₂ (· <+: ·) tables tables') {index : Nat} {place : Nat × Nat}
    (hplace : originOf? tables index = some place) : originOf? tables' index = some place := by
  induction h generalizing index place with
  | nil => exact hplace
  | @cons captures captures' tables tables' hmore _ ih =>
      rw [originOf?] at hplace ⊢
      cases hc : captures[index]? with
      | none =>
          rw [hc] at hplace
          cases hplace
      | some c =>
          rw [hc] at hplace
          have hc' : captures'[index]? = some c := by
            obtain ⟨rest, rfl⟩ := hmore
            rw [List.getElem?_append_left (List.getElem?_eq_some_iff.mp hc).1, hc]
          rw [hc']
          simp only at hplace ⊢
          split at hplace
          next hlocal => rwa [if_pos hlocal]
          next hlocal =>
            obtain ⟨inner, hinner, heq⟩ := Option.map_eq_some_iff.mp hplace
            rw [if_neg hlocal, ih hinner]
            exact congrArg some heq

/-- A capture that leads somewhere exists. -/
theorem lt_of_originOf? {captures : List Capture} {tables : List (List Capture)} {index : Nat}
    {place : Nat × Nat} (h : originOf? (captures :: tables) index = some place) :
    index < captures.length := by
  rw [originOf?] at h
  cases hc : captures[index]? with
  | none =>
      rw [hc] at h
      cases h
  | some c => exact (List.getElem?_eq_some_iff.mp hc).1

/-- The names of the locals of a function. -/
def FunctionState.frame (st : FunctionState) : Frame :=
  st.locals.map Local.name

/-- The names and slots of a function that grows stay the same. -/
theorem FunctionState.Grows.frame {st st' : FunctionState} (h : st.Grows st') :
    st'.frame = st.frame := by
  have hnames := congrArg (List.map Prod.fst) h.locals
  rwa [List.map_map, List.map_map] at hnames

/-- Finding a local is finding the slot of its name. -/
theorem slotOf?_eq (name : String) (ls : List Local) :
    slotOf? name (ls.map Local.name) = (FunctionState.findLocal? name ls).map Prod.fst := by
  induction ls with
  | nil => rfl
  | cons l ls ih =>
      rw [List.map_cons, slotOf?, FunctionState.findLocal?]
      split
      · rw [List.length_map]
        rfl
      · exact ih

/-- What the search for a local in one function finds. -/
theorem slotOf?_frame {st : FunctionState} {name : String} {found : Option Nat}
    (h : st.resolveLocal name = .ok found) : slotOf? name st.frame = found := by
  rw [FunctionState.frame, slotOf?_eq]
  rw [FunctionState.resolveLocal] at h
  cases hfind : FunctionState.findLocal? name st.locals with
  | none =>
      rw [hfind] at h
      exact Except.ok.inj h
  | some p =>
      obtain ⟨slot, l⟩ := p
      rw [hfind] at h
      simp only at h
      split at h
      · cases h
      · exact Except.ok.inj h

/-! ### Captures that exist -/

/-- What the capture names exists in a function. -/
def Capture.ValidIn (c : Capture) (outer : FunctionState) : Prop :=
  if c.isLocal then c.index < outer.locals.length else c.index < outer.upvalues.length

/-- A capture that is valid stays valid. -/
theorem Capture.ValidIn.of_grows {c : Capture} {st st' : FunctionState} (h : c.ValidIn st)
    (hgrows : st.Grows st') : c.ValidIn st' := by
  rw [ValidIn] at h ⊢
  split at h
  next hlocal => rwa [if_pos hlocal, hgrows.length_locals]
  next hlocal =>
    rw [if_neg hlocal]
    exact Nat.lt_of_lt_of_le h hgrows.upvalues.length_le

/-- Every capture of a function, and of each of those around it, exists in the next one. -/
def Linked : FunctionState → List FunctionState → Prop
  | inner, [] => inner.upvalues = []
  | inner, outer :: rest => (∀ c ∈ inner.upvalues, c.ValidIn outer) ∧ Linked outer rest

/-- Only the captures of the innermost function matter. -/
theorem Linked.of_upvalues {inner inner' : FunctionState} {outers : List FunctionState}
    (h : Linked inner outers) (hsame : inner'.upvalues = inner.upvalues) :
    Linked inner' outers := by
  cases outers with
  | nil => exact hsame.trans h
  | cons outer rest => exact ⟨fun c hc => h.1 c (hsame ▸ hc), h.2⟩

/-- Adding a capture that exists keeps a stack linked. -/
theorem Linked.addUpvalue {inner outer : FunctionState} {rest : List FunctionState}
    (h : Linked inner (outer :: rest)) {c : Capture} (hc : c.ValidIn outer) :
    Linked (inner.addUpvalue c).2 (outer :: rest) := by
  refine ⟨fun c' hc' => ?_, h.2⟩
  rcases inner.upvalues_addUpvalue c with hsame | hadded
  · exact h.1 c' (hsame ▸ hc')
  · rw [hadded, List.mem_append, List.mem_singleton] at hc'
    rcases hc' with hold | rfl
    · exact h.1 c' hold
    · exact hc

/-! ### Resolving a capture -/

/-- What resolving a name in the enclosing functions does: the inner function gets captures at
most, the others grow, the stack stays linked, and an index that is found leads to the innermost
local of the name. -/
structure Resolution (name : String) (inner : FunctionState) (outers : List FunctionState)
    (found : Except ScopeError (Option Nat)) (inner' : FunctionState)
    (outers' : List FunctionState) : Prop where
  inner_eq : inner' = { inner with upvalues := inner'.upvalues }
  upvalues : inner.upvalues <+: inner'.upvalues
  outers_grow : List.Forall₂ FunctionState.Grows outers outers'
  linked : Linked inner outers → Linked inner' outers'
  place : ∀ index, found = .ok (some index) → ∃ p,
    findIn? name (outers.map FunctionState.frame) = some p ∧
      originOf? (inner'.upvalues :: outers'.map FunctionState.upvalues) index = some p
  absent : found = .ok none → findIn? name (outers.map FunctionState.frame) = none

variable {name : String}

/-- Resolving a name lets the function grow. -/
theorem Resolution.grows {inner inner' : FunctionState} {outers outers' : List FunctionState}
    {found : Except ScopeError (Option Nat)}
    (h : Resolution name inner outers found inner' outers') : inner.Grows inner' := by
  rw [h.inner_eq]
  exact ⟨rfl, rfl, rfl, rfl, rfl, rfl, h.upvalues⟩

/-- A search that adds a capture to the innermost function, where the one it names exists and
leads to the local. -/
theorem Resolution.of_addUpvalue {inner outer outer' : FunctionState}
    {rest rest' : List FunctionState} {c : Capture} {p : Nat × Nat} (houter : outer.Grows outer')
    (hrest : List.Forall₂ FunctionState.Grows rest rest')
    (hlinked : Linked outer rest → Linked outer' rest') (hc : c.ValidIn outer')
    (hfind : findIn? name ((outer :: rest).map FunctionState.frame) = some p)
    (horigin : originOf? ([c] :: (outer' :: rest').map FunctionState.upvalues) 0 = some p) :
    Resolution name inner (outer :: rest) ((inner.addUpvalue c).1.map some)
      (inner.addUpvalue c).2 (outer' :: rest') where
  inner_eq := inner.addUpvalue_eq c
  upvalues := inner.prefix_addUpvalue c
  outers_grow := .cons houter hrest
  linked h := .addUpvalue ⟨fun c' hc' => (h.1 c' hc').of_grows houter, hlinked h.2⟩ hc
  place index hfound := by
    cases hadded : (inner.addUpvalue c).1 with
    | error e =>
        rw [hadded] at hfound
        cases hfound
    | ok i =>
        rw [hadded] at hfound
        cases hfound
        refine ⟨p, hfind, ?_⟩
        rw [originOf?, FunctionState.getElem?_of_addUpvalue hadded]
        exact horigin
  absent hfound := by
    cases hadded : (inner.addUpvalue c).1 <;> rw [hadded] at hfound <;> cases hfound

/-- A search that leaves the innermost function as it is. -/
theorem Resolution.of_none {inner outer outer' : FunctionState}
    {rest rest' : List FunctionState} {found : Except ScopeError (Option Nat)}
    (houter : outer.Grows outer') (hrest : List.Forall₂ FunctionState.Grows rest rest')
    (hlinked : Linked outer rest → Linked outer' rest')
    (hfound : ∀ index, found ≠ .ok (some index))
    (habsent : found = .ok none →
      findIn? name ((outer :: rest).map FunctionState.frame) = none) :
    Resolution name inner (outer :: rest) found inner (outer' :: rest') where
  inner_eq := rfl
  upvalues := List.prefix_refl _
  outers_grow := .cons houter hrest
  linked h := ⟨fun c' hc' => (h.1 c' hc').of_grows houter, hlinked h.2⟩
  place index h := absurd h (hfound index)
  absent := habsent

/-- Functions that stay as they are grow by nothing. -/
theorem forall₂_grows_refl (outers : List FunctionState) :
    List.Forall₂ FunctionState.Grows outers outers :=
  List.forall₂_same.mpr fun st _ => .refl st

/-- Functions around that grow twice have grown. -/
theorem forall₂_grows_trans {outers outers' outers'' : List FunctionState}
    (h₁ : List.Forall₂ FunctionState.Grows outers outers')
    (h₂ : List.Forall₂ FunctionState.Grows outers' outers'') :
    List.Forall₂ FunctionState.Grows outers outers'' := by
  induction h₁ generalizing outers'' with
  | nil => exact h₂
  | cons hgrows _ ih =>
      cases h₂ with
      | cons hgrows' hrest => exact .cons (hgrows.trans hgrows') (ih hrest)

/-- Each function that waits is there later, grown. -/
theorem exists_grows_of_mem {outers outers' : List FunctionState}
    (h : List.Forall₂ FunctionState.Grows outers outers') {st : FunctionState}
    (hst : st ∈ outers) : ∃ st' ∈ outers', st.Grows st' := by
  induction h with
  | nil => cases hst
  | cons hgrows _ ih =>
      rcases List.mem_cons.mp hst with rfl | hst
      · exact ⟨_, List.mem_cons_self .., hgrows⟩
      · obtain ⟨st', hst', hgrows'⟩ := ih hst
        exact ⟨st', List.mem_cons_of_mem _ hst', hgrows'⟩

/-- Functions that grow keep their handles and constants. -/
theorem map_core_of_forall₂_grows {outers outers' : List FunctionState}
    (h : List.Forall₂ FunctionState.Grows outers outers') :
    outers'.map FunctionState.core = outers.map FunctionState.core := by
  induction h with
  | nil => rfl
  | cons hgrows _ ih => rw [List.map_cons, List.map_cons, hgrows.core, ih]

/-- Functions that grow keep their names and slots. -/
theorem map_frame_of_grows {outers outers' : List FunctionState}
    (h : List.Forall₂ FunctionState.Grows outers outers') :
    outers'.map FunctionState.frame = outers.map FunctionState.frame := by
  induction h with
  | nil => rfl
  | cons hgrows _ ih => rw [List.map_cons, List.map_cons, hgrows.frame, ih]

/-- Their tables of captures only grow. -/
theorem forall₂_upvalues_of_grows {outers outers' : List FunctionState}
    (h : List.Forall₂ FunctionState.Grows outers outers') :
    List.Forall₂ (· <+: ·) (outers.map FunctionState.upvalues)
      (outers'.map FunctionState.upvalues) := by
  induction h with
  | nil => exact .nil
  | cons hgrows _ ih => exact .cons hgrows.upvalues ih

/-- The handles of a stack whose functions grow stay what they are. -/
theorem FunctionStack.handles_of_grows {s t : FunctionStack}
    (hfunction : t.current.function = s.current.function)
    (henclosing : List.Forall₂ FunctionState.Grows s.enclosing t.enclosing) :
    t.handles = s.handles := by
  rw [handles, handles, cores, cores, states, states, List.map_cons, List.map_cons,
    map_core_of_forall₂_grows henclosing]
  exact List.cons_eq_cons.mpr ⟨hfunction, rfl⟩

/-- Resolving a name among enclosing functions does what `Resolution` says. -/
theorem resolveCapture_spec (name : String) (inner : FunctionState)
    (outers : List FunctionState) :
    Resolution name inner outers (resolveCapture name inner outers).1
      (resolveCapture name inner outers).2.1 (resolveCapture name inner outers).2.2 := by
  induction outers generalizing inner with
  | nil => exact ⟨rfl, List.prefix_refl _, .nil, id, by rintro index ⟨⟩, fun _ => rfl⟩
  | cons outer rest ih =>
      have hih := ih outer
      rw [resolveCapture]
      cases hlocal : outer.resolveLocal name with
      | error e =>
          exact .of_none (.refl _) (forall₂_grows_refl rest) id (by rintro index ⟨⟩) (by rintro ⟨⟩)
      | ok found =>
          have hslot := slotOf?_frame hlocal
          cases found with
          | some slot =>
              have hgrows := outer.grows_capture slot
              have hupvalues : (outer.capture slot).upvalues = outer.upvalues := by
                rw [FunctionState.capture]
                split <;> rfl
              refine .of_addUpvalue (p := (0, slot)) hgrows (forall₂_grows_refl rest)
                (fun h => h.of_upvalues hupvalues) ?_ ?_ rfl
              · rw [Capture.ValidIn, if_pos rfl, hgrows.length_locals]
                exact FunctionState.lt_of_resolveLocal hlocal
              · rw [List.map_cons, findIn?, hslot]
          | none =>
              have hfind : findIn? name ((outer :: rest).map FunctionState.frame) =
                  (findIn? name (rest.map FunctionState.frame)).map
                    fun place => (place.1 + 1, place.2) := by
                rw [List.map_cons, findIn?, hslot]
              rcases hres : resolveCapture name outer rest with ⟨found, outer', rest'⟩
              rw [hres] at hih
              rcases found with e | (- | index)
              · exact .of_none hih.grows hih.outers_grow hih.linked (by rintro index ⟨⟩)
                  (by rintro ⟨⟩)
              · refine .of_none hih.grows hih.outers_grow hih.linked (by rintro index ⟨⟩)
                  fun _ => ?_
                rw [hfind, hih.absent rfl]
                rfl
              · obtain ⟨p, hp, horigin⟩ := hih.place index rfl
                refine .of_addUpvalue (p := (p.1 + 1, p.2)) hih.grows hih.outers_grow hih.linked
                  (lt_of_originOf? horigin) ?_ ?_
                · rw [hfind, hp]
                  rfl
                · show Option.map _ (originOf? _ index) = _
                  rw [List.map_cons, horigin]
                  rfl

end LoxBytecode
