import Mathlib.Data.List.GetD
import LoxBytecode.Proofs.Session.Bounds
import LoxBytecode.Proofs.Session.Following

/-!
# The Nest of a Session

The functions being compiled in a session, as a walk through a program sees them
(`Session.nest`). There is one such view of every bounded session: each of its captures leads to
a variable further out, and no two lead to the same one. So a session that is not recovering has
reached a stage, the one with its own nest (`Bounded.reached`), and only stages with that nest
(`Reached.nest_eq`).
-/

namespace LoxBytecode

open Heap

/-! ### Constants -/

/-- The constant that a value of a heap is. -/
def Heap.constantOf (h : Heap) : Value → Constant
  | .string s => .text ((h.strings.get? s.index).getD "")
  | .function _ => .function
  | v => .plain v

/-- What a value denotes is read off the heap. -/
theorem Heap.Denotes.constantOf_eq {h : Heap} {v : Value} {c : Constant} (hv : h.Denotes v c) :
    h.constantOf v = c := by
  cases hv with
  | @plain v hobject => cases v <;> first | rfl | cases hobject
  | text hget => rw [constantOf, hget, Option.getD_some]
  | function => rfl

/-- A value that is live denotes something. -/
theorem Heap.Live.denotes {h : Heap} {v : Value} (hv : h.Live v) :
    h.Denotes v (h.constantOf v) := by
  cases v with
  | string s =>
      obtain ⟨text, htext⟩ := live_string_iff.mp hv
      rw [constantOf, htext, Option.getD_some]
      exact .text htext
  | function f => exact .function
  | nil | bool | number => exact .plain rfl

/-! ### Captures -/

/-- The variable that a capture leads to, when those that the function around captures are
known. -/
def Capture.variable (outer : List (Nat × Nat)) (c : Capture) : Nat × Nat :=
  if c.isLocal then (0, c.index) else (fun v => (v.1 + 1, v.2)) (outer.getD c.index (0, 0))

variable {h : Heap} {outer : List (Nat × Nat)} {c c' : Capture}

/-- A variable is the one that its capture stands for. -/
theorem variable_captureOf {v : Nat × Nat} (hv : CapturedAround outer v) :
    (captureOf outer v).variable outer = v := by
  obtain ⟨- | distance, slot⟩ := v
  · rfl
  · have hmem := hv distance rfl
    have hget : outer.getD (outer.idxOf (distance, slot)) (0, 0) = (distance, slot) := by
      rw [List.getD_eq_getElem _ _ (List.idxOf_lt_length_of_mem hmem), List.getElem_idxOf]
    simp only [captureOf, Capture.variable, hget, if_neg Bool.false_ne_true]

/-- A capture of the function around is one that it has. -/
def Capture.Found (outer : List (Nat × Nat)) (c : Capture) : Prop :=
  c.isLocal = false → c.index < outer.length

/-- The variable of a capture of a capture is the one captured around, one function further
out. -/
theorem Capture.Found.variable_eq (hc : c.Found outer) (hlocal : c.isLocal = false) :
    c.variable outer = (outer.get ⟨c.index, hc hlocal⟩ |>.map (· + 1) id) := by
  rw [Capture.variable, if_neg (by rw [hlocal]; decide), List.getD_eq_getElem _ _ (hc hlocal)]
  rfl

/-- A capture is the one of the variable that it stands for. -/
theorem captureOf_variable (hnodup : outer.Nodup) (hc : c.Found outer) :
    captureOf outer (c.variable outer) = c := by
  obtain ⟨isLocal, index⟩ := c
  cases isLocal with
  | true => rfl
  | false =>
      rw [hc.variable_eq rfl]
      exact congrArg (Capture.mk false) (hnodup.idxOf_getElem index (hc rfl))

/-- The variable of a capture is captured around. -/
theorem capturedAround_variable (hc : c.Found outer) :
    CapturedAround outer (c.variable outer) := by
  obtain ⟨isLocal, index⟩ := c
  cases isLocal with
  | true => rintro distance ⟨⟩
  | false =>
      rw [hc.variable_eq rfl]
      rintro distance ⟨⟩
      exact List.getElem_mem _

/-! ### Functions -/

/-- The function of a state, with the captures of the function around given. -/
def FunctionState.draft (h : Heap) (outer : List (Nat × Nat)) (st : FunctionState) : Draft where
  kind := st.kind
  arity := st.arity
  scope := st.scope
  constants := st.chunk.constants.toList.map h.constantOf
  captures := st.upvalues.map (Capture.variable outer)

/-- The functions of some states, innermost first. -/
def Heap.drafts (h : Heap) : List FunctionState → List Draft
  | [] => []
  | st :: sts => st.draft h (capturesOf (h.drafts sts)) :: h.drafts sts

/-- The functions of a session. -/
def Session.nest (s : Session) : Nest where
  current := s.functions.current.draft s.heap (capturesOf (s.heap.drafts s.functions.enclosing))
  around := s.heap.drafts s.functions.enclosing

section

variable {st : FunctionState} {sts : List FunctionState} {d : Draft} {ds : List Draft}
  {code : List UInt8} {codes : List (List UInt8)}

/-- There is one draft of a function. -/
theorem Models.draft_eq (hm : Models h st d code outer) : st.draft h outer = d := by
  obtain ⟨kind, arity, scope, constants, captures⟩ := d
  obtain ⟨rfl, rfl, rfl, -, hconstants, hupvalues, hlinked⟩ := hm
  have hpool : st.chunk.constants.toList.map h.constantOf = constants := by
    have heq := List.forall₂_map_left_iff.mpr (hconstants.imp fun _ _ hv => hv.constantOf_eq)
    rwa [List.forall₂_eq_eq_eq] at heq
  have hcaptures : st.upvalues.map (Capture.variable outer) = captures := by
    rw [hupvalues, List.map_map]
    exact (List.map_congr_left fun v hv => variable_captureOf (hlinked v hv)).trans
      (List.map_id _)
  rw [FunctionState.draft, hpool, hcaptures]

/-- The drafts that match a stack are read off it. -/
theorem Matches.drafts_eq (hm : Matches h sts ds codes) : h.drafts sts = ds := by
  induction hm with
  | nil => rfl
  | cons hst _ ih => rw [drafts, ih, hst.draft_eq]

/-- The codes that match a stack are those of its functions. -/
theorem Matches.code_eq (hm : Matches h sts ds codes) :
    (sts.map fun st => st.chunk.code.toList) = codes := by
  induction hm with
  | nil => rfl
  | cons hst _ ih => rw [List.map_cons, hst.code, ih]

/-- The draft read off a function models it, if its constants are live and its captures are
found. -/
theorem Models.of_live (hconstants : ∀ v ∈ st.chunk.constants.toList, h.Live v)
    (hnodup : outer.Nodup) (hupvalues : ∀ c ∈ st.upvalues, c.Found outer) :
    Models h st (st.draft h outer) st.chunk.code.toList outer where
  kind := rfl
  arity := rfl
  scope := rfl
  code := rfl
  constants := List.forall₂_map_right_iff.mpr
    (List.forall₂_same.mpr fun v hv => (hconstants v hv).denotes)
  upvalues := by
    rw [FunctionState.draft, List.map_map]
    exact ((List.map_congr_left fun c hc => captureOf_variable hnodup (hupvalues c hc)).trans
      (List.map_id _)).symm
  linked := List.forall_mem_map.mpr fun c hc => capturedAround_variable (hupvalues c hc)

/-- Different captures lead to different variables. -/
theorem Models.nodup_captures (hm : Models h st d code outer) (hnodup : st.upvalues.Nodup) :
    d.captures.Nodup :=
  List.Nodup.of_map (captureOf outer) (hm.upvalues ▸ hnodup)

/-- Captures that are valid in a function are found in its draft. -/
theorem Models.found (hm : Models h st d code outer) (hc : c.ValidIn st) :
    c.Found d.captures := by
  intro hlocal
  rw [Capture.ValidIn, if_neg (by rw [hlocal]; decide), hm.upvalues, List.length_map] at hc
  exact hc

/-- The functions of an orderly session are those of a stage. -/
theorem matches_drafts {st : FunctionState} {sts : List FunctionState}
    (hconstants : ∀ st' ∈ st :: sts, ∀ v ∈ st'.chunk.constants.toList, h.Live v)
    (hfits : ∀ st' ∈ st :: sts, st'.Fits) (hlinked : Linked st sts) :
    Matches h (st :: sts) (h.drafts (st :: sts))
      ((st :: sts).map fun st => st.chunk.code.toList) := by
  induction sts generalizing st with
  | nil =>
      have hnone : st.upvalues = [] := hlinked
      refine .cons (.of_live (hconstants st (List.mem_cons_self ..)) .nil ?_) .nil
      rw [hnone]
      rintro c ⟨⟩
  | cons outer rest ih =>
      obtain ⟨hcurrent, hconstants⟩ := List.forall_mem_cons.mp hconstants
      obtain ⟨-, hfits⟩ := List.forall_mem_cons.mp hfits
      have hrest := ih hconstants hfits hlinked.2
      cases hrest with
      | cons houter hrest =>
      have hdistinct := (hfits outer (List.mem_cons_self ..)).distinct
      refine .cons (.of_live hcurrent (houter.nodup_captures hdistinct) fun c hc => ?_)
        (.cons houter hrest)
      exact houter.found (hlinked.1 c hc)

end

/-! ### Sessions -/

namespace Session

variable {s : Session} {A : Stage}

/-- A stage that a session has reached has its nest. -/
theorem Reached.nest_eq (hs : s.Reached A) : s.nest = A.nest := by
  have hdrafts : s.heap.drafts s.functions.states = A.nest.current :: A.nest.around :=
    hs.functions.drafts_eq
  obtain ⟨hcurrent, haround⟩ := List.cons.inj hdrafts
  rw [Session.nest, hcurrent, haround]

/-- The code of a stage that was reached is that of the session. -/
theorem Reached.code_eq (hs : s.Reached A) : s.chunk.code.toList = A.code :=
  hs.current.code

/-- The code of the functions around the current one, innermost first. -/
def outerCode (s : Session) : List (List UInt8) :=
  s.functions.enclosing.map fun st => st.chunk.code.toList

/-- The code around a stage that is reached is that of the functions around. -/
theorem Reached.outerCode_eq (hs : s.Reached A) : s.outerCode = A.outer :=
  hs.enclosing.code_eq

/-- A bounded session that is not recovering has reached a stage. -/
theorem Bounded.reached (hs : s.Bounded) (halert : s.recovering = false) {ts : List Token}
    (hts : s.Expects ts) :
    s.Reached ⟨ts, s.previous, s.chunk.code.toList, s.outerCode, s.nest⟩ where
  orderly := hs.orderly
  alert := halert
  tokens := hts
  previous := rfl
  functions := by
    refine matches_drafts (fun st hst v hv => ?_) hs.fits hs.orderly.linked
    have hpool : v ∈ s.functions.pool :=
      List.mem_flatMap.mpr ⟨st.core, List.mem_map_of_mem hst, hv⟩
    exact hs.orderly.sound.closed v (.root (List.mem_append_right _
      (FunctionStack.mem_roots_iff.mpr (Or.inr hpool))))

end Session

end LoxBytecode
