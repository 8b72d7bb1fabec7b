import LoxBytecode.Proofs.Code.Stage
import LoxBytecode.Proofs.Session.Orderly

/-!
# Functions at a Stage

When the functions being compiled are those of a stage (`Matches`). Their constants are compared
by what they denote in a heap. Their captures are compared by the variables that they lead to: a
capture of the function around is the place of a variable among the captures there. Captures
are only added at the end, so what a place means does not change, and looking a name up does the
same on both sides (`Matches.resolve`).
-/

namespace LoxBytecode

/-! ### Scopes -/

/-- Making a local readable defines it in the scope. -/
theorem FunctionState.scope_markInitialized (st : FunctionState) :
    st.markInitialized.scope = st.scope.define := by
  obtain ⟨function, kind, chunk, arity, locals, upvalues, depth⟩ := st
  cases depth <;> cases locals <;> rfl

/-- Making a local readable changes nothing but the scope. -/
theorem FunctionState.markInitialized_eq (st : FunctionState) :
    st.markInitialized = { st with
      locals := st.markInitialized.locals, scopeDepth := st.markInitialized.scopeDepth } := by
  obtain ⟨function, kind, chunk, arity, locals, upvalues, depth⟩ := st
  cases depth <;> cases locals <;> rfl

/-! ### Constants -/

/-- A value of a heap is a constant. -/
inductive Heap.Denotes (h : Heap) : Value → Constant → Prop
  | plain {v : Value} : v.isObject = false → h.Denotes v (.plain v)
  | text {s : StringHandle} {text : String} : h.strings.get? s.index = some text →
      h.Denotes (.string s) (.text text)
  | function {f : FunctionHandle} : h.Denotes (.function f) .function

/-- A value denotes the same in a heap that agrees about it. -/
theorem Heap.Denotes.of_agree {h h' : Heap} {v : Value} {c : Constant} (hv : h.Denotes v c)
    (hagree : h.Agree h' v) : h'.Denotes v c := by
  cases hv with
  | plain hobject => exact .plain hobject
  | text hget => exact .text (hget ▸ hagree)
  | function => exact .function

/-! ### Functions -/

/-- The captures of the innermost of some functions. -/
def capturesOf : List Draft → List (Nat × Nat)
  | [] => []
  | d :: _ => d.captures

/-- The function around captures a variable that is further out. -/
def CapturedAround (outer : List (Nat × Nat)) (v : Nat × Nat) : Prop :=
  ∀ distance, v.1 = distance + 1 → (distance, v.2) ∈ outer

/-- A function being compiled is that of a stage, with the captures of the function around
given. -/
structure Models (h : Heap) (st : FunctionState) (d : Draft) (code : List UInt8)
    (outer : List (Nat × Nat)) : Prop where
  kind : st.kind = d.kind
  arity : st.arity = d.arity
  scope : st.scope = d.scope
  code : st.chunk.code.toList = code
  constants : List.Forall₂ h.Denotes st.chunk.constants.toList d.constants
  upvalues : st.upvalues = d.captures.map (captureOf outer)
  linked : ∀ v ∈ d.captures, CapturedAround outer v

/-- The functions being compiled are those of a stage, innermost first. -/
inductive Matches (h : Heap) : List FunctionState → List Draft → List (List UInt8) → Prop
  | nil : Matches h [] [] []
  | cons {st : FunctionState} {d : Draft} {code : List UInt8} {sts : List FunctionState}
      {ds : List Draft} {codes : List (List UInt8)} : Models h st d code (capturesOf ds) →
      Matches h sts ds codes → Matches h (st :: sts) (d :: ds) (code :: codes)

variable {h h' : Heap} {st st' : FunctionState} {sts : List FunctionState} {d d' : Draft}
  {ds : List Draft} {code code' : List UInt8} {codes : List (List UInt8)}
  {outer outer' : List (Nat × Nat)} {v w : Nat × Nat}

/-- A draft has as many constants as its function. -/
theorem Models.length_constants (hm : Models h st d code outer) :
    d.constants.length = st.chunk.constants.size :=
  hm.constants.length_eq.symm.trans Array.length_toList

/-- The code of a draft is as long as that of its function. -/
theorem Models.length_code (hm : Models h st d code outer) : code.length = st.chunk.size :=
  (congrArg List.length hm.code).symm.trans Array.length_toList

/-- The scope of a draft has the locals of its function. -/
theorem Models.locals (hm : Models h st d code outer) : st.locals = d.scope.locals :=
  congrArg Scope.locals hm.scope

/-- The scope of a draft is as deep as that of its function. -/
theorem Models.depth (hm : Models h st d code outer) : st.scopeDepth = d.scope.depth :=
  congrArg Scope.depth hm.scope

/-- A draft models its function in every heap that agrees about the constants. -/
theorem Models.of_agree (hm : Models h st d code outer)
    (hagree : ∀ v ∈ st.chunk.constants.toList, h.Agree h' v) : Models h' st d code outer := by
  refine { hm with constants := ?_ }
  exact (List.forall₂_and_left _ _).mpr ⟨hagree, hm.constants⟩ |>.imp fun _ _ hv => hv.2.of_agree hv.1

/-- Drafts model the functions of a stack in every heap that agrees about the constants. -/
theorem Matches.of_agree (hm : Matches h sts ds codes)
    (hagree : ∀ st ∈ sts, ∀ v ∈ st.chunk.constants.toList, h.Agree h' v) :
    Matches h' sts ds codes := by
  induction hm with
  | nil => exact .nil
  | cons hst _ ih =>
      obtain ⟨hhead, htail⟩ := List.forall_mem_cons.mp hagree
      exact .cons (hst.of_agree hhead) (ih htail)

/-- A constant that is added to both keeps the draft a model. -/
theorem Models.addConstant {h : Heap} {st : FunctionState} {d : Draft} {code : List UInt8}
    {outer : List (Nat × Nat)} (hm : Models h st d code outer) {v : Value} {c : Constant}
    (hv : h.Denotes v c) :
    Models h { st with chunk := (st.chunk.addConstant v).2 }
      { d with constants := d.constants ++ [c] } code outer := by
  refine { hm with constants := ?_ }
  rw [Chunk.constants_addConstant, Array.toList_push]
  exact List.rel_append hm.constants (.cons hv .nil)

/-! ### Captures -/

/-- A capture keeps its place when more are added around. -/
theorem captureOf_grown (hgrown : outer <+: outer') (hv : CapturedAround outer v) :
    captureOf outer' v = captureOf outer v := by
  obtain ⟨- | distance, slot⟩ := v
  · rfl
  · obtain ⟨more, rfl⟩ := hgrown
    exact congrArg (Capture.mk false) (List.idxOf_append_of_mem (hv distance rfl))

/-- A capture stays one when more is captured. -/
theorem CapturedAround.grown (hgrown : outer <+: outer') (hv : CapturedAround outer v) :
    CapturedAround outer' v :=
  fun distance heq => hgrown.subset (hv distance heq)

/-- Different variables are different captures. -/
theorem captureOf_inj (hv : CapturedAround outer v) (hw : CapturedAround outer w)
    (heq : captureOf outer v = captureOf outer w) : v = w := by
  obtain ⟨- | distance, slot⟩ := v <;> obtain ⟨- | distance', slot'⟩ := w
  · rw [(Capture.mk.inj heq).2]
  · cases (Capture.mk.inj heq).1
  · cases (Capture.mk.inj heq).1
  · have hidx := (List.idxOf_inj (hv distance rfl)).mp (Capture.mk.inj heq).2
    cases hidx
    rfl

/-- A draft stays a model when more is captured around it. -/
theorem Models.grown (hm : Models h st d code outer) (hgrown : outer <+: outer') :
    Models h st d code outer' :=
  { hm with
    upvalues := hm.upvalues.trans
      (List.map_congr_left fun v hv => (captureOf_grown hgrown (hm.linked v hv)).symm)
    linked := fun v hv => (hm.linked v hv).grown hgrown }

/-- A capture stands where its variable does. -/
theorem idxOf?_map_captureOf {vs : List (Nat × Nat)} (hv : CapturedAround outer v)
    (hvs : ∀ w ∈ vs, CapturedAround outer w) :
    (vs.map (captureOf outer)).idxOf? (captureOf outer v) = vs.idxOf? v := by
  induction vs with
  | nil => rfl
  | cons w vs ih =>
      obtain ⟨hw, hvs⟩ := List.forall_mem_cons.mp hvs
      rw [List.map_cons, List.idxOf?_cons, List.idxOf?_cons, ih hvs]
      by_cases heq : w = v
      · simp [heq]
      · have hne : captureOf outer w ≠ captureOf outer v := fun h => heq (captureOf_inj hw hv h)
        simp [heq, hne]

/-- Capturing a variable does the same on both sides. -/
theorem Models.tryCapture (hm : Models h st d code outer) (hv : CapturedAround outer v) :
    (st.addUpvalue (captureOf outer v)).1.map some =
        (d.tryCapture v).1.map (Option.map (d.tryCapture v).2.captures.idxOf) ∧
      Models h (st.addUpvalue (captureOf outer v)).2 (d.tryCapture v).2 code outer ∧
      d.captures <+: (d.tryCapture v).2.captures ∧
      ∀ w, (d.tryCapture v).1 = .ok (some w) → w ∈ (d.tryCapture v).2.captures := by
  have hidx := idxOf?_map_captureOf hv hm.linked
  have hlength : st.upvalues.length = d.captures.length := by
    rw [hm.upvalues, List.length_map]
  rw [FunctionState.addUpvalue, Draft.tryCapture]
  by_cases hmem : v ∈ d.captures
  · have hfound : st.upvalues.idxOf? (captureOf outer v) = some (d.captures.idxOf v) := by
      rw [hm.upvalues, hidx, List.idxOf_eq_getD_idxOf?]
      cases hi : d.captures.idxOf? v with
      | none => exact absurd hmem (List.idxOf?_eq_none_iff.mp hi)
      | some i => rfl
    have hcapture : d.capture v = d := if_pos hmem
    rw [hfound, if_pos (Or.inl hmem), hcapture]
    refine ⟨rfl, hm, List.prefix_refl _, ?_⟩
    rintro w ⟨⟩
    exact hmem
  · have hnone : st.upvalues.idxOf? (captureOf outer v) = none := by
      rw [hm.upvalues, hidx]
      exact List.idxOf?_eq_none_iff.mpr hmem
    have hcapture : d.capture v = { d with captures := d.captures ++ [v] } := if_neg hmem
    rw [hnone]
    by_cases hroom : d.captures.length < maxSlots
    · simp only [hlength, if_pos hroom, if_pos (Or.inr hroom : v ∈ d.captures ∨ _), hcapture]
      refine ⟨?_, ?_, List.prefix_append .., ?_⟩
      · simp [Except.map, List.idxOf_append_of_notMem hmem]
      · refine { hm with upvalues := ?_, linked := ?_ }
        · simp [hm.upvalues]
        · intro w hw
          rcases List.mem_append.mp hw with hw | hw
          · exact hm.linked w hw
          · exact List.mem_singleton.mp hw ▸ hv
      · rintro w ⟨⟩
        simp
    · have hfull : ¬ (v ∈ d.captures ∨ d.captures.length < maxSlots) := by
        rintro (hin | hin)
        · exact hmem hin
        · exact hroom hin
      simp only [hlength, if_neg hroom, if_neg hfull]
      exact ⟨rfl, hm, List.prefix_refl _, by rintro w ⟨⟩⟩

/-- Marking a local as captured does the same on both sides. -/
theorem Models.mark (hm : Models h st d code outer) {slot : Nat}
    (hslot : slot < st.locals.length) : Models h (st.capture slot) (d.mark slot) code outer := by
  rw [FunctionState.capture, if_pos hslot]
  refine { hm with scope := ?_ }
  have hlocals := hm.locals
  have hdepth := hm.depth
  simp only [FunctionState.scope, Draft.mark, hlocals, hdepth]

/-- What looking a name up from inside some functions comes to, on both sides. -/
structure SameResolution (h : Heap) (d : Draft) (codes : List (List UInt8))
    (r : Except ScopeError (Option Nat) × FunctionState × List FunctionState)
    (r' : Except ScopeError (Option (Nat × Nat)) × Draft × List Draft) : Prop where
  found : r.1 = r'.1.map (Option.map r'.2.1.captures.idxOf)
  states : Matches h (r.2.1 :: r.2.2) (r'.2.1 :: r'.2.2) codes
  grown : d.captures <+: r'.2.1.captures
  captured : ∀ v, r'.1 = .ok (some v) → v ∈ r'.2.1.captures

/-- Capturing in the innermost function when those around are settled. -/
theorem SameResolution.of_tryCapture (hm : Models h st d code (capturesOf ds))
    (hrest : Matches h sts ds codes) (hv : CapturedAround (capturesOf ds) v) :
    SameResolution h d (code :: codes)
      ((st.addUpvalue (captureOf (capturesOf ds) v)).1.map some,
        (st.addUpvalue (captureOf (capturesOf ds) v)).2, sts)
      ((d.tryCapture v).1, (d.tryCapture v).2, ds) := by
  obtain ⟨hfound, hmodels, hgrown, hcaptured⟩ := hm.tryCapture hv
  exact ⟨hfound, .cons hmodels hrest, hgrown, hcaptured⟩

/-- A name is resolved in the drafts as in the functions. -/
theorem Matches.resolve (name : String) {inner : FunctionState} {outers : List FunctionState}
    (hm : Matches h (inner :: outers) (d :: ds) codes) :
    SameResolution h d codes (resolveCapture name inner outers) (resolveAround name d ds) := by
  induction outers generalizing inner d ds codes with
  | nil =>
      cases hm with
      | cons hinner hnil =>
      cases hnil
      exact ⟨rfl, .cons hinner .nil, List.prefix_refl _, by rintro v ⟨⟩⟩
  | cons outer rest ih =>
      cases hm with
      | cons hinner houters =>
      cases houters with
      | @cons _ o _ _ os _ houter hrest =>
      rw [resolveCapture, resolveAround, FunctionState.resolveLocal, houter.locals]
      cases hfind : FunctionState.findLocal? name o.scope.locals with
      | some found =>
          obtain ⟨slot, l⟩ := found
          cases hdepth : l.depth with
          | none =>
              simp only [hdepth, Option.isNone_none, if_true]
              exact ⟨rfl, .cons hinner (.cons houter hrest), List.prefix_refl _, by rintro v ⟨⟩⟩
          | some depth =>
              simp only [hdepth, Option.isNone_some, Bool.false_eq_true, if_false]
              have hslot : slot < outer.locals.length :=
                houter.locals ▸ FunctionState.lt_of_findLocal? hfind
              have hinner : Models h inner d _ (capturesOf (o.mark slot :: os)) := hinner
              exact SameResolution.of_tryCapture (v := (0, slot)) hinner
                (.cons (houter.mark hslot) hrest) (by simp [CapturedAround])
      | none =>
          have hih := ih (.cons houter hrest)
          simp only
          rcases hres : resolveCapture name outer rest with ⟨found, outer', rest'⟩
          rcases hres' : resolveAround name o os with ⟨found', o', os'⟩
          rw [hres, hres'] at hih
          obtain ⟨hfound, hstates, hgrown, hcaptured⟩ := hih
          have hinner' : Models h inner d _ (capturesOf (o' :: os')) := hinner.grown hgrown
          dsimp only at hfound hstates hcaptured ⊢
          subst hfound
          rcases found' with e | (- | ⟨distance, slot⟩)
          · exact ⟨rfl, .cons hinner' hstates, List.prefix_refl _, by rintro v ⟨⟩⟩
          · exact ⟨rfl, .cons hinner' hstates, List.prefix_refl _, by rintro v ⟨⟩⟩
          · refine SameResolution.of_tryCapture (v := (distance + 1, slot)) hinner' hstates ?_
            rintro _ ⟨⟩
            exact hcaptured _ rfl

end LoxBytecode
