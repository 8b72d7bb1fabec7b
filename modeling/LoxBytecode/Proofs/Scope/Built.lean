import LoxBytecode.Proofs.Scope.Origins

/-!
# Stacks Built by Lookups

A stack of functions comes about by beginning and ending functions, by declaring locals in the
current one and by looking names up, from any level and in any order (`FunctionStack.Built`).
Every lookup leaves captures that exist and that are there once (`FunctionStack.Ordered`), so that
what the next one does can be said without the history.
-/

namespace LoxBytecode

namespace FunctionStack

/-! ### Lookups in a whole stack -/

/-- Captures exist and are there once, and locals and captures fit their tables. -/
structure Ordered (s : FunctionStack) : Prop where
  linked : Linked s.current s.enclosing
  fits : ∀ st ∈ s.states, st.Fits

variable {s t : FunctionStack} {level : Nat} {name : String}
  {found : Except ScopeError (Option Nat)} {inner inner' current current' : FunctionState}
  {outers outers' enclosing enclosing' before after : List FunctionState}

/-- The functions being compiled, innermost first, are the levels read backwards. -/
theorem states_eq_of_levels (h : s.levels = outers.reverse ++ inner :: after) :
    s.states = after.reverse ++ inner :: outers := by
  have hreverse := congrArg List.reverse h
  rwa [levels, List.reverse_reverse, List.reverse_append, List.reverse_cons,
    List.reverse_reverse, List.append_assoc, List.singleton_append] at hreverse

/-- The function at a level stands between those around it and those further in. -/
theorem exists_levels (h : level ≤ s.level) :
    ∃ (inner : FunctionState) (outers after : List FunctionState),
      s.levels = outers.reverse ++ inner :: after ∧ outers.length = level := by
  have hlength : s.levels.length = s.level + 1 := by
    rw [levels, states, List.length_reverse]
    rfl
  have hlt : level < s.levels.length := by omega
  refine ⟨s.levels[level], (s.levels.take level).reverse, s.levels.drop (level + 1), ?_, ?_⟩
  · rw [List.reverse_reverse, List.getElem_cons_drop, List.take_append_drop]
  · rw [List.length_reverse, List.length_take_of_le (Nat.le_of_lt hlt)]

/-- One level past the current function there is no table for what is found. The search is that of
the current function. -/
theorem eq_of_resolvePast (h : s.resolvePast name = .ok (found, t)) :
    t = s ∨ t = (s.resolveUpvalue name).2 := by
  rw [resolvePast] at h
  split at h
  · cases h
    exact .inl rfl
  · cases h
  · rcases hresolve : s.resolveUpvalue name with ⟨e | (- | index), u⟩ <;> rw [hresolve] at h <;>
      cases h
    · exact .inr rfl
    · exact .inr rfl

/-- A lookup does nothing to a stack but what it does to the functions from a level on. -/
theorem exists_of_resolveUpvalueAt (h : s.resolveUpvalueAt level name = .ok (found, t)) :
    t = s ∨ ∃ inner outers after, s.levels = outers.reverse ++ inner :: after ∧
      t.levels = (resolveCapture name inner outers).2.2.reverse ++
        (resolveCapture name inner outers).2.1 :: after := by
  by_cases hlevel : level ≤ s.level
  · obtain ⟨inner, outers, after, hlevels, rfl⟩ := exists_levels hlevel
    obtain ⟨t', ht, hlevels'⟩ := exists_resolveUpvalueAt name hlevels
    obtain ⟨-, rfl⟩ := Prod.mk.inj (Except.ok.inj (ht.symm.trans h))
    exact .inr ⟨inner, outers, after, hlevels, hlevels'⟩
  · rw [FunctionStack.resolveUpvalueAt, if_neg hlevel] at h
    split at h
    · refine (eq_of_resolvePast h).imp_right ?_
      rintro rfl
      exact ⟨s.current, s.enclosing, [], List.reverse_cons, List.reverse_cons⟩
    · cases h

/-- Any function on a linked stack is linked to those around it. -/
theorem linked_of_append (h : Linked current enclosing)
    (hstates : current :: enclosing = before ++ inner :: outers) : Linked inner outers := by
  induction before generalizing current enclosing with
  | nil =>
      obtain ⟨rfl, rfl⟩ := List.cons_eq_cons.mp hstates
      exact h
  | cons b before ih =>
      obtain ⟨rfl, henclosing⟩ := List.cons_eq_cons.mp hstates
      cases enclosing with
      | nil => simp at henclosing
      | cons outer rest => exact ih h.2 henclosing

/-- Functions that grow keep the captures of those further in. -/
theorem linked_append (h : Linked current enclosing)
    (hstates : current :: enclosing = before ++ inner :: outers)
    (hstates' : current' :: enclosing' = before ++ inner' :: outers') (hgrows : inner.Grows inner')
    (hlinked : Linked inner' outers') : Linked current' enclosing' := by
  induction before generalizing current enclosing current' enclosing' with
  | nil =>
      obtain ⟨rfl, rfl⟩ := List.cons_eq_cons.mp hstates'
      exact hlinked
  | cons b before ih =>
      obtain ⟨rfl, henclosing⟩ := List.cons_eq_cons.mp hstates
      obtain ⟨rfl, henclosing'⟩ := List.cons_eq_cons.mp hstates'
      cases enclosing with
      | nil => simp at henclosing
      | cons outer rest =>
          cases enclosing' with
          | nil => simp at henclosing'
          | cons outer' rest' =>
              have houter : outer.Grows outer' := by
                cases before with
                | nil =>
                    obtain ⟨rfl, -⟩ := List.cons_eq_cons.mp henclosing
                    obtain ⟨rfl, -⟩ := List.cons_eq_cons.mp henclosing'
                    exact hgrows
                | cons c before =>
                    obtain ⟨rfl, -⟩ := List.cons_eq_cons.mp henclosing
                    obtain ⟨rfl, -⟩ := List.cons_eq_cons.mp henclosing'
                    exact .refl _
              exact ⟨fun c hc => (h.1 c hc).of_grows houter, ih h.2 henclosing henclosing'⟩

/-- A lookup keeps a stack ordered. -/
theorem Ordered.resolveUpvalueAt (hs : s.Ordered)
    (h : s.resolveUpvalueAt level name = .ok (found, t)) : t.Ordered := by
  rcases exists_of_resolveUpvalueAt h with rfl | ⟨inner, outers, after, hlevels, hlevels'⟩
  · exact hs
  · have hstates := states_eq_of_levels hlevels
    have hstates' := states_eq_of_levels hlevels'
    have hspec := resolveCapture_spec name inner outers
    have hfits := hs.fits
    rw [hstates, List.forall_mem_append] at hfits
    refine ⟨?_, ?_⟩
    · exact linked_append hs.linked hstates hstates' hspec.grows
        (hspec.linked (linked_of_append hs.linked hstates))
    · rw [hstates', List.forall_mem_append]
      exact ⟨hfits.1, fits_resolveCapture hfits.2⟩

/-! ### Histories of a stack -/

/-- A stack all of whose captures were added by looking names up in it. Of the current function
anything else may change at any time. -/
inductive Built : FunctionStack → Prop
  | script {st : FunctionState} : st.locals.length ≤ maxSlots → st.upvalues = [] →
      Built (.ofScript st)
  | push {s : FunctionStack} {st : FunctionState} : Built s → st.locals.length ≤ maxSlots →
      st.upvalues = [] → Built (s.push st)
  | pop {s t : FunctionStack} {st : FunctionState} : Built s → s.pop? = some (st, t) → Built t
  | edit {s : FunctionStack} {st : FunctionState} : Built s → st.locals.length ≤ maxSlots →
      st.upvalues = s.current.upvalues → Built ⟨st, s.enclosing⟩
  | resolve {s t : FunctionStack} {level : Nat} {name : String}
      {found : Except ScopeError (Option Nat)} : Built s →
      s.resolveUpvalueAt level name = .ok (found, t) → Built t

/-- A function without captures fits its operands if its locals do. -/
theorem fits_of_upvalues_eq_nil {st : FunctionState} (hlocals : st.locals.length ≤ maxSlots)
    (hupvalues : st.upvalues = []) : st.Fits :=
  ⟨hlocals, hupvalues ▸ Nat.zero_le _, hupvalues ▸ .nil⟩

/-- A stack that was built has its functions in order. -/
theorem Built.ordered (h : s.Built) : s.Ordered := by
  induction h with
  | script hlocals hupvalues =>
      exact ⟨hupvalues, List.forall_mem_singleton.mpr (fits_of_upvalues_eq_nil hlocals hupvalues)⟩
  | @push s st _ hlocals hupvalues ih =>
      refine ⟨⟨fun c hc => ?_, ih.linked⟩,
        List.forall_mem_cons.mpr ⟨fits_of_upvalues_eq_nil hlocals hupvalues, ih.fits⟩⟩
      have hmem : c ∈ st.upvalues := hc
      rw [hupvalues] at hmem
      cases hmem
  | @pop s t st _ hpop ih =>
      obtain ⟨current, enclosing⟩ := s
      cases enclosing with
      | nil => cases hpop
      | cons parent rest =>
          cases hpop
          exact ⟨ih.linked.2, (List.forall_mem_cons.mp ih.fits).2⟩
  | @edit s st _ hlocals hupvalues ih =>
      obtain ⟨hcurrent, henclosing⟩ := List.forall_mem_cons.mp ih.fits
      exact ⟨ih.linked.of_upvalues hupvalues, List.forall_mem_cons.mpr
        ⟨⟨hlocals, hupvalues ▸ hcurrent.upvalues, hupvalues ▸ hcurrent.distinct⟩, henclosing⟩⟩
  | resolve _ hresolve ih => exact ih.resolveUpvalueAt hresolve

end FunctionStack

end LoxBytecode
