import LoxBytecode.Proofs.Scope.Built

/-!
# Lookups in a Built Stack

What a name stands for is said here without the search: of all locals of that name below a level,
the one at the highest level, and there the one in the highest slot (`Refers`). In a stack that was
built by lookups, the next one finds just that local (`Lookup`), and every index at a level stands
for one variable, whichever lookup added it (`Distinct`).
-/

namespace LoxBytecode

namespace FunctionStack

variable {s t : FunctionStack} {level k slot : Nat} {name : String} {l : Local}
  {found : Except ScopeError (Option Nat)} {inner : FunctionState}
  {ls ls' outers before after : List FunctionState}

/-! ### Variables by their levels -/

/-- The local in a slot of the function at a level. -/
def localAt? (levels : List FunctionState) (level slot : Nat) : Option Local :=
  levels[level]?.bind fun st => st.locals.reverse[slot]?

/-- The captures of the function at a level and of those around it, innermost first. -/
def tablesFrom (levels : List FunctionState) (level : Nat) : List (List Capture) :=
  (levels.take (level + 1)).reverse.map FunctionState.upvalues

/-- The local that a name stands for below a level: of all locals of that name there, the one in
the function with the highest level, and there the one in the highest slot. -/
structure Refers (levels : List FunctionState) (level : Nat) (name : String) (k slot : Nat)
    (l : Local) : Prop where
  below : k < level
  found : localAt? levels k slot = some l
  named : l.name = name
  highest : ∀ k' slot' l', k' < level → localAt? levels k' slot' = some l' → l'.name = name →
    k' < k ∨ k' = k ∧ slot' ≤ slot

/-- The state of a level is at its place among the levels. -/
theorem getElem?_levels {st : FunctionState} (hls : ls = before ++ st :: after) :
    ls[before.length]? = some st := by
  rw [hls, List.getElem?_append_right (Nat.le_refl _), Nat.sub_self]
  rfl

/-- The tables up to a level are those of its function and of the ones around it. -/
theorem tablesFrom_eq (hls : ls = outers.reverse ++ inner :: after) {j : Nat}
    (hj : j ≤ outers.length) :
    tablesFrom ls (outers.length - j) = ((inner :: outers).drop j).map FunctionState.upvalues := by
  have htake : ls.take (outers.length - j + 1) = ((inner :: outers).drop j).reverse := by
    rw [hls, ← List.singleton_append, ← List.append_assoc, ← List.reverse_cons,
      List.take_append_of_le_length (by simp), List.reverse_drop]
    congr 1
    simp
    omega
  rw [tablesFrom, htake, List.reverse_reverse]

/-- Counted from the inside, what a name stands for is what the search finds. -/
theorem Refers.owner (h : Refers ls outers.length name k slot l)
    (hls : ls = outers.reverse ++ inner :: after) :
    Owner name outers (outers.length - 1 - k) slot l := by
  induction outers generalizing inner after with
  | nil => exact absurd h.below (Nat.not_lt_zero k)
  | cons outer rest ih =>
      have hrest : ls = rest.reverse ++ outer :: inner :: after := by simpa using hls
      have houter : ls[rest.length]? = some outer := by
        simpa using getElem?_levels hrest
      rcases Nat.lt_or_eq_of_le (Nat.le_of_lt_succ h.below) with hlt | rfl
      · have hnone : FunctionState.findLocal? name outer.locals = none := by
          refine FunctionState.findLocal?_eq_none fun l' hl' hname => ?_
          obtain ⟨slot', hslot'⟩ := List.mem_iff_getElem?.mp (List.mem_reverse.mpr hl')
          have hbelow := h.highest rest.length slot' l' (Nat.lt_succ_self _)
            (by rw [localAt?, houter]; exact hslot') hname
          omega
        have hout : (outer :: rest).length - 1 - k = rest.length - 1 - k + 1 := by
          rw [List.length_cons]
          omega
        rw [hout]
        refine .out hnone (ih ⟨hlt, h.found, h.named, fun k' slot' l' hk' => ?_⟩ hrest)
        exact h.highest k' slot' l' (Nat.lt_succ_of_lt hk')
      · have hlocal (slot' : Nat) : localAt? ls rest.length slot' = outer.locals.reverse[slot']? := by
          rw [localAt?, houter]
          rfl
        have hout : (outer :: rest).length - 1 - rest.length = 0 := by simp
        rw [hout]
        refine .here (FunctionState.findLocal?_of_highest ((hlocal slot).symm.trans h.found) h.named
          fun slot' l' hslot' hname => ?_)
        have hhighest := h.highest rest.length slot' l' (Nat.lt_succ_self _)
          ((hlocal slot').trans hslot') hname
        omega

/-- A name that has a local below a level stands for one. -/
theorem exists_refers (hk : k < level) (hfound : localAt? ls k slot = some l)
    (hname : l.name = name) : ∃ k slot l, Refers ls level name k slot l := by
  induction level with
  | zero => cases hk
  | succ level ih =>
      have hlocal {st : FunctionState} (hst : ls[level]? = some st) (slot : Nat) :
          localAt? ls level slot = st.locals.reverse[slot]? := by
        rw [localAt?, hst]
        rfl
      by_cases hhere : ∃ slot l, localAt? ls level slot = some l ∧ l.name = name
      · obtain ⟨slot', l', hslot', hname'⟩ := hhere
        obtain ⟨st, hst, hmem⟩ := Option.bind_eq_some_iff.mp hslot'
        cases hfind : FunctionState.findLocal? name st.locals with
        | none =>
            exact absurd hname' (FunctionState.ne_of_findLocal?_eq_none hfind l'
              (List.mem_reverse.mp (List.mem_of_getElem? hmem)))
        | some p =>
            obtain ⟨hslot, hl, highest⟩ := FunctionState.highest_of_findLocal? hfind
            refine ⟨level, p.1, p.2, Nat.lt_succ_self _, (hlocal hst _).trans hslot, hl,
              fun k' slot' l' hk' hfound' hname' => ?_⟩
            rcases Nat.lt_or_eq_of_le (Nat.le_of_lt_succ hk') with hlt | rfl
            · exact .inl hlt
            · exact .inr ⟨rfl, highest slot' l' ((hlocal hst _).symm.trans hfound') hname'⟩
      · have hlt : k < level := by
          rcases Nat.lt_or_eq_of_le (Nat.le_of_lt_succ hk) with hlt | rfl
          · exact hlt
          · exact absurd ⟨slot, l, hfound, hname⟩ hhere
        obtain ⟨k, slot, l, h⟩ := ih hlt
        refine ⟨k, slot, l, Nat.lt_succ_of_lt h.below, h.found, h.named,
          fun k' slot' l' hk' hfound' hname' => ?_⟩
        rcases Nat.lt_or_eq_of_le (Nat.le_of_lt_succ hk') with hlt' | rfl
        · exact h.highest k' slot' l' hlt' hfound' hname'
        · exact absurd ⟨slot', l', hfound', hname'⟩ hhere

/-- A name that refers to nothing is no local of any function around. -/
theorem findLocal?_of_absent (hls : ls = outers.reverse ++ inner :: after)
    (h : ∀ k slot l, ¬ Refers ls outers.length name k slot l) :
    ∀ st ∈ outers, FunctionState.findLocal? name st.locals = none := by
  intro st hst
  obtain ⟨k, hk⟩ := List.mem_iff_getElem?.mp (List.mem_reverse.mpr hst)
  have hlt : k < outers.length := by simpa using (List.getElem?_eq_some_iff.mp hk).1
  refine FunctionState.findLocal?_eq_none fun l hl hname => ?_
  obtain ⟨slot, hslot⟩ := List.mem_iff_getElem?.mp (List.mem_reverse.mpr hl)
  have hfound : localAt? ls k slot = some l := by
    rw [localAt?, hls, List.getElem?_append_left (by simpa using hlt), hk]
    exact hslot
  obtain ⟨k, slot, l, hrefers⟩ := exists_refers hlt hfound hname
  exact h k slot l hrefers

/-- The search finds a capture just when no table on the way is full that needs a new one. -/
theorem Refers.fst_resolveCapture (h : Refers ls outers.length name k slot l)
    (hls : ls = outers.reverse ++ inner :: after) (hl : l.depth ≠ none)
    (hlinked : Linked inner outers) (hfits : ∀ st ∈ inner :: outers, st.Fits) :
    (∃ i, (resolveCapture name inner outers).1 = .ok (some i)) ∧
        (∀ j, k < j → j ≤ outers.length → HasRoom (tablesFrom ls j) (j - 1 - k, slot)) ∨
      (resolveCapture name inner outers).1 = .error .tooManyUpvalues ∧
        ∃ j, k < j ∧ j ≤ outers.length ∧ ¬ HasRoom (tablesFrom ls j) (j - 1 - k, slot) := by
  have hbelow := h.below
  have hroom {j : Nat} (hj : j ≤ outers.length) :
      HasRoom (tablesFrom ls (outers.length - j)) (outers.length - j - 1 - k, slot) ↔
        HasRoom (((inner :: outers).drop j).map FunctionState.upvalues)
          (outers.length - 1 - k - j, slot) := by
    have hout : outers.length - j - 1 - k = outers.length - 1 - k - j := by omega
    rw [hout, tablesFrom_eq hls hj]
  refine ((h.owner hls).fst_resolveCapture hl hlinked hfits).imp
    (And.imp_right fun hrooms j hkj hj => ?_) (And.imp_right ?_)
  · have hback : outers.length - (outers.length - j) = j := by omega
    have hdrop := (hroom (Nat.sub_le outers.length j)).mpr (hrooms (outers.length - j) (by omega))
    rwa [hback] at hdrop
  · rintro ⟨j, hj, hfull⟩
    exact ⟨outers.length - j, by omega, Nat.sub_le .., mt (hroom (by omega)).mp hfull⟩

/-! ### Marks by their levels -/

/-- Changing an element is changing it from the other end of the list read backwards. -/
theorem reverse_modify_append {α : Type} (f : α → α) {xs ys : List α} {i : Nat}
    (hi : i < xs.length) :
    (xs.modify (xs.length - 1 - i) f).reverse ++ ys = (xs.reverse ++ ys).modify i f := by
  refine List.ext_getElem? fun j => ?_
  have hlength : (xs.modify (xs.length - 1 - i) f).reverse.length = xs.length := by simp
  rw [List.getElem?_modify, List.getElem?_append, List.getElem?_append, hlength,
    List.length_reverse]
  split
  next hj =>
    have hij : xs.length - 1 - i = xs.length - 1 - j ↔ i = j := by omega
    rw [List.getElem?_reverse (by simpa using hj), List.getElem?_reverse hj,
      List.getElem?_modify, List.length_modify]
    simp only [hij]
  next hj =>
    have hij : i ≠ j := by omega
    simp [hij]

/-- A level at which one local is marked, and the others as they were. -/
theorem localAt?_of_modify
    (h : ls'.map FunctionState.locals =
      (ls.map FunctionState.locals).modify k (markAll [⟨true, slot⟩]))
    (hl : localAt? ls k slot = some l) (k' slot' : Nat) :
    localAt? ls' k' slot' =
      if k' = k ∧ slot' = slot then some { l with captured := true } else localAt? ls k' slot' := by
  have hlocals (ls : List FunctionState) (k slot : Nat) : localAt? ls k slot =
      (ls.map FunctionState.locals)[k]?.bind fun locals => locals.reverse[slot]? := by
    rw [localAt?, List.getElem?_map, Option.bind_map]
    rfl
  rw [hlocals] at hl
  rw [hlocals ls', hlocals ls, h, List.getElem?_modify]
  by_cases hk : k = k'
  · subst hk
    obtain ⟨locals, hlocals, hslot⟩ := Option.bind_eq_some_iff.mp hl
    rw [hlocals]
    by_cases hslot' : slot' = slot
    · subst hslot'
      simp [hslot, getElem?_markAll]
    · simp [hslot', getElem?_markAll]
  · have hk' : k' ≠ k := Ne.symm hk
    simp [hk, hk']

/-- Searching a stack marks the local that the name stands for. -/
theorem map_locals_reverse (h : Owner name outers (outers.length - 1 - k) slot l)
    (hk : k < outers.length) (hl : l.depth ≠ none) :
    ((resolveCapture name inner outers).2.2.reverse ++
        (resolveCapture name inner outers).2.1 :: after).map FunctionState.locals =
      ((outers.reverse ++ inner :: after).map FunctionState.locals).modify k
        (markAll [⟨true, slot⟩]) := by
  have hinner : (resolveCapture name inner outers).2.1.locals = inner.locals := by
    rw [(resolveCapture_spec name inner outers).inner_eq]
  have houters : (resolveCapture name inner outers).2.2.map FunctionState.locals = _ :=
    h.locals_resolveCapture hl
  rw [List.map_append, List.map_append, List.map_reverse, List.map_reverse, houters,
    List.map_cons, List.map_cons, hinner]
  have hlength : (outers.map FunctionState.locals).length = outers.length := List.length_map ..
  rw [← hlength]
  exact reverse_modify_append _ (hlength ▸ hk)

/-! ### What a lookup does -/

/-- What looking a name up from a level does. -/
structure Lookup (s : FunctionStack) (level : Nat) (name : String)
    (found : Except ScopeError (Option Nat)) (t : FunctionStack) : Prop where
  absent : (∀ k slot l, ¬ Refers s.levels level name k slot l) → found = .ok none ∧ t = s
  waiting : ∀ k slot l, Refers s.levels level name k slot l → l.depth = none →
    found = .error .ownInitializer ∧ t = s
  /-- Where no table is full that needs a new capture, the one that is found leads to the local. -/
  captured : ∀ k slot l, Refers s.levels level name k slot l → l.depth ≠ none →
    (∀ j, k < j → j ≤ level → HasRoom (tablesFrom s.levels j) (j - 1 - k, slot)) →
      ∃ i, found = .ok (some i) ∧
        originOf? (tablesFrom t.levels level) i = some (level - 1 - k, slot)
  full : ∀ k slot l, Refers s.levels level name k slot l → l.depth ≠ none →
    ∀ j, k < j → j ≤ level → ¬ HasRoom (tablesFrom s.levels j) (j - 1 - k, slot) →
      found = .error .tooManyUpvalues
  marks : ∀ k slot l, Refers s.levels level name k slot l → l.depth ≠ none →
    ∀ k' slot', localAt? t.levels k' slot' =
      if k' = k ∧ slot' = slot then some { l with captured := true }
      else localAt? s.levels k' slot'
  /-- Of the functions, only marks change and the captures at the end of a table. -/
  grows : List.Forall₂ FunctionState.Grows s.levels t.levels
  /-- The search indexes no level that is not there, and all that it narrows fits one byte. -/
  search : resolveAt name level s.levels = .ok (found, t.levels)
  again : t.resolveUpvalueAt level name = .ok (found, t)

/-- The captures of a stack are there once, fit their tables, and stand for different variables. -/
structure Distinct (s : FunctionStack) : Prop where
  nodup : ∀ st ∈ s.levels, st.upvalues.Nodup
  bounded : ∀ st ∈ s.levels, st.upvalues.length ≤ maxSlots
  leads : ∀ level st i, s.levels[level]? = some st → i < st.upvalues.length →
    ∃ k slot l, k < level ∧ localAt? s.levels k slot = some l ∧
      originOf? (tablesFrom s.levels level) i = some (level - 1 - k, slot)
  different : ∀ level i j place, originOf? (tablesFrom s.levels level) i = some place →
    originOf? (tablesFrom s.levels level) j = some place → i = j

/-- Captures that are in order are distinct. -/
theorem Ordered.distinct (hs : s.Ordered) : s.Distinct where
  nodup st hst := (hs.fits st (List.mem_reverse.mp hst)).distinct
  bounded st hst := (hs.fits st (List.mem_reverse.mp hst)).upvalues
  leads level st i hst hi := by
    have hlevel : level ≤ s.level := by
      have hlt := (List.getElem?_eq_some_iff.mp hst).1
      rw [levels, states, List.length_reverse] at hlt
      exact Nat.le_of_lt_succ hlt
    obtain ⟨inner, outers, after, hlevels, rfl⟩ := exists_levels hlevel
    have hinner := getElem?_levels hlevels
    rw [List.length_reverse, hst] at hinner
    obtain rfl := Option.some.inj hinner
    have hlinked := linked_of_append hs.linked (states_eq_of_levels hlevels)
    obtain ⟨out, slot, owner, horigin, howner, hslot⟩ := hlinked.exists_originOf? hi
    have hout : out < outers.length := (List.getElem?_eq_some_iff.mp howner).1
    obtain ⟨l, hl⟩ : ∃ l, owner.locals.reverse[slot]? = some l :=
      ⟨_, List.getElem?_eq_getElem (by simpa using hslot)⟩
    refine ⟨outers.length - 1 - out, slot, l, by omega, ?_, ?_⟩
    · have hback : outers.length - 1 - (outers.length - 1 - out) = out := by omega
      rw [localAt?, hlevels, List.getElem?_append_left (by simp; omega),
        List.getElem?_reverse (by omega), hback, howner]
      exact hl
    · have hback : outers.length - 1 - (outers.length - 1 - out) = out := by omega
      rw [hback, ← horigin]
      exact congrArg (originOf? · i) (tablesFrom_eq hlevels (Nat.zero_le _))
  different level i j place := by
    refine originOf?_injective fun table htable => ?_
    obtain ⟨st, hst, rfl⟩ := List.mem_map.mp htable
    have hmem := List.mem_of_mem_take (List.mem_reverse.mp hst)
    exact (hs.fits st (List.mem_reverse.mp hmem)).distinct

/-- A lookup in a stack finds what the name stands for. -/
theorem Ordered.lookup (hs : s.Ordered) (hlevel : level ≤ s.level)
    (h : s.resolveUpvalueAt level name = .ok (found, t)) : Lookup s level name found t := by
  obtain ⟨inner, outers, after, hlevels, rfl⟩ := exists_levels hlevel
  obtain ⟨t', ht, hlevels'⟩ := exists_resolveUpvalueAt name hlevels
  obtain ⟨rfl, rfl⟩ := Prod.mk.inj (Except.ok.inj (ht.symm.trans h))
  have hspec := resolveCapture_spec name inner outers
  have hlength : (resolveCapture name inner outers).2.2.length = outers.length :=
    hspec.outers_grow.length_eq.symm
  have hfits := hs.fits
  rw [states_eq_of_levels hlevels, List.forall_mem_append] at hfits
  have hlinked := linked_of_append hs.linked (states_eq_of_levels hlevels)
  -- A search that leaves the functions as they are leaves the stack as it is.
  have hsame (hrc : (resolveCapture name inner outers).2 = (inner, outers)) : t' = s := by
    refine levels_injective ?_
    rw [hlevels', hrc, hlevels]
  refine ⟨fun habsent => ?_, fun k slot l hrefers hl => ?_, fun k slot l hrefers hl hrooms => ?_,
    fun k slot l hrefers hl j hkj hj hfull => ?_, fun k slot l hrefers hl => ?_, ?_, ?_, ?_⟩
  · have hnone : resolveCapture name inner outers = _ :=
      resolveCapture_of_absent (findLocal?_of_absent hlevels habsent)
    exact ⟨congrArg Prod.fst hnone, hsame (congrArg Prod.snd hnone)⟩
  · have hwaiting : resolveCapture name inner outers = _ :=
      (hrefers.owner hlevels).resolveCapture_of_waiting hl
    exact ⟨congrArg Prod.fst hwaiting, hsame (congrArg Prod.snd hwaiting)⟩
  · rcases hrefers.fst_resolveCapture hlevels hl hlinked hfits.2 with
      ⟨⟨i, hi⟩, -⟩ | ⟨-, j, hkj, hj, hfull⟩
    · obtain ⟨p, hp, horigin⟩ := hspec.place i hi
      obtain rfl := Option.some.inj ((hrefers.owner hlevels).findIn?.symm.trans hp)
      refine ⟨i, hi, ?_⟩
      rw [← horigin, ← hlength]
      exact congrArg (originOf? · i) (tablesFrom_eq hlevels' (Nat.zero_le _))
    · exact absurd (hrooms j hkj hj) hfull
  · rcases hrefers.fst_resolveCapture hlevels hl hlinked hfits.2 with ⟨-, hrooms⟩ | ⟨herror, -⟩
    · exact absurd (hrooms j hkj hj) hfull
    · exact herror
  · refine localAt?_of_modify ?_ hrefers.found
    rw [hlevels', hlevels]
    exact map_locals_reverse (hrefers.owner hlevels) hrefers.below hl
  · rw [hlevels, hlevels']
    exact List.rel_append (List.rel_reverse hspec.outers_grow)
      (.cons hspec.grows (forall₂_grows_refl after))
  · rw [hlevels, hlevels']
    exact resolveAt_append name after (hfits.2 inner (List.mem_cons_self ..))
      fun st hst => hfits.2 st (List.mem_cons_of_mem _ hst)
  · obtain ⟨t'', ht'', hlevels''⟩ := exists_resolveUpvalueAt name hlevels'
    rw [resolveCapture_again] at ht'' hlevels''
    obtain rfl : t'' = t' := levels_injective (hlevels''.trans hlevels'.symm)
    rwa [hlength] at ht''

/-- In a stack built by lookups, whatever their order, the next one finds the variable that the
name stands for. -/
theorem Built.resolveUpvalueAt_exact (hs : s.Built) (hlevel : level ≤ s.level) (name : String) :
    ∃ found t, s.resolveUpvalueAt level name = .ok (found, t) ∧ Lookup s level name found t ∧
      Distinct s ∧ Distinct t := by
  obtain ⟨inner, outers, after, hlevels, rfl⟩ := exists_levels hlevel
  obtain ⟨t, ht, -⟩ := exists_resolveUpvalueAt name hlevels
  exact ⟨_, t, ht, hs.ordered.lookup hlevel ht, hs.ordered.distinct,
    (hs.resolve ht).ordered.distinct⟩

/-- Two functions inside one that has a local, before anything is looked up. -/
def nested : FunctionStack :=
  let outer := FunctionState.start ⟨1⟩ .function
  ofScript (.start ⟨0⟩ .script)
    |>.push { outer with locals := ⟨"x", some 1, false⟩ :: outer.locals }
    |>.push (.start ⟨2⟩ .function)
    |>.push (.start ⟨3⟩ .function)

/-- The stack of the example is built by operations. -/
theorem built_nested : nested.Built :=
  .push (.push (.push (.script (by decide) rfl) (by decide) rfl) (by decide) rfl) (by decide) rfl

/-- A name that is used two functions below its declaration is captured by both. -/
theorem resolveUpvalueAt_exact_nested :
    nested.Built ∧ 3 ≤ nested.level ∧
      (∃ found t, nested.resolveUpvalueAt 3 "x" = .ok (found, t) ∧
        Lookup nested 3 "x" found t ∧ Distinct nested ∧ Distinct t) ∧
      (nested.resolveUpvalueAt 3 "x").map (fun p => (p.1, p.2.states.map FunctionState.upvalues)) =
        .ok (.ok (some 0), [[⟨false, 0⟩], [⟨true, 1⟩], [], []]) :=
  ⟨built_nested, by decide, built_nested.resolveUpvalueAt_exact (by decide) "x", by decide⟩

end FunctionStack

end LoxBytecode
