import Mathlib
import LoxBytecode.Listing
import LoxBytecode.Proofs.Heap.Slots

/-!
# Functions in Preorder

A compiler that frees nothing puts its functions into the slots of an arena in the order in which
it begins them: a function before those nested in it, and those nested in it before the next one.
`Numbered` says so of some functions and all that are nested in them. What is so numbered is a
forest: among the constants of its functions each of them is there once, but for the roots
(`Numbered.perm`), and going through the constants one comes by all of them in the order of
their slots (`Numbered.mapM_treeToDepth`).
-/

namespace LoxBytecode

/-- The functions among some values. -/
def Value.functions (vs : List Value) : List FunctionHandle :=
  vs.filterMap Value.function?

/-- The functions `fs` and those nested in them have the slots from `n` up to `m`, each before
those nested in it. -/
inductive Numbered (a : Arena FunctionObject) : Nat → List FunctionHandle → Nat → Prop
  | nil (n : Nat) : Numbered a n [] n
  | cons {n k m : Nat} {o : FunctionObject} {fs : List FunctionHandle} : a.get? n = some o →
      Numbered a (n + 1) (Listing.nested o) k → Numbered a k fs m → Numbered a n (⟨n⟩ :: fs) m

/-- The functions nested in the one in a slot. -/
def nestedAt (a : Arena FunctionObject) (i : Nat) : List FunctionHandle :=
  ((a.get? i).map Listing.nested).getD []

namespace Numbered

variable {a b : Arena FunctionObject} {n k m : Nat} {fs : List FunctionHandle}
  {o : FunctionObject}

/-- Numbers are only used up. -/
theorem le (h : Numbered a n fs m) : n ≤ m := by
  induction h with
  | nil => exact Nat.le_refl _
  | cons _ _ _ ihInner ihRest => omega

/-- The numbers stay when those functions keep what is nested in them. -/
theorem mono (h : Numbered a n fs m) (hsame : ∀ i, n ≤ i → i < m →
    (b.get? i).map Listing.nested = (a.get? i).map Listing.nested) : Numbered b n fs m := by
  induction h with
  | nil n => exact .nil n
  | cons hget hinner hrest ihInner ihRest =>
      have hk := hinner.le
      have hm := hrest.le
      obtain ⟨o', hget', hnested⟩ := Option.map_eq_some_iff.mp
        ((hsame _ (Nat.le_refl _) (by omega)).trans (congrArg _ hget))
      refine .cons hget' ?_ (ihRest fun i hi => hsame i (by omega))
      rw [hnested]
      exact ihInner fun i hi hlt => hsame i (by omega) (by omega)

/-- One more function comes behind all others. -/
theorem concat (h : Numbered a n fs k) (hget : a.get? k = some o)
    (hinner : Numbered a (k + 1) (Listing.nested o) m) : Numbered a n (fs ++ [⟨k⟩]) m := by
  induction h with
  | nil => exact .cons hget hinner (.nil m)
  | cons hget' hinner' _ _ ihRest => exact .cons hget' hinner' (ihRest hget hinner)

/-! ### A forest -/

/-- A range of numbers is that up to a number between and that from there on. -/
theorem range'_append (h : n ≤ k) (h' : k ≤ m) :
    List.range' n (m - n) = List.range' n (k - n) ++ List.range' k (m - k) := by
  have hlength : m - n = (k - n) + (m - k) := by omega
  have hstart : n + 1 * (k - n) = k := by omega
  rw [hlength, ← List.range'_append, hstart]

/-- A range that is not empty begins with its first number. -/
theorem range'_cons (h : n < m) :
    List.range' n (m - n) = n :: List.range' (n + 1) (m - (n + 1)) := by
  have hlength : m - n = (m - (n + 1)) + 1 := by omega
  rw [hlength, List.range'_succ]

/-- Every function in these slots is once a root or a function constant of another one. -/
theorem perm (h : Numbered a n fs m) :
    (fs ++ (List.range' n (m - n)).flatMap (nestedAt a)).Perm
      ((List.range' n (m - n)).map FunctionHandle.mk) := by
  induction h with
  | nil => simp
  | @cons n k m o fs hget hinner hrest ihInner ihRest =>
      have hnk := hinner.le
      have hkm := hrest.le
      have hnested : nestedAt a n = Listing.nested o := by
        rw [nestedAt, hget]
        rfl
      rw [range'_cons (show n < m by omega), range'_append hnk hkm]
      simp only [List.cons_append, List.flatMap_cons, List.flatMap_append, List.map_cons,
        List.map_append, hnested]
      refine List.Perm.cons _ ?_
      rw [← List.append_assoc (Listing.nested o)]
      exact (List.perm_append_comm_assoc ..).trans (ihInner.append ihRest)

/-! ### Going through the constants -/

/-- The functions nested in some, each before those nested in it, have their slots in order. -/
theorem mapM_treeToDepth {h : Heap} (hs : Numbered h.functions n fs m) {depth : Nat}
    (hdepth : m - n ≤ depth) : ∃ oss, fs.mapM (Listing.treeToDepth h depth) = .ok oss ∧
      oss.flatten.map some = (List.range' n (m - n)).map h.functions.get? := by
  generalize hfunctions : h.functions = a at hs
  induction hs generalizing depth with
  | nil n =>
      refine ⟨[], rfl, ?_⟩
      rw [Nat.sub_self]
      rfl
  | @cons n k m o fs hget hinner hrest ihInner ihRest =>
      have hnk := hinner.le
      have hkm := hrest.le
      obtain ⟨d, rfl⟩ : ∃ d, depth = d + 1 := Nat.exists_eq_succ_of_ne_zero (by omega)
      obtain ⟨inner, hi, hinnerSlots⟩ := @ihInner d (by omega)
      obtain ⟨others, ho, hotherSlots⟩ := @ihRest (d + 1) (by omega)
      have hfirst : Listing.treeToDepth h (d + 1) ⟨n⟩ = .ok (o :: inner.flatten) := by
        rw [Listing.treeToDepth, Heap.function, hfunctions, hget, ok_bind, hi]
        rfl
      refine ⟨(o :: inner.flatten) :: others, ?_, ?_⟩
      · rw [List.mapM_cons, hfirst, ok_bind, ho]
        rfl
      · rw [List.flatten_cons, List.map_append, List.map_cons, hinnerSlots, hotherSlots,
          range'_cons (show n < m by omega), List.map_cons, hget, range'_append hnk hkm, List.map_append]
        rfl

end Numbered

/-! ### Functions within one another

While functions are compiled, the innermost of them first, each has been numbered before those
that are nested in it by then, and these before the next function. What the objects of the
functions themselves hold does not matter: they get their constants in the end. -/

/-- Some functions within one another, the innermost first, and what is nested in them have the
slots up to one. -/
inductive Chained (a : Arena FunctionObject) : List (FunctionHandle × List FunctionHandle) →
    Nat → Prop
  | nil : Chained a [] 0
  | cons {f : FunctionHandle} {fs : List FunctionHandle}
      {rest : List (FunctionHandle × List FunctionHandle)} {n : Nat} :
      Chained a rest f.index → Numbered a (f.index + 1) fs n → Chained a ((f, fs) :: rest) n

namespace Chained

variable {a b : Arena FunctionObject} {n : Nat} {f g : FunctionHandle}
  {fs gs : List FunctionHandle} {branches rest : List (FunctionHandle × List FunctionHandle)}

/-- The branches of a chain have numbers below the next one. -/
theorem index_lt (h : Chained a branches n) {branch : FunctionHandle × List FunctionHandle}
    (hbranch : branch ∈ branches) : branch.1.index < n := by
  induction h with
  | nil => cases hbranch
  | cons hrest hinner ih =>
      have hle := hinner.le
      rcases List.mem_cons.mp hbranch with rfl | hbranch
      · exact hle
      · exact Nat.lt_trans (ih hbranch) hle

/-- A chain stays one where the functions below are nested as before. -/
theorem mono (h : Chained a branches n) (hsame : ∀ i < n, (∀ branch ∈ branches, i ≠ branch.1.index) →
    (b.get? i).map Listing.nested = (a.get? i).map Listing.nested) : Chained b branches n := by
  induction h with
  | nil => exact .nil
  | @cons f fs rest n hrest hinner ih =>
      have hle := hinner.le
      refine .cons (ih fun i hi hother => hsame i (by omega) ?_)
        (hinner.mono fun i hi hlt => hsame i hlt ?_)
      · exact List.forall_mem_cons.mpr ⟨Nat.ne_of_lt hi, hother⟩
      · refine List.forall_mem_cons.mpr ⟨Nat.ne_of_gt hi, fun branch hbranch => ?_⟩
        have hlt := hrest.index_lt hbranch
        omega

/-- A function begins in the slot behind all others. -/
theorem push (h : Chained a branches n) : Chained a ((⟨n⟩, []) :: branches) (n + 1) :=
  .cons h (.nil _)

/-- A function ends when its object gets what is nested in it. -/
theorem pop {o : FunctionObject} (h : Chained a ((f, fs) :: (g, gs) :: rest) n)
    (hget : b.get? f.index = some o) (hnested : Listing.nested o = fs)
    (hsame : ∀ i ≠ f.index, b.get? i = a.get? i) :
    Chained b ((g, gs ++ [f]) :: rest) n := by
  cases h with
  | cons houter hinner =>
      cases houter with
      | cons hrest hbefore =>
          have hle := hbefore.le
          refine .cons (hrest.mono fun i hi _ => ?_) ((hbefore.mono fun i hi hlt => ?_).concat hget
            (hnested ▸ hinner.mono fun i hi hlt => ?_))
          all_goals rw [hsame i (by omega)]

/-- The outermost function ends when its object gets what is nested in it. -/
theorem finish {o : FunctionObject} (h : Chained a [(f, fs)] n)
    (hget : b.get? f.index = some o) (hnested : Listing.nested o = fs)
    (hsame : ∀ i ≠ f.index, b.get? i = a.get? i) : Numbered b 0 [f] n := by
  cases h with
  | cons houter hinner =>
      have hfirst : f.index = 0 := by
        generalize f.index = i at houter
        cases houter
        rfl
      have hlast : Numbered b (f.index + 1) fs n := hinner.mono fun i hi _ => by
        rw [hsame i (by omega)]
      rw [← hnested] at hlast
      rw [← hfirst]
      exact .cons hget hlast (.nil n)

end Chained

end LoxBytecode
