import Mathlib
import LoxBytecode.Proofs.Compile.Declarations
import LoxBytecode.Proofs.Compile.Numbering

/-!
# The Tree of a Script's Functions

The functions that a source is compiled to from an empty heap are a tree under the script: a
function is linked to those among its constants. That each of them has one place in the constants
of one function follows from their preorder (`Numbered.perm`), and that one closure is made of it
there from the pairing of closures with function constants (`Heap.Pairs`). A listing follows these
links, so that it comes to an end and shows every function once (`compile_function_tree`).
-/

namespace LoxBytecode

open Heap

/-! ### Function constants and their indices -/

/-- What is found only once in a list is found at one index. -/
theorem index_unique_of_nodup {α β : Type} {find : α → Option β} {l : List α}
    (hn : (l.filterMap find).Nodup) {i j : Nat} {a b : α} {x : β} (hi : l[i]? = some a)
    (hj : l[j]? = some b) (ha : find a = some x) (hb : find b = some x) : i = j := by
  have hpairwise := List.pairwise_iff_getElem.mp (List.pairwise_filterMap.mp hn)
  obtain ⟨hilt, rfl⟩ := List.getElem?_eq_some_iff.mp hi
  obtain ⟨hjlt, rfl⟩ := List.getElem?_eq_some_iff.mp hj
  rcases Nat.lt_trichotomy i j with hlt | heq | hgt
  · exact absurd rfl (hpairwise i j hilt hjlt hlt x ha x hb)
  · exact heq
  · exact absurd rfl (hpairwise j i hjlt hilt hgt x hb x ha)

namespace Value

variable {vs : List Value} {i : Nat} {f : FunctionHandle}

/-- The functions among some values are those at some index. -/
theorem mem_functions_iff : f ∈ functions vs ↔ ∃ i : Nat, vs[i]? = some (function f) := by
  rw [functions, List.mem_filterMap, ← List.mem_iff_getElem?]
  constructor
  · rintro ⟨v, hv, hf⟩
    cases v with
    | function g =>
        cases hf
        exact hv
    | nil | bool | number | string => cases hf
  · exact fun hv => ⟨_, hv, rfl⟩

/-- The indices of functions are those where a function is. -/
theorem mem_functionIndices_iff : i ∈ functionIndices vs ↔ ∃ f, vs[i]? = some (function f) := by
  rw [functionIndices, List.mem_filterMap]
  constructor
  · rintro ⟨⟨v, j⟩, hv, hj⟩
    obtain ⟨f, hf, rfl⟩ := Option.map_eq_some_iff.mp hj
    cases v with
    | function g => exact ⟨g, List.mem_zipIdx_iff_getElem?.mp hv⟩
    | nil | bool | number | string => cases hf
  · rintro ⟨f, hf⟩
    exact ⟨(.function f, i), List.mem_zipIdx_iff_getElem?.mpr hf, rfl⟩

/-- No index is counted twice. -/
theorem nodup_functionIndices (vs : List Value) : (functionIndices vs).Nodup := by
  have hindices : vs.zipIdx.Pairwise fun a b => a.2 ≠ b.2 := by
    refine List.pairwise_map.mp ?_
    rw [List.zipIdx_map_snd]
    exact List.nodup_range'
  refine List.pairwise_filterMap.mpr (hindices.imp fun hne i hi j hj => ?_)
  obtain ⟨_, -, rfl⟩ := Option.map_eq_some_iff.mp hi
  obtain ⟨_, -, rfl⟩ := Option.map_eq_some_iff.mp hj
  exact hne

end Value

/-! ### Links -/

namespace Heap

/-- A function is the constant of another one at an index. -/
def ConstantAt (h : Heap) (g : FunctionHandle) (i : Nat) (f : FunctionHandle) : Prop :=
  ∃ o, h.functions.get? g.index = some o ∧ o.chunk.constants[i]? = some (.function f)

/-- The instruction at an offset of a function makes a closure of another one. -/
def ClosureAt (h : Heap) (g : FunctionHandle) (offset : Nat) (f : FunctionHandle) : Prop :=
  ∃ o k, h.functions.get? g.index = some o ∧ offset ∈ Listing.offsets h o.chunk ∧
    Listing.madeAt? o.chunk offset = some k ∧ o.chunk.constants[k]? = some (.function f)

variable {h : Heap} {o : FunctionObject} {f g g' root : FunctionHandle} {i i' offset offset' : Nat}

/-- What is nested in a function is a constant of it. -/
theorem mem_nestedAt_iff : f ∈ nestedAt h.functions g.index ↔ ∃ i, h.ConstantAt g i f := by
  rw [nestedAt]
  constructor
  · intro hf
    cases hget : h.functions.get? g.index with
    | none =>
        rw [hget] at hf
        cases hf
    | some o =>
        rw [hget] at hf
        obtain ⟨i, hi⟩ := Value.mem_functions_iff.mp hf
        exact ⟨i, o, hget, by rwa [Array.getElem?_toList] at hi⟩
  · rintro ⟨i, o, hget, hi⟩
    rw [hget]
    exact Value.mem_functions_iff.mpr ⟨i, by rwa [Array.getElem?_toList]⟩

/-- A function constant has a closure made of it. -/
theorem Pairs.exists_made (hp : h.Pairs o) (hi : o.chunk.constants[i]? = some (.function f)) :
    ∃ offset ∈ Listing.offsets h o.chunk, Listing.madeAt? o.chunk offset = some i := by
  have hmem : i ∈ Listing.made h o.chunk := by
    rw [hp, Value.mem_functionIndices_iff]
    exact ⟨f, by rwa [Array.getElem?_toList]⟩
  exact List.mem_filterMap.mp hmem

/-- No other closure is made of it. -/
theorem Pairs.offset_unique (hp : h.Pairs o) (hmem : offset ∈ Listing.offsets h o.chunk)
    (hmem' : offset' ∈ Listing.offsets h o.chunk)
    (hmade : Listing.madeAt? o.chunk offset = some i)
    (hmade' : Listing.madeAt? o.chunk offset' = some i) : offset' = offset := by
  have hnodup : (Listing.made h o.chunk).Nodup := by
    rw [hp]
    exact Value.nodup_functionIndices _
  obtain ⟨k, hk⟩ := List.mem_iff_getElem?.mp hmem
  obtain ⟨k', hk'⟩ := List.mem_iff_getElem?.mp hmem'
  obtain rfl := index_unique_of_nodup hnodup hk hk' hmade hmade'
  exact Option.some.inj (hk'.symm.trans hk)

end Heap

namespace Numbered

variable {h : Heap} {f g g' root : FunctionHandle} {i i' m : Nat}

/-- Under a root all other functions are constants, each once. -/
theorem perm_root {a : Arena FunctionObject} (hn : Numbered a 0 [root] m) :
    (root :: (List.range m).flatMap (nestedAt a)).Perm ((List.range m).map FunctionHandle.mk) := by
  rw [List.range_eq_range']
  exact hn.perm

/-- The root is nested in no function, and no function is nested twice. -/
theorem nodup_root {a : Arena FunctionObject} (hn : Numbered a 0 [root] m) :
    root ∉ (List.range m).flatMap (nestedAt a) ∧ ((List.range m).flatMap (nestedAt a)).Nodup := by
  refine List.nodup_cons.mp (hn.perm_root.nodup_iff.mpr (List.Nodup.map ?_ List.nodup_range))
  exact fun i j hij => congrArg FunctionHandle.index hij

section

variable (hn : Numbered h.functions 0 [root] h.functions.slots.size)

include hn

/-- A function is the constant of one function at most, and at one index. -/
theorem constantAt_unique (hg : h.ConstantAt g i f) (hg' : h.ConstantAt g' i' f) :
    g' = g ∧ i' = i := by
  obtain ⟨hinner, hdisjoint⟩ := List.nodup_flatMap.mp hn.nodup_root.2
  have hmem := mem_nestedAt_iff.mpr ⟨i, hg⟩
  have hmem' := mem_nestedAt_iff.mpr ⟨i', hg'⟩
  obtain ⟨o, hget, hi⟩ := hg
  obtain ⟨o', hget', hi'⟩ := hg'
  have hslot : g.index ∈ List.range h.functions.slots.size :=
    List.mem_range.mpr (Arena.lt_size_of_get? hget)
  have hslot' : g'.index ∈ List.range h.functions.slots.size :=
    List.mem_range.mpr (Arena.lt_size_of_get? hget')
  have hindex : g'.index = g.index := by
    by_contra hne
    have : Std.Symm (Function.onFun List.Disjoint (nestedAt h.functions)) :=
      ⟨fun _ _ hd => hd.symm⟩
    exact hdisjoint.forall hslot' hslot hne hmem' hmem
  have hsame : o' = o := Option.some.inj (hget'.symm.trans (hindex ▸ hget))
  have hnodup := hinner g.index hslot
  rw [nestedAt, hget] at hnodup
  subst hsame
  rw [← Array.getElem?_toList] at hi hi'
  exact ⟨congrArg FunctionHandle.mk hindex, index_unique_of_nodup hnodup hi' hi rfl rfl⟩

/-- The root is a constant of no function. -/
theorem not_constantAt_root : ¬ h.ConstantAt g i root := by
  intro hg
  refine hn.nodup_root.1 (List.mem_flatMap.mpr ⟨g.index, ?_, mem_nestedAt_iff.mpr ⟨i, hg⟩⟩)
  obtain ⟨o, hget, -⟩ := hg
  exact List.mem_range.mpr (Arena.lt_size_of_get? hget)

/-- A function is the constant of another one, but for the root. -/
theorem exists_constantAt (hlive : h.Live (.function f)) (hne : f ≠ root) :
    ∃ g i, h.ConstantAt g i f := by
  obtain ⟨o, ho⟩ := live_function_iff.mp hlive
  have hmem : f ∈ (List.range h.functions.slots.size).map FunctionHandle.mk :=
    List.mem_map.mpr ⟨f.index, List.mem_range.mpr (Arena.lt_size_of_get? ho), rfl⟩
  rcases List.mem_cons.mp (hn.perm_root.mem_iff.mpr hmem) with heq | hnested
  · exact absurd heq hne
  · obtain ⟨n, -, hf⟩ := List.mem_flatMap.mp hnested
    obtain ⟨i, hi⟩ := mem_nestedAt_iff (g := ⟨n⟩).mp hf
    exact ⟨⟨n⟩, i, hi⟩

/-- A function that is not the root is a constant of one function, at one index, and has one closure
made of it, there. -/
theorem exists_parent (hpairs : ∀ g o, h.functions.get? g = some o → h.Pairs o)
    (hlive : h.Live (.function f)) (hne : f ≠ root) : ∃ g i offset,
      (∀ g' i', h.ConstantAt g' i' f ↔ g' = g ∧ i' = i) ∧
      ∀ g' offset', h.ClosureAt g' offset' f ↔ g' = g ∧ offset' = offset := by
  obtain ⟨g, i, hg⟩ := hn.exists_constantAt hlive hne
  obtain ⟨o, hget, hi⟩ := id hg
  have hp := hpairs g.index o hget
  obtain ⟨offset, hoffset, hmade⟩ := hp.exists_made hi
  refine ⟨g, i, offset, fun g' i' => ⟨hn.constantAt_unique hg, ?_⟩, fun g' offset' => ⟨?_, ?_⟩⟩
  · rintro ⟨rfl, rfl⟩
    exact hg
  · rintro ⟨o', k, hget', hoffset', hmade', hk⟩
    obtain ⟨rfl, rfl⟩ := hn.constantAt_unique hg ⟨o', hget', hk⟩
    obtain rfl : o' = o := Option.some.inj (hget'.symm.trans hget)
    exact ⟨rfl, hp.offset_unique hoffset hoffset' hmade hmade'⟩
  · rintro ⟨rfl, rfl⟩
    exact ⟨o, i, hget, hoffset, hmade, hi⟩

end

end Numbered

/-! ### Listings -/

namespace Listing

variable {h : Heap} {o : FunctionObject} {os : List FunctionObject}

/-- Lines are joined by putting a break in front of all but the first. -/
theorem intercalate_cons (text : String) (texts : List String) :
    String.intercalate "\n" (text :: texts) = String.join (text :: texts.map ("\n" ++ ·)) := by
  induction texts generalizing text with
  | nil => simp
  | cons next texts ih =>
      rw [String.intercalate_cons_cons, ih]
      simp [String.append_assoc]

/-- If every function can be listed, all can. -/
theorem exists_mapM_own (hown : ∀ o ∈ os, ∃ text, own h o = .ok text) :
    ∃ texts, os.mapM (own h) = .ok texts := by
  induction os with
  | nil => exact ⟨[], rfl⟩
  | cons o os ih =>
      obtain ⟨⟨text, htext⟩, hrest⟩ := List.forall_mem_cons.mp hown
      obtain ⟨texts, htexts⟩ := ih hrest
      refine ⟨text :: texts, ?_⟩
      rw [List.mapM_cons, htext, ok_bind, htexts]
      rfl

/-- Listing several functions lists the first and then the others. -/
theorem mapM_own_cons {texts : List String} (h' : (o :: os).mapM (own h) = .ok texts) :
    ∃ text rest, own h o = .ok text ∧ os.mapM (own h) = .ok rest ∧ texts = text :: rest := by
  rw [List.mapM_cons] at h'
  obtain ⟨text, htext, h'⟩ := bind_eq_ok.mp h'
  obtain ⟨rest, hrest, h'⟩ := bind_eq_ok.mp h'
  cases h'
  exact ⟨text, rest, htext, hrest, rfl⟩

/-- A tree of functions begins with its root. -/
theorem treeToDepth_eq_ok {depth : Nat} {f : FunctionHandle}
    (htree : treeToDepth h (depth + 1) f = .ok os) : ∃ o inner, h.function f = .ok o ∧
      (nested o).mapM (treeToDepth h depth) = .ok inner ∧ os = o :: inner.flatten := by
  obtain ⟨o, ho, htree⟩ := bind_eq_ok.mp htree
  obtain ⟨inner, hinner, htree⟩ := bind_eq_ok.mp htree
  cases htree
  exact ⟨o, inner, ho, hinner, rfl⟩

/-- The listings below some functions make the same text as those of all functions in their
trees. -/
theorem mapM_toDepth {depth : Nat} {fs : List FunctionHandle} {oss : List (List FunctionObject)}
    {texts : List String}
    (ih : ∀ {f os texts}, treeToDepth h depth f = .ok os → os.mapM (own h) = .ok texts →
      toDepth h depth f = .ok (String.intercalate "\n" texts))
    (htrees : fs.mapM (treeToDepth h depth) = .ok oss)
    (htexts : oss.flatten.mapM (own h) = .ok texts) :
    ∃ parts, fs.mapM (toDepth h depth) = .ok parts ∧
      String.join (parts.map ("\n" ++ ·)) = String.join (texts.map ("\n" ++ ·)) := by
  induction fs generalizing oss texts with
  | nil =>
      cases htrees
      cases htexts
      exact ⟨[], rfl, rfl⟩
  | cons f fs ihRest =>
      rw [List.mapM_cons] at htrees
      obtain ⟨os, hfirst, htrees⟩ := bind_eq_ok.mp htrees
      obtain ⟨oss, hothers, htrees⟩ := bind_eq_ok.mp htrees
      cases htrees
      rw [List.flatten_cons, List.mapM_append] at htexts
      obtain ⟨firstTexts, hfirstTexts, htexts⟩ := bind_eq_ok.mp htexts
      obtain ⟨otherTexts, hotherTexts, htexts⟩ := bind_eq_ok.mp htexts
      cases htexts
      obtain ⟨parts, hparts, hjoin⟩ := ihRest hothers hotherTexts
      have hlisted := ih hfirst hfirstTexts
      refine ⟨String.intercalate "\n" firstTexts :: parts, ?_, ?_⟩
      · rw [List.mapM_cons, hlisted, ok_bind, hparts]
        rfl
      · obtain ⟨d, rfl⟩ : ∃ d, depth = d + 1 := by
          cases depth with
          | zero => cases hfirst
          | succ d => exact ⟨d, rfl⟩
        obtain ⟨o, inner, -, -, rfl⟩ := treeToDepth_eq_ok hfirst
        obtain ⟨text, rest, -, -, rfl⟩ := mapM_own_cons hfirstTexts
        rw [List.map_cons, String.join_cons, hjoin, intercalate_cons, List.map_append,
          String.join_append, List.map_cons, String.join_cons, String.join_cons]
        simp only [String.append_assoc]

/-- The listing of a function with those nested in it consists of the listings of them all. -/
theorem toDepth_eq {depth : Nat} {f : FunctionHandle} {texts : List String}
    (htree : treeToDepth h depth f = .ok os) (htexts : os.mapM (own h) = .ok texts) :
    toDepth h depth f = .ok (String.intercalate "\n" texts) := by
  induction depth generalizing f os texts with
  | zero => cases htree
  | succ depth ih =>
      obtain ⟨o, inner, ho, hinner, rfl⟩ := treeToDepth_eq_ok htree
      obtain ⟨text, rest, htext, hrest, rfl⟩ := mapM_own_cons htexts
      obtain ⟨parts, hparts, hjoin⟩ := mapM_toDepth ih hinner hrest
      rw [toDepth, ho, ok_bind, htext, ok_bind, hparts, intercalate_cons, String.join_cons, ← hjoin,
        ← String.join_cons]
      rfl

end Listing

/-- The listing of a compiled function alone does not fail. -/
theorem Listed.exists_own {h : Heap} {f : FunctionHandle} {o : FunctionObject}
    {writes : List Event} (hl : Listed h o writes) (hclosed : h.Closed [.function f])
    (ho : h.functions.get? f.index = some o) : ∃ text, Listing.own h o = .ok text := by
  obtain ⟨⟨lines, hlines, -⟩, -, -⟩ := hl
  cases hname : o.name with
  | none =>
      rw [Listing.own, hname, hlines]
      exact ⟨_, rfl⟩
  | some n =>
      have hlive : h.Live (.string n) := hclosed _
        (.child (.root (List.mem_singleton.mpr rfl)) ho (mem_children_of_name hname))
      obtain ⟨text, htext⟩ := live_string_iff.mp hlive
      have hstring : h.string n = .ok text := by rw [Heap.string, htext]
      rw [Listing.own, hname, hlines]
      simp only [hstring, ok_bind]
      exact ⟨_, rfl⟩

/-! ### Scripts -/

/-- A function that is reached is linked to the root by function constants. -/
theorem linked_of_reach {h : Heap} {root f : FunctionHandle}
    (hreach : h.Reach [.function root] (.function f)) :
    Relation.ReflTransGen (fun g f => ∃ i, h.ConstantAt g i f) root f := by
  generalize hv : Value.function f = v at hreach
  induction hreach generalizing f with
  | root hmem =>
      subst hv
      cases List.mem_singleton.mp hmem
      exact .refl
  | @child g o v _ ho hchild ih =>
      subst hv
      refine (ih rfl).tail ?_
      rcases List.mem_append.mp hchild with hname | hconstant
      · obtain ⟨n, -, hn⟩ := Option.map_eq_some_iff.mp (Option.mem_toList.mp hname)
        cases hn
      · obtain ⟨i, hi⟩ := List.mem_iff_getElem?.mp (List.mem_filter.mp hconstant).1
        exact ⟨i, o, ho, by rwa [Array.getElem?_toList] at hi⟩

/-- A source that compiles is read as one program, and its script declares that program. -/
theorem exists_declares {source : String} {h : Heap} {host : List Value} (hw : h.Wf)
    {c : Compilation} {script : FunctionHandle} (hc : compile source h host = .ok c)
    (hok : c.outcome = .ok script) :
    ∃ program o, ReadsStmt .program (TokenStream.program source) program [] ∧
      c.heap.functions.get? script.index = some o ∧ c.heap.Declares o .script program := by
  obtain ⟨⟨o, program, is, Γ, hprogram⟩, -⟩ := compile_translates hw hc hok
  have hclosed := compile_closed hw hc hok
  have hconstants : c.heap.Closed o.chunk.constants.toList := hclosed.constants hprogram.object
  have hpairs : ∀ f o', c.heap.Reach [.function script] (.function f) →
      c.heap.functions.get? f.index = some o' → c.heap.Pairs o' := fun f o' hf ho' =>
    (paired_of_compile hw hc hok hf).pairs (hclosed.of_reach hf) ho'
  have hpaired : (World.ofScript c.heap o).Paired := fun f o' hf ho' =>
    hpairs f o' ((reach_function_of_constants hprogram.object hf rfl)) ho'
  exact ⟨program, o, hprogram.reads, hprogram.object,
    declares_of_code (w := .ofScript c.heap o) ⟨rfl, rfl, hprogram.upvalues.symm⟩ hconstants
      hprogram.code rfl hprogram.bytes (hpairs script o (.root (List.mem_singleton.mpr rfl))
        hprogram.object) (hprogram.code.declaredBy hconstants hpaired)⟩

/-- Tokens that stand for errors are no `fun`. -/
theorem funCount_program (source : String) :
    funCount (TokenStream.program source) = funCount (TokenStream.ofSource source).ahead := by
  rw [funCount, funCount, TokenStream.program, List.countP_filter]
  refine List.countP_congr fun t _ => ?_
  simp only [Bool.and_eq_true, beq_iff_eq, decide_eq_true_eq, and_iff_left_iff_imp]
  rintro hkind herror
  rw [hkind] at herror
  cases herror

/-- The script and the functions that its program declares are all that there are. -/
theorem Numbered.live_eq {h : Heap} {script : FunctionHandle} {o : FunctionObject}
    {program : Stmt} (hn : Numbered h.functions 0 [script] h.functions.slots.size)
    (hfull : h.functions.free = #[]) (ho : h.functions.get? script.index = some o)
    (hdeclares : h.Declares o .script program) :
    h.functions.live = program.functionCount + 1 := by
  rw [Arena.live, hfull]
  generalize h.functions.slots.size = m at hn
  cases hn with
  | cons hget hinner hrest =>
      cases hrest
      obtain rfl := Option.some.inj (hget.symm.trans ho)
      have hsize := Numbered.eq_of_declares hdeclares hinner
      rw [hsize, List.size_toArray, List.length_nil]
      omega

/-- When a source is compiled in an empty heap, the functions are a tree under the script, linked by
constants: all are reached from the script, which is no constant, and every other one is a constant
of one function, at one index, and has one closure made of it, by an instruction of that function.
There is one for each `fun` of the source. The children of a function are among its constants in the
order in which the source declares them, so that the tree holds the functions in the order in which
they began. Its listing ends, and it is that of each function, once. -/
theorem compile_function_tree (source : String) (config : HeapConfig) {c : Compilation}
    {script : FunctionHandle} (hc : compile source (ofConfig config) [] = .ok c)
    (hok : c.outcome = .ok script) :
    (∀ f, c.heap.Live (.function f) →
      Relation.ReflTransGen (fun g f => ∃ i, c.heap.ConstantAt g i f) script f) ∧
    (∀ g i, ¬ c.heap.ConstantAt g i script) ∧
    (∀ f, c.heap.Live (.function f) → f ≠ script → ∃ g i offset,
      (∀ g' i', c.heap.ConstantAt g' i' f ↔ g' = g ∧ i' = i) ∧
      ∀ g' offset', c.heap.ClosureAt g' offset' f ↔ g' = g ∧ offset' = offset) ∧
    c.heap.functions.live = funCount (TokenStream.ofSource source).ahead + 1 ∧
    (∃ program o, (∀ p, ReadsStmt .program (TokenStream.program source) p [] ↔ p = program) ∧
      c.heap.functions.get? script.index = some o ∧ c.heap.Declares o .script program) ∧
    ∃ objects texts, Listing.functionTree c.heap script = .ok objects ∧
      objects.map some = (List.range c.heap.functions.slots.size).map c.heap.functions.get? ∧
      objects.mapM (Listing.own c.heap) = .ok texts ∧
      listing c.heap script = .ok (String.intercalate "\n" texts) := by
  have hw := wf_ofConfig config
  obtain ⟨hfull, hn⟩ := exists_numbered hc hok
  obtain ⟨program, o, hreads, ho, hdeclares⟩ := exists_declares hw hc hok
  have hclosed := compile_closed hw hc hok
  have hreach : ∀ f, c.heap.Live (.function f) → c.heap.Reach [.function script] (.function f) :=
    fun f hf => tight_of_compile hc hok _ rfl hf
  have hpairs : ∀ g o, c.heap.functions.get? g = some o → c.heap.Pairs o := fun g o hg =>
    have hlive := hreach ⟨g⟩ (live_function_iff.mpr ⟨o, hg⟩)
    (paired_of_compile hw hc hok hlive).pairs (hclosed.of_reach hlive) hg
  refine ⟨fun f hf => linked_of_reach (hreach f hf), fun g i => hn.not_constantAt_root,
    fun f => hn.exists_parent hpairs, ?_, ⟨program, o, fun p => ⟨fun hp => (hp.unique hreads).1, ?_⟩,
    ho, hdeclares⟩, ?_⟩
  · rw [hn.live_eq hfull ho hdeclares, ← funCount_program, hreads.funCount_eq]
    rfl
  · rintro rfl
    exact hreads
  · obtain ⟨oss, htrees, hslots⟩ := hn.mapM_treeToDepth
      (show c.heap.functions.slots.size - 0 ≤ Listing.maxDepth c.heap from Nat.le_succ _)
    rw [List.mapM_cons, List.mapM_nil] at htrees
    obtain ⟨objects, htree, htrees⟩ := bind_eq_ok.mp htrees
    cases htrees
    rw [List.flatten_singleton, Nat.sub_zero, ← List.range_eq_range'] at hslots
    have hown : ∀ o ∈ objects, ∃ text, Listing.own c.heap o = .ok text := fun o ho => by
      obtain ⟨i, -, hi⟩ := List.mem_map.mp (hslots ▸ List.mem_map_of_mem ho)
      have hlive := hreach ⟨i⟩ (live_function_iff.mpr ⟨o, hi⟩)
      obtain ⟨o', ho', hlisted⟩ :=
        (paired_of_compile hw hc hok hlive).closed.finished.listed (hclosed.of_reach hlive)
      obtain rfl : o' = o := Option.some.inj (ho'.symm.trans hi)
      exact hlisted.exists_own (hclosed.of_reach hlive) hi
    obtain ⟨texts, htexts⟩ := Listing.exists_mapM_own hown
    exact ⟨objects, texts, htree, hslots, htexts, Listing.toDepth_eq htree htexts⟩

/-- The functions of a script that declares two, the first of them with one inside. -/
theorem compile_function_tree_nested :
    ∃ c objects texts, compile "fun f() { fun g() { } } fun h() { }" (ofConfig ⟨true, 0, 2⟩) [] =
        .ok c ∧ c.outcome = .ok ⟨0⟩ ∧ c.heap.functions.live = 4 ∧
      (∀ f, c.heap.Live (.function f) → f ≠ ⟨0⟩ → ∃ g i, ∀ g' i',
        c.heap.ConstantAt g' i' f ↔ g' = g ∧ i' = i) ∧
      Listing.functionTree c.heap ⟨0⟩ = .ok objects ∧
      objects.mapM (Listing.own c.heap) = .ok texts ∧
      listing c.heap ⟨0⟩ = .ok (String.intercalate "\n" texts) := by
  have hrun : (compile "fun f() { fun g() { } } fun h() { }" (ofConfig ⟨true, 0, 2⟩) []).map
      (·.outcome.toOption) = .ok (some ⟨0⟩) := by
    cbv
  have hcount : funCount (TokenStream.ofSource "fun f() { fun g() { } } fun h() { }").ahead = 3 := by
    cbv
  obtain ⟨c, hc, hok⟩ := exists_of_script_eq hrun
  obtain ⟨-, -, hparents, hlive, -, objects, texts, htree, -, htexts, hlisting⟩ :=
    compile_function_tree "fun f() { fun g() { } } fun h() { }" ⟨true, 0, 2⟩ hc hok
  refine ⟨c, objects, texts, hc, hok, hlive.trans (congrArg (· + 1) hcount), fun f hf hne => ?_,
    htree, htexts, hlisting⟩
  obtain ⟨g, i, offset, hconstant, -⟩ := hparents f hf hne
  exact ⟨g, i, hconstant⟩

end LoxBytecode
