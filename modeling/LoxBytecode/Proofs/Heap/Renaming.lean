import LoxBytecode.Proofs.Heap.Collection
import LoxBytecode.Proofs.Session.Fields

/-!
# Heaps up to the Names of Handles

Where an object lies in a heap depends on what was there before and on when was collected. Two
values of two heaps are the `Same` when they do not differ in anything else: numbers are equal,
strings have equal texts, and functions are related by a relation `R` between the handles of the
two heaps. `R` is a `Renaming` when it is one-to-one and the objects that it relates are the same
up to it, constant by constant.
-/

namespace LoxBytecode

variable {R R' : FunctionHandle → FunctionHandle → Prop} {h h' k k' : Heap}

/-! ### Values -/

/-- Two values of two heaps are the same, up to a relation between the handles of functions. -/
inductive Value.Same (R : FunctionHandle → FunctionHandle → Prop) (h h' : Heap) :
    Value → Value → Prop
  | nil : Same R h h' .nil .nil
  | bool (b : Bool) : Same R h h' (.bool b) (.bool b)
  | number (x : Number) : Same R h h' (.number x) (.number x)
  | string {s s' : StringHandle} {text : String} : h.strings.get? s.index = some text →
      h'.strings.get? s'.index = some text → Same R h h' (.string s) (.string s')
  | function {f f' : FunctionHandle} : R f f' → Same R h h' (.function f) (.function f')

/-- Same values stay the same in heaps that have the same objects for them. -/
theorem Value.Same.mono (hR : ∀ f f', R f f' → R' f f') {v v' : Value} (hv : v.Same R h h' v')
    (ha : h.Agree k v) (ha' : h'.Agree k' v') : v.Same R' k k' v' := by
  cases hv with
  | nil => exact .nil
  | bool b => exact .bool b
  | number x => exact .number x
  | string htext htext' => exact .string (Eq.trans ha htext) (Eq.trans ha' htext')
  | function hf => exact .function (hR _ _ hf)

/-! ### Chunks and functions -/

/-- Two chunks have equal code and lines, and the same constants. -/
structure Chunk.Same (R : FunctionHandle → FunctionHandle → Prop) (h h' : Heap)
    (c c' : Chunk) : Prop where
  code : c'.code = c.code
  lines : c'.lines = c.lines
  constants : List.Forall₂ (Value.Same R h h') c.constants.toList c'.constants.toList

/-- Chunks that are the same have code of one length. -/
theorem Chunk.Same.size {c c' : Chunk} (hc : c.Same R h h' c') : c'.size = c.size :=
  congrArg Array.size hc.code

/-- Chunks that are the same have equally many constants. -/
theorem Chunk.Same.size_constants {c c' : Chunk} (hc : c.Same R h h' c') :
    c'.constants.size = c.constants.size := by
  simpa using hc.constants.length_eq.symm

/-- Empty chunks are the same. -/
theorem Chunk.same_empty : Chunk.empty.Same R h h' Chunk.empty :=
  ⟨rfl, rfl, .nil⟩

/-- Values stay the same in heaps that agree about them, under a wider renaming. -/
theorem forall₂_same_mono (hR : ∀ f f', R f f' → R' f f') {vs vs' : List Value}
    (hvs : List.Forall₂ (Value.Same R h h') vs vs') (ha : ∀ v ∈ vs, h.Agree k v)
    (ha' : ∀ v ∈ vs', h'.Agree k' v) : List.Forall₂ (Value.Same R' k k') vs vs' := by
  induction hvs with
  | nil => exact .nil
  | cons hv _ ih =>
      obtain ⟨hav, ha⟩ := List.forall_mem_cons.mp ha
      obtain ⟨hav', ha'⟩ := List.forall_mem_cons.mp ha'
      exact .cons (hv.mono hR hav hav') (ih ha ha')

/-- Chunks stay the same in heaps that agree about their strings, under a wider renaming. -/
theorem Chunk.Same.mono (hR : ∀ f f', R f f' → R' f f') {c c' : Chunk} (hc : c.Same R h h' c')
    (ha : ∀ v ∈ c.constants.toList, h.Agree k v)
    (ha' : ∀ v ∈ c'.constants.toList, h'.Agree k' v) : c.Same R' k k' c' :=
  ⟨hc.code, hc.lines, forall₂_same_mono hR hc.constants ha ha'⟩

/-- The same bytes are written on the same line. -/
theorem Chunk.Same.write {c c' : Chunk}
    (hc : c.Same R h h' c') (byte : UInt8) (line : Nat) :
    (c.write byte line).Same R h h' (c'.write byte line) := by
  obtain ⟨hcode, hlines, hconstants⟩ := hc
  obtain ⟨code, constants, lines⟩ := c
  obtain ⟨code', constants', lines'⟩ := c'
  obtain rfl : code' = code := hcode
  obtain rfl : lines' = lines := hlines
  rw [Chunk.write, Chunk.write]
  split <;> exact ⟨rfl, rfl, hconstants⟩

/-- Writing one instruction into both keeps chunks the same. -/
theorem Chunk.Same.writeInstruction {c c' : Chunk}
    (hc : c.Same R h h' c') (op : Opcode) (operands : List UInt8) (line : Nat) :
    (c.writeInstruction op operands line).Same R h h' (c'.writeInstruction op operands line) := by
  have hall : ∀ {c c' : Chunk}, c.Same R h h' c' → ∀ bytes : List UInt8,
      (c.writeBytes bytes line).Same R h h' (c'.writeBytes bytes line) := by
    intro c c' hc bytes
    induction bytes generalizing c c' with
    | nil => exact hc
    | cons byte bytes ih => exact ih (hc.write byte line)
  exact hall (hc.write op.toByte line) operands

/-- Adding constants that are the same keeps chunks the same. -/
theorem Chunk.Same.addConstant {c c' : Chunk} (hc : c.Same R h h' c') {v v' : Value}
    (hv : v.Same R h h' v') : (c.addConstant v).2.Same R h h' (c'.addConstant v').2 := by
  refine ⟨hc.code, hc.lines, ?_⟩
  rw [constants_addConstant, constants_addConstant, Array.toList_push, Array.toList_push]
  exact List.rel_append hc.constants (.cons hv .nil)

/-- Two names have equal texts, or both functions are scripts. -/
def SameName (h h' : Heap) : Option StringHandle → Option StringHandle → Prop
  | none, none => True
  | some n, some n' => ∃ text, h.strings.get? n.index = some text ∧
      h'.strings.get? n'.index = some text
  | _, _ => False

/-- Two function objects are the same up to the names of handles. -/
structure FunctionObject.Same (R : FunctionHandle → FunctionHandle → Prop) (h h' : Heap)
    (o o' : FunctionObject) : Prop where
  name : SameName h h' o.name o'.name
  arity : o'.arity = o.arity
  upvalueCount : o'.upvalueCount = o.upvalueCount
  chunk : o.chunk.Same R h h' o'.chunk

/-- Empty functions are the same. -/
theorem FunctionObject.same_empty : FunctionObject.empty.Same R h h' .empty :=
  ⟨trivial, rfl, rfl, Chunk.same_empty⟩

/-- Values that are no objects agree in any two heaps. -/
theorem Heap.agree_of_children {o : FunctionObject} (ha : ∀ v ∈ o.children, h.Agree k v) {v : Value}
    (hv : v ∈ o.chunk.constants.toList) : h.Agree k v := by
  cases hobject : v.isObject with
  | true => exact ha v (Heap.mem_children_of_mem_constants hv hobject)
  | false => cases v <;> trivial

/-- Functions stay the same in heaps that agree about what they hold. -/
theorem FunctionObject.Same.mono (hR : ∀ f f', R f f' → R' f f') {o o' : FunctionObject}
    (ho : o.Same R h h' o') (ha : ∀ v ∈ o.children, h.Agree k v)
    (ha' : ∀ v ∈ o'.children, h'.Agree k' v) : o.Same R' k k' o' where
  name := by
    have hname := ho.name
    cases hn : o.name <;> cases hn' : o'.name <;> rw [hn, hn'] at hname
    · trivial
    · exact hname
    · exact hname
    · obtain ⟨text, htext, htext'⟩ := hname
      exact ⟨text, Eq.trans (ha _ (Heap.mem_children_of_name hn)) htext,
        Eq.trans (ha' _ (Heap.mem_children_of_name hn')) htext'⟩
  arity := ho.arity
  upvalueCount := ho.upvalueCount
  chunk := ho.chunk.mono hR (fun _ => Heap.agree_of_children ha)
    fun _ => Heap.agree_of_children ha'

/-! ### Renamings -/

/-- A relation between the functions of two heaps that is one-to-one, and under which the objects
of related functions are the same. -/
structure Renaming (R : FunctionHandle → FunctionHandle → Prop) (h h' : Heap) : Prop where
  one_to_one : ∀ {f f' g g'}, R f f' → R g g' → (f = g ↔ f' = g')
  objects : ∀ {f f'}, R f f' → ∃ o o', h.functions.get? f.index = some o ∧
    h'.functions.get? f'.index = some o' ∧ o.Same R h h' o'

/-- A renaming stays one between heaps that have the same objects for what is reachable from
related functions. -/
theorem Renaming.of_agree {held held' : List Value} (hR : Renaming R h h')
    (hheld : ∀ f f', R f f' → h.Reach held (.function f) ∧ h'.Reach held' (.function f'))
    (ha : ∀ v, h.Reach held v → h.Agree k v) (ha' : ∀ v, h'.Reach held' v → h'.Agree k' v) :
    Renaming R k k' where
  one_to_one := hR.one_to_one
  objects hf := by
    obtain ⟨o, o', ho, ho', hsame⟩ := hR.objects hf
    obtain ⟨hreach, hreach'⟩ := hheld _ _ hf
    exact ⟨o, o', Eq.trans (ha _ hreach) ho, Eq.trans (ha' _ hreach') ho',
      hsame.mono (fun _ _ => id) (fun v hv => ha v (.child hreach ho hv))
        fun v hv => ha' v (.child hreach' ho' hv)⟩

/-- Strings are not moved by a change of a function. -/
theorem Heap.strings_modifyFunction {f : FunctionHandle}
    {change : FunctionObject → FunctionObject} (hf : h.modifyFunction f change = .ok k) :
    k.strings = h.strings := by
  obtain ⟨functions, -, rfl⟩ := Heap.modifyFunction_eq_ok hf
  rfl

/-- What is the same depends on strings only. -/
theorem Value.Same.of_strings (hs : k.strings = h.strings) (hs' : k'.strings = h'.strings)
    {v v' : Value} (hv : v.Same R h h' v') : v.Same R k k' v' := by
  cases hv with
  | nil => exact .nil
  | bool b => exact .bool b
  | number x => exact .number x
  | string htext htext' => exact .string (hs ▸ htext) (hs' ▸ htext')
  | function hf => exact .function hf

/-- Only the strings of the heaps matter to whether chunks are the same. -/
theorem Chunk.Same.of_strings (hs : k.strings = h.strings) (hs' : k'.strings = h'.strings)
    {c c' : Chunk} (hc : c.Same R h h' c') : c.Same R k k' c' :=
  ⟨hc.code, hc.lines, hc.constants.imp fun _ _ hv => hv.of_strings hs hs'⟩

/-- Only the strings of the heaps matter to whether functions are the same. -/
theorem FunctionObject.Same.of_strings (hs : k.strings = h.strings)
    (hs' : k'.strings = h'.strings) {o o' : FunctionObject} (ho : o.Same R h h' o') :
    o.Same R k k' o' where
  name := by
    have hname := ho.name
    rw [SameName.eq_def] at hname ⊢
    rwa [hs, hs']
  arity := ho.arity
  upvalueCount := ho.upvalueCount
  chunk := ho.chunk.of_strings hs hs'

/-- Related functions may be changed in the same way on both sides. -/
theorem Renaming.modifyFunction (hR : Renaming R h h') {f f' : FunctionHandle} (hf : R f f')
    {change change' : FunctionObject → FunctionObject}
    (hmodify : h.modifyFunction f change = .ok k) (hmodify' : h'.modifyFunction f' change' = .ok k')
    (hsame : ∀ o o', o.Same R h h' o' → (change o).Same R h h' (change' o')) :
    Renaming R k k' where
  one_to_one := hR.one_to_one
  objects {g g'} hg := by
    have hs := Heap.strings_modifyFunction hmodify
    have hs' := Heap.strings_modifyFunction hmodify'
    have hget := Heap.get?_modifyFunction hmodify g.index
    have hget' := Heap.get?_modifyFunction hmodify' g'.index
    have hiff : g.index = f.index ↔ g'.index = f'.index := by
      have hone := hR.one_to_one hg hf
      rwa [FunctionHandle.mk.injEq, FunctionHandle.mk.injEq] at hone
    obtain ⟨o, o', ho, ho', hobjects⟩ := hR.objects hg
    by_cases heq : g.index = f.index
    · rw [if_pos heq, ← heq, ho] at hget
      rw [if_pos (hiff.mp heq), ← hiff.mp heq, ho'] at hget'
      exact ⟨_, _, hget, hget', (hsame o o' hobjects).of_strings hs hs'⟩
    · rw [if_neg heq, ho] at hget
      rw [if_neg fun heq' => heq (hiff.mpr heq'), ho'] at hget'
      exact ⟨o, o', hget, hget', hobjects.of_strings hs hs'⟩

end LoxBytecode
