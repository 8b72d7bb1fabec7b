import Mathlib
import LoxBytecode.Proofs.Heap.Renaming

/-!
# Outlines of Functions

What the functions of a compilation come to, wherever their objects lie: an outline has the
name, the counts, the code and the lines of a function, and says of each constant what it is and
where it comes from. A text comes from a token that names something, or from a string literal;
a heap has one string for both when the texts are equal, and an outline tells them apart. Some
functions `Show` as outlines, each function constant by the place of its function among them.

What shows depends on strings and on the objects of the functions alone, so it still shows where
heaps agree about these (`Shows.of_agree`, `ShowsFunction.of_agree`).
-/

namespace LoxBytecode

/-- What a constant is, and where its text comes from. -/
inductive Origin where
  | number (x : Number)
  /-- The text of a token that names something. -/
  | name (text : String)
  /-- The text between the quotes of a literal. -/
  | literal (text : String)
  /-- A function, by its place among those that are finished. -/
  | function (place : Nat)
deriving DecidableEq, Repr

/-- What a function refers to: its name and its constants. -/
structure Holdings where
  name : Option String
  constants : List Origin
deriving DecidableEq, Repr

/-- A finished function, wherever it lies. -/
structure FunctionOutline extends Holdings where
  arity : Nat
  upvalueCount : Nat
  code : Array UInt8
  lines : Array LineRun
deriving DecidableEq, Repr

namespace Heap

/-- A value is what an origin says, when some functions are finished. -/
inductive Shows (h : Heap) (fs : List FunctionHandle) : Value → Origin → Prop
  | number {x : Number} : Shows h fs (.number x) (.number x)
  | name {s : StringHandle} {text : String} : h.strings.get? s.index = some text →
      Shows h fs (.string s) (.name text)
  | literal {s : StringHandle} {text : String} : h.strings.get? s.index = some text →
      Shows h fs (.string s) (.literal text)
  | function {f : FunctionHandle} {place : Nat} : fs[place]? = some f →
      Shows h fs (.function f) (.function place)

/-- A name and some constants are what a function refers to. -/
structure ShowsHoldings (h : Heap) (fs : List FunctionHandle) (name : Option StringHandle)
    (constants : Array Value) (p : Holdings) : Prop where
  name : Option.Rel (fun s text => h.strings.get? s.index = some text) name p.name
  constants : List.Forall₂ (h.Shows fs) constants.toList p.constants

/-- A function that is being compiled has its name in its object already, but its constants are
still apart. -/
def ShowsBegun (h : Heap) (fs : List FunctionHandle) (core : FunctionHandle × Array Value)
    (p : Holdings) : Prop :=
  ∃ object, h.functions.get? core.1.index = some object ∧
    h.ShowsHoldings fs object.name core.2 p

/-- The object of a function has an outline. -/
def ShowsFunction (h : Heap) (fs : List FunctionHandle) (f : FunctionHandle)
    (o : FunctionOutline) : Prop :=
  ∃ object, h.functions.get? f.index = some object ∧
    h.ShowsHoldings fs object.name object.chunk.constants o.toHoldings ∧
    object.arity = o.arity ∧ object.upvalueCount = o.upvalueCount ∧
    object.chunk.code = o.code ∧ object.chunk.lines = o.lines

variable {h h' : Heap} {fs fs' : List FunctionHandle}

/-- A value shows the same in a heap that agrees about its text. -/
theorem Shows.of_agree {v : Value} {c : Origin} (hv : h.Shows fs v c) (hfs : fs <+: fs')
    (hagree : ∀ s, v = .string s → h.Agree h' (.string s)) : h'.Shows fs' v c := by
  cases hv with
  | number => exact .number
  | name hget => exact .name (hget ▸ hagree _ rfl)
  | literal hget => exact .literal (hget ▸ hagree _ rfl)
  | function hplace =>
      obtain ⟨more, rfl⟩ := hfs
      exact .function ((List.getElem?_append_left (List.getElem?_eq_some_iff.mp hplace).1).trans
        hplace)

/-- The name and the constants of a function show the same in a heap that agrees about their
texts. -/
theorem ShowsHoldings.of_agree {name : Option StringHandle} {constants : Array Value}
    {p : Holdings} (hp : h.ShowsHoldings fs name constants p) (hfs : fs <+: fs')
    (hname : ∀ s, name = some s → h.Agree h' (.string s))
    (hconstants : ∀ s, .string s ∈ constants.toList → h.Agree h' (.string s)) :
    h'.ShowsHoldings fs' name constants p := by
  refine ⟨?_, ?_⟩
  · obtain ⟨shown, shownConstants⟩ := p
    have hrel := hp.name
    cases hrel with
    | none => exact .none
    | some hget => exact .some (hget ▸ hname _ rfl)
  · have hkept : ∀ v ∈ constants.toList, ∀ s, v = .string s → h.Agree h' (.string s) :=
      fun v hv s hs => hconstants s (hs ▸ hv)
    exact ((List.forall₂_and_left _ _).mpr ⟨hkept, hp.constants⟩).imp
      fun _ _ hv => hv.2.of_agree hfs hv.1

/-- A function with one constant more shows that constant too. -/
theorem ShowsHoldings.push {name : Option StringHandle} {constants : Array Value} {p : Holdings}
    (hp : h.ShowsHoldings fs name constants p) {v : Value} {c : Origin} (hv : h.Shows fs v c) :
    h.ShowsHoldings fs name (constants.push v) { p with constants := p.constants ++ [c] } := by
  refine ⟨hp.name, ?_⟩
  rw [Array.toList_push]
  exact List.rel_append hp.constants (.cons hv .nil)

/-- A function being compiled shows the same in a heap that agrees about its texts. -/
theorem ShowsBegun.of_agree {core : FunctionHandle × Array Value} {p : Holdings}
    (hp : h.ShowsBegun fs core p) (hfs : fs <+: fs') (hobject : h.Agree h' (.function core.1))
    (hname : ∀ o s, h.functions.get? core.1.index = some o → o.name = some s →
      h.Agree h' (.string s))
    (hconstants : ∀ s, .string s ∈ core.2.toList → h.Agree h' (.string s)) :
    h'.ShowsBegun fs' core p := by
  obtain ⟨o, ho, hshows⟩ := hp
  exact ⟨o, Eq.trans hobject ho, hshows.of_agree hfs (fun s hs => hname o s ho hs) hconstants⟩

/-- A finished function shows where its object and the strings of its object do. -/
theorem ShowsFunction.of_agree {f : FunctionHandle} {o : FunctionOutline}
    (hf : h.ShowsFunction fs f o) (hfs : fs <+: fs')
    (hagree : ∀ v, h.Reach [.function f] v → h.Agree h' v) : h'.ShowsFunction fs' f o := by
  obtain ⟨object, hobject, hshows, hrest⟩ := hf
  have hroot : h.Reach [.function f] (.function f) := .root (List.mem_singleton_self _)
  refine ⟨object, Eq.trans (hagree _ hroot) hobject, hshows.of_agree hfs (fun s hs => ?_)
    (fun s hv => ?_), hrest⟩
  · exact hagree _ (.child hroot hobject (mem_children_of_name hs))
  · exact hagree _ (.child hroot hobject (mem_children_of_mem_constants hv rfl))

end Heap

end LoxBytecode
