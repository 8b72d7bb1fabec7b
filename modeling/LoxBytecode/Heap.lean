import LoxBytecode.Arena
import LoxBytecode.Chunk
import LoxBytecode.Number.Shortest
import LoxBytecode.Text
import Std.Data.TreeMap

/-!
# Heaps

A heap holds strings and functions in an arena each. Strings are interned: a table from hashes
to the slots of the strings with that hash finds the one string with a given text. The
operations here read and change a heap without allocating.
-/

namespace LoxBytecode

/-- A function object. -/
structure FunctionObject where
  /-- A script has no name. -/
  name : Option StringHandle
  arity : Nat
  /-- The number of captures that a closure of the function carries. -/
  upvalueCount : Nat
  chunk : Chunk
deriving DecidableEq, Repr

namespace FunctionObject

/-- A function without a name, parameters or code. -/
def empty : FunctionObject := ⟨none, 0, 0, Chunk.empty⟩

/-- A function without a name is a script. -/
def isScript (o : FunctionObject) : Bool :=
  o.name.isNone

/-- The objects that a function refers to: its name, and the objects among its constants. -/
def children (o : FunctionObject) : List Value :=
  (o.name.map Value.string).toList ++ o.chunk.constants.toList.filter Value.isObject

end FunctionObject

/-- When a heap collects. -/
structure HeapConfig where
  /-- Collect before every allocation. -/
  stress : Bool
  /-- The number of live objects that triggers the first collection, and the least one to
  trigger a later one. -/
  initialThreshold : Nat
  /-- A collection that leaves `n` live objects puts the next one at `n * growthFactor`, as far as
  a machine word holds that. -/
  growthFactor : Nat
deriving DecidableEq, Repr

/-- The configuration of a heap for which none is given. -/
def HeapConfig.standard : HeapConfig := ⟨false, 1024, 2⟩

/-- The slots of the strings with a hash. -/
abbrev InternTable := Std.TreeMap UInt32 (List Nat)

namespace InternTable

/-- The slots under a hash. -/
def bucket (t : InternTable) (hash : UInt32) : List Nat :=
  (t[hash]?).getD []

/-- Record a slot under a hash. -/
def add (t : InternTable) (hash : UInt32) (slot : Nat) : InternTable :=
  t.alter hash fun bucket => some (slot :: bucket.getD [])

/-- Forget a slot under a hash, and the hash with its last slot. -/
def remove (t : InternTable) (hash : UInt32) (slot : Nat) : InternTable :=
  t.alter hash fun bucket =>
    match (bucket.getD []).filter (· != slot) with
    | [] => none
    | kept => some kept

end InternTable

/-- A heap. -/
structure Heap where
  strings : Arena String
  functions : Arena FunctionObject
  interned : InternTable
  config : HeapConfig
  /-- The number of live objects that triggers the next collection. -/
  threshold : Nat
  /-- The number of collections so far. -/
  collections : Nat

namespace Heap

/-- The heap without objects. -/
def ofConfig (config : HeapConfig) : Heap :=
  ⟨Arena.empty, Arena.empty, {}, config, config.initialThreshold, 0⟩

/-- The number of live objects. -/
def live (h : Heap) : Nat :=
  h.strings.live + h.functions.live

/-! ### Reading -/

/-- The text of a string. -/
def string (h : Heap) (s : StringHandle) : Checked String :=
  match h.strings.get? s.index with
  | some text => .ok text
  | none => .error .freedString

/-- A function object. -/
def function (h : Heap) (f : FunctionHandle) : Checked FunctionObject :=
  match h.functions.get? f.index with
  | some object => .ok object
  | none => .error .freedFunction

/-- Whether a handle refers to a live string. -/
def containsString (h : Heap) (s : StringHandle) : Bool :=
  (h.strings.get? s.index).isSome

/-- Whether a handle refers to a live function. -/
def containsFunction (h : Heap) (f : FunctionHandle) : Bool :=
  (h.functions.get? f.index).isSome

/-- The string with a text, if it is interned. -/
def lookup (h : Heap) (text : String) : Option StringHandle :=
  ((h.interned.bucket (textHash text)).find? fun slot =>
    h.strings.get? slot == some text).map StringHandle.mk

/-- The text that displays a function: its name in brackets, or the word for a script. -/
def displayFunction (h : Heap) (o : FunctionObject) : Checked String :=
  match o.name with
  | some name => do return "<fn " ++ (← h.string name) ++ ">"
  | none => .ok "<script>"

/-- The text that displays a value. -/
def display (h : Heap) : Value → Checked String
  | .nil => .ok "nil"
  | .bool true => .ok "true"
  | .bool false => .ok "false"
  | .number x => .ok x.text
  | .string s => h.string s
  | .function f => do h.displayFunction (← h.function f)

/-! ### Changing functions -/

/-- Change a function object in place. -/
def modifyFunction (h : Heap) (f : FunctionHandle) (change : FunctionObject → FunctionObject) :
    Checked Heap :=
  match h with
  | ⟨strings, functions, interned, config, threshold, collections⟩ =>
    match functions.modify? f.index change with
    | some functions => .ok ⟨strings, functions, interned, config, threshold, collections⟩
    | none => .error .freedFunction

/-- Give a function a name, or take it away. -/
def setName (h : Heap) (f : FunctionHandle) (name : Option StringHandle) : Checked Heap :=
  h.modifyFunction f fun o => { o with name := name }

/-- Add a constant to a function's pool: its index and the heap. -/
def addConstant (h : Heap) (f : FunctionHandle) (value : Value) : Checked (Nat × Heap) := do
  let index := (← h.function f).chunk.constants.size
  let h ← h.modifyFunction f fun o => { o with chunk := (o.chunk.addConstant value).2 }
  return (index, h)

end Heap

end LoxBytecode
