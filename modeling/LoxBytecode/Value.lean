import LoxBytecode.Number

/-!
# Values

Nil, booleans and numbers are held in a value itself; strings and functions live in a heap and
a value holds their handle. A handle is the index of a slot in the arena of its kind, so equal
interned strings have equal handles.
-/

namespace LoxBytecode

/-- A slot of the string arena. -/
structure StringHandle where
  index : Nat
deriving DecidableEq, Repr

/-- A slot of the function arena. -/
structure FunctionHandle where
  index : Nat
deriving DecidableEq, Repr

/-- A value of the language. `=` is equality of the data, `Value.equals` what programs see. -/
inductive Value where
  | nil
  | bool (b : Bool)
  | number (x : Number)
  | string (handle : StringHandle)
  | function (handle : FunctionHandle)
deriving DecidableEq, Repr

namespace Value

/-- The test for nil. -/
def isNil (v : Value) : Bool :=
  v matches .nil

/-- Only nil and false count as false in a condition. -/
def isFalsey : Value → Bool
  | .nil | .bool false => true
  | _ => false

/-- Whether the value refers to the heap. -/
def isObject : Value → Bool
  | .string _ | .function _ => true
  | _ => false

/-- The number of a numeric value. -/
def number? : Value → Option Number
  | .number x => some x
  | _ => none

/-- The handle of a string value. -/
def string? : Value → Option StringHandle
  | .string s => some s
  | _ => none

/-- The handle of a function value. -/
def function? : Value → Option FunctionHandle
  | .function f => some f
  | _ => none

/-- The name of the value's type. -/
def typeName : Value → String
  | .nil => "nil"
  | .bool _ => "boolean"
  | .number _ => "number"
  | .string _ => "string"
  | .function _ => "function"

/-- Equality as programs see it: numbers compare numerically, everything else is equal when it
is the same. -/
def equals : Value → Value → Bool
  | .number x, .number y => x.equals y
  | v, w => v == w

end Value

/-- Anything that keeps objects of a heap alive: the values through which it reaches them. -/
class HasRoots (ρ : Type) where
  /-- The values held, computed only when a collection runs. -/
  roots : ρ → List Value

export HasRoots (roots)

/-- A list of values holds its members. -/
instance : HasRoots (List Value) where
  roots values := values

/-- A pair holds what its parts hold. -/
instance {ρ σ : Type} [HasRoots ρ] [HasRoots σ] : HasRoots (ρ × σ) where
  roots pair := roots pair.1 ++ roots pair.2

end LoxBytecode
