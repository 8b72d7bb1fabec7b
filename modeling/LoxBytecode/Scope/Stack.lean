import LoxBytecode.Scope

/-!
# Nested Functions

The functions being compiled form a stack: the current one, and those that enclose it,
innermost first. The script is the outermost; its level is 0.

`resolveCapture` looks a name up in the enclosing functions. A variable found there is passed
inwards through every function in between: the function next to its owner captures the slot,
and each further one captures the capture of the function around it.
-/

namespace LoxBytecode

/-- The functions being compiled. -/
structure FunctionStack where
  current : FunctionState
  /-- The functions around the current one, innermost first. -/
  enclosing : List FunctionState
deriving DecidableEq, Repr

/-- Find a name among the functions around `inner`, innermost first: the index of the capture
in `inner`, or none when no enclosing function has such a local, with the functions as the
search leaves them. -/
def resolveCapture (name : String) (inner : FunctionState) :
    List FunctionState → Except ScopeError (Option Nat) × FunctionState × List FunctionState
  | [] => (.ok none, inner, [])
  | outer :: rest =>
    match outer.resolveLocal name with
    | .error e => (.error e, inner, outer :: rest)
    | .ok (some slot) =>
      let (added, inner) := inner.addUpvalue ⟨true, slot⟩
      (added.map some, inner, outer.capture slot :: rest)
    | .ok none =>
      let (found, outer, rest) := resolveCapture name outer rest
      match found with
      | .ok (some index) =>
        let (added, inner) := inner.addUpvalue ⟨false, index⟩
        (added.map some, inner, outer :: rest)
      | .ok none => (.ok none, inner, outer :: rest)
      | .error e => (.error e, inner, outer :: rest)

/-- Resolve a name in a function that lies a number of functions further out. -/
def resolveCaptureOut (name : String) :
    Nat → FunctionState → List FunctionState →
      Except ScopeError (Option Nat) × FunctionState × List FunctionState
  | n + 1, inner, outer :: rest =>
    let (found, outer, rest) := resolveCaptureOut name n outer rest
    (found, inner, outer :: rest)
  | _, inner, rest => resolveCapture name inner rest

namespace FunctionStack

/-- The stack of a script alone. -/
def ofScript (script : FunctionState) : FunctionStack := ⟨script, []⟩

/-- The number of functions around the current one. -/
def level (s : FunctionStack) : Nat :=
  s.enclosing.length

/-- Change the current function. -/
def modifyCurrent (f : FunctionState → FunctionState) (s : FunctionStack) : FunctionStack :=
  match s with
  | ⟨current, enclosing⟩ => ⟨f current, enclosing⟩

/-- Begin a function nested in the current one. -/
def push (s : FunctionStack) (state : FunctionState) : FunctionStack :=
  ⟨state, s.current :: s.enclosing⟩

/-- Finish the current function and return to the one around it, if there is one. -/
def pop? (s : FunctionStack) : Option (FunctionState × FunctionStack) :=
  match s.enclosing with
  | [] => none
  | parent :: rest => some (s.current, ⟨parent, rest⟩)

/-- The outermost function. -/
def script (s : FunctionStack) : FunctionState :=
  s.enclosing.getLastD s.current

/-! ### Captures -/

/-- Resolve a name as a variable of a function around the current one. -/
def resolveUpvalue (s : FunctionStack) (name : String) :
    Except ScopeError (Option Nat) × FunctionStack :=
  match s with
  | ⟨current, enclosing⟩ =>
    let (found, current, enclosing) := resolveCapture name current enclosing
    (found, ⟨current, enclosing⟩)

/-- Whether a name is found when the search begins one level past the current function, where
there is no table for what it finds. -/
def resolvePast (s : FunctionStack) (name : String) :
    Checked (Except ScopeError (Option Nat) × FunctionStack) :=
  match s.current.resolveLocal name with
  | .error e => .ok (.error e, s)
  | .ok (some _) => .error .indexOutOfBounds
  | .ok none =>
    match s.resolveUpvalue name with
    | (.ok (some _), _) => .error .indexOutOfBounds
    | (.ok none, s) => .ok (.ok none, s)
    | (.error e, s) => .ok (.error e, s)

/-- Resolve a name as a variable of a function around the one at a level. -/
def resolveUpvalueAt (s : FunctionStack) (level : Nat) (name : String) :
    Checked (Except ScopeError (Option Nat) × FunctionStack) :=
  if level ≤ s.level then
    match s with
    | ⟨current, enclosing⟩ =>
      let (found, current, enclosing) :=
        resolveCaptureOut name (enclosing.length - level) current enclosing
      .ok (found, ⟨current, enclosing⟩)
  else if level = s.level + 1 then s.resolvePast name
  else .error .indexOutOfBounds

/-- Record that the local in a slot of the current function is captured. -/
def captureLocal (s : FunctionStack) (slot : Nat) : Checked FunctionStack :=
  if slot < s.current.locals.length then .ok (s.modifyCurrent (·.capture slot))
  else .error .indexOutOfBounds

end FunctionStack

/-- Every function being compiled keeps its objects alive, the outermost first. -/
instance : HasRoots FunctionStack where
  roots s := (s.enclosing.reverse ++ [s.current]).flatMap roots

end LoxBytecode
