import LoxBytecode.Proofs.Syntax.Tree

/-!
# Lexical Scoping

Which declaration a name refers to, read off the syntax tree alone. A `Place` in a program knows
the locals in scope of the function there and of the functions around it. A name belongs to the
innermost of these locals that has it (`Place.find?`), and to a global if there is none.

`Stmt.references` lists the uses of variables in the code of one function, in the order of
evaluation, and `Stmt.nested` the functions that it declares, each with the place of its body.
-/

namespace LoxBytecode

/-! ### Places -/

/-- The names of the locals of a function, innermost first. The last one is that of slot 0, which
is empty because no name refers to it. -/
abbrev Frame := List String

/-- The slot of the innermost local with a name. A local's slot is the number of those before
it. -/
def slotOf? (name : String) : Frame → Option Nat
  | [] => none
  | n :: ns => if n = name then some ns.length else slotOf? name ns

/-- The innermost local with a name in some functions, innermost first: how many of the functions
lie between, and its slot. -/
def findIn? (name : String) : List Frame → Option (Nat × Nat)
  | [] => none
  | f :: fs =>
    match slotOf? name f with
    | some slot => some (0, slot)
    | none => (findIn? name fs).map fun place => (place.1 + 1, place.2)

/-- A place in a program. -/
structure Place where
  /-- The locals in scope of the function. -/
  frame : Frame
  /-- Those of the functions around it, innermost first. -/
  around : List Frame
  /-- Whether it is outside all functions and blocks, where declarations are global. -/
  top : Bool
deriving DecidableEq, Repr

namespace Place

/-- The place at the beginning of a script. -/
def script : Place := ⟨[""], [], true⟩

/-- The local that a name refers to: how many functions further out it is, and its slot. -/
def find? (p : Place) (name : String) : Option (Nat × Nat) :=
  findIn? name (p.frame :: p.around)

/-- The place inside a new block. -/
def enter (p : Place) : Place :=
  { p with top := false }

/-- The place behind the declaration of a name. -/
def declare (p : Place) (name : String) : Place :=
  if p.top then p else { p with frame := name :: p.frame }

/-- The place in the body of a function that is declared here. -/
def inside (p : Place) (parameters : List String) : Place :=
  ⟨parameters.reverse ++ [""], p.frame :: p.around, false⟩

/-- The place behind a statement. -/
def after (p : Place) : Stmt → Place
  | .seq first second => (p.after first).after second
  | .varDecl name _ | .classDecl name | .funDecl name _ _ => p.declare name
  | .skip | .expression _ | .print _ | .del .. | .ret _ | .branch .. | .whileLoop ..
  | .forLoop .. | .block _ => p

end Place

/-! ### References -/

/-- A use of a variable. -/
structure Reference where
  place : Place
  name : String
  /-- Whether the variable is assigned to. -/
  write : Bool
deriving DecidableEq, Repr

mutual

/-- The uses of variables in an expression at a place. -/
def Expr.references (p : Place) : Expr → List Reference
  | .literal _ | .number _ | .string _ => []
  | .variable name => [⟨p, name, false⟩]
  | .assign name value => value.references p ++ [⟨p, name, true⟩]
  | .unary _ e | .get e _ => e.references p
  | .binary _ l r | .and l r | .or l r | .set l _ r => l.references p ++ r.references p
  | .call callee arguments => callee.references p ++ referencesAll p arguments

/-- The uses of variables in some expressions. -/
def Expr.referencesAll (p : Place) : List Expr → List Reference
  | [] => []
  | e :: es => e.references p ++ referencesAll p es

end

/-- The uses of variables in an expression that may be left out. -/
def Expr.referencesOf (p : Place) : Option Expr → List Reference
  | none => []
  | some e => e.references p

namespace Stmt

/-- The uses of variables in a statement at a place, those in nested functions left aside. The
step of a loop comes before its body, as it does in the source. -/
def references (p : Place) : Stmt → List Reference
  | .skip | .classDecl _ | .funDecl .. => []
  | .seq first second => first.references p ++ second.references (p.after first)
  | .expression e | .print e => e.references p
  | .del object _ => [⟨p, object, false⟩]
  | .ret value | .varDecl _ value => Expr.referencesOf p value
  | .branch c yes no => c.references p ++ (yes.references p ++ no.references p)
  | .whileLoop c body => c.references p ++ body.references p
  | .forLoop first c step body =>
    let q := p.enter.after first
    first.references p.enter ++ (Expr.referencesOf q c ++
      (Expr.referencesOf q step ++ body.references q))
  | .block body => body.references p.enter

/-- The functions that a statement at a place declares, by the places in their bodies. Inside its
body the name of a function is declared already. -/
def nested (p : Place) : Stmt → List (Place × Stmt)
  | .skip | .expression _ | .print _ | .del .. | .ret _ | .varDecl .. | .classDecl _ => []
  | .seq first second => first.nested p ++ second.nested (p.after first)
  | .branch _ yes no => yes.nested p ++ no.nested p
  | .whileLoop _ body => body.nested p
  | .forLoop first _ _ body => first.nested p.enter ++ body.nested (p.enter.after first)
  | .block body => body.nested p.enter
  | .funDecl name parameters body => [((p.declare name).inside parameters, body)]

end Stmt

end LoxBytecode
