import LoxBytecode.CommandLine.ReadError

/-!
# File Trees

Files and directories held in memory, and how a path leads through them. A path is followed one
name after the other, from the working directory or, behind a leading slash, from the root. The
first name that leads nowhere decides why the path cannot be read, so a name that is too long
does no harm behind one that does not exist.
-/

namespace LoxBytecode

/-- A file, or a directory with what is in it. -/
inductive FileTree where
  | file (contents : ByteArray)
  | directory (entries : List (String × FileTree))

namespace FileTree

/-! ### Making trees -/

/-- Add a file below the names that lead to it, with the directories on the way. What stands
under the same name before is hidden. -/
def addFile (contents : ByteArray) :
    List String → List (String × FileTree) → List (String × FileTree)
  | [], entries => entries
  | [name], entries => (name, .file contents) :: entries
  | name :: names, entries =>
    let inner := match entries.lookup name with
      | some (.directory inner) => inner
      | _ => []
    (name, .directory (addFile contents names inner)) :: entries

/-- The directory that holds some files, each under its path. -/
def ofFiles (files : List (String × ByteArray)) : FileTree :=
  .directory (files.foldl (fun entries (path, contents) =>
    addFile contents (path.splitOn "/") entries) [])

/-! ### Following paths -/

/-- The bytes that one name may have. -/
def maxNameSize : Nat := 255

/-- The bytes that a whole path may have. -/
def maxPathSize : Nat := 4095

/-- A place in a tree. -/
structure Place where
  here : FileTree
  /-- The directories around it, innermost first. -/
  around : List FileTree

namespace Place

/-- The outermost place. -/
def root (p : Place) : Place :=
  ⟨p.around.getLastD p.here, []⟩

/-- The place to which one name leads. Only directories lead anywhere; the root is the directory
around itself. -/
def follow (p : Place) (name : String) : Except ReadError Place :=
  match p.here with
  | .file _ => .error .notADirectory
  | .directory entries =>
    if name = "" ∨ name = "." then .ok p
    else if name = ".." then
      match p.around with
      | [] => .ok p
      | outer :: rest => .ok ⟨outer, rest⟩
    else if maxNameSize < name.utf8ByteSize then .error .nameTooLong
    else match entries.lookup name with
      | some found => .ok ⟨found, p.here :: p.around⟩
      | none => .error .notFound

/-- The contents of the file to which a path leads. -/
def read (p : Place) (path : String) : Except ReadError ByteArray :=
  if path.isEmpty then .error .notFound
  else if maxPathSize < path.utf8ByteSize then .error .nameTooLong
  else do
    let start := if path.startsWith "/" then p.root else p
    match (← (path.splitOn "/").foldlM follow start).here with
    | .file contents => .ok contents
    | .directory _ => .error .isADirectory

end Place

end FileTree

end LoxBytecode
