import ClassLang.Sources
import ClassLang.Span

/-!
# File trees

A finite tree of directories and files, as a command finds it and leaves it. Paths are followed name
by name, from the top or from the working directory; `.` stays and `..` goes up, but only from a
directory that exists.
-/

set_option autoImplicit false

namespace ClassLang

/-- Why a file cannot be used as it was meant to. -/
inductive FileProblem where
  | notFound
  | alreadyThere
  | notADirectory
  | isADirectory
  | nameTooLong
deriving DecidableEq, Inhabited

def FileProblem.message : FileProblem → String
  | .notFound => "No such file or directory (os error 2)"
  | .alreadyThere => "File exists (os error 17)"
  | .notADirectory => "Not a directory (os error 20)"
  | .isADirectory => "Is a directory (os error 21)"
  | .nameTooLong => "File name too long (os error 36)"

/-- What stands at a position of a tree. -/
inductive FileNode where
  | directory
  | file (content : List UInt8)
deriving DecidableEq, Inhabited

/-- Directories and files by their position, which is the list of names from the top. Whatever lies
above an entry is a directory, and so is the top. -/
structure FileTree where
  entries : List (List String × FileNode)
  /-- The position from which relative paths start. -/
  workDir : List String
deriving DecidableEq, Inhabited

/-- Where a path leads: to something, or to a free position in a directory. -/
inductive Place where
  | taken (position : List String) (node : FileNode)
  | free (position : List String)
deriving DecidableEq, Inhabited

namespace FileTree

/-- What stands at a position. -/
def node? (tree : FileTree) (position : List String) : Option FileNode :=
  match tree.entries.lookup position with
  | some node => some node
  | none =>
    if position.isPrefixOf tree.workDir ∨ tree.entries.any (position.isPrefixOf ·.1) then
      some .directory
    else none

/-- What a position is as a place. -/
def placeAt (tree : FileTree) (position : List String) : Place :=
  match tree.node? position with
  | some node => .taken position node
  | none => .free position

/-- The most bytes of a name. -/
def maxNameBytes : Nat := 255

/-- The most bytes of a written path. -/
def maxPathBytes : Nat := 4095

/-- Follows one name. -/
def enter (tree : FileTree) (name : String) : Place → Except FileProblem Place
  | .free _ => .error .notFound
  | .taken _ (.file _) => .error .notADirectory
  | .taken position .directory =>
    if byteLength name.toList > maxNameBytes then .error .nameTooLong
    else
      .ok (match name with
        | "." => .taken position .directory
        | ".." => .taken position.dropLast .directory
        | name => tree.placeAt (position ++ [name]))

/-- The names of a written path. One that ends in a slash means what is inside a directory. -/
def names (path : String) : List String :=
  let pieces := (ModulePath.segments path.toList).map String.ofList
  pieces.filter (· ≠ "") ++ if pieces.length ≠ 1 ∧ pieces.getLast? = some "" then ["."] else []

/-- Where a written path starts. -/
def start (tree : FileTree) (path : String) : Place :=
  .taken (if path.toList.head? = some '/' then [] else tree.workDir) .directory

/-- Follows names from a place on. -/
def follow (tree : FileTree) (start : Place) (path : List String) : Except FileProblem Place :=
  path.foldlM (fun place name => tree.enter name place) start

/-- Appends a name to a written path behind a slash; a slash at the end is used again. -/
def join (path name : String) : String :=
  if path = "" ∨ path.toList.getLast? = some '/' then path ++ name else path ++ "/" ++ name

/-- Where a written path leads. -/
def place (tree : FileTree) (path : String) : Except FileProblem Place :=
  if byteLength path.toList > maxPathBytes then .error .nameTooLong
  else tree.follow (tree.start path) (names path)

/-- Puts something at a position. -/
def put (tree : FileTree) (position : List String) (node : FileNode) : FileTree :=
  { tree with entries := tree.entries.filter (·.1 ≠ position) ++ [(position, node)] }

/-- The files with their positions. -/
def files (tree : FileTree) : List (List String × List UInt8) :=
  tree.entries.filterMap fun (position, node) =>
    match node with
    | .directory => none
    | .file content => some (position, content)

/-- Reads a text below a directory. -/
def readText (tree : FileTree) (directory : String) (path : ModulePath) : ReadOutcome :=
  match tree.place (path.parts.foldl join directory) with
  | .error .notFound => .missing
  | .error problem => .failed problem.message
  | .ok (.free _) => .missing
  | .ok (.taken _ .directory) => .failed FileProblem.isADirectory.message
  | .ok (.taken _ (.file content)) =>
    match String.fromUTF8? ⟨content.toArray⟩ with
    | some text => .text text
    | none => .failed "stream did not contain valid UTF-8"

/-- The texts below a directory as sources of modules. -/
def sources (tree : FileTree) (directory : String) : Sources :=
  ⟨tree.readText directory, tree.files.length⟩

/-- The positions of all files below a directory, counted from it. A path that leads to a file has
none below it. -/
def filesBelow (tree : FileTree) (directory : String) : Except FileProblem (List (List String)) :=
  match tree.place directory with
  | .error problem => .error problem
  | .ok (.free _) => .error .notFound
  | .ok (.taken _ (.file _)) => .ok []
  | .ok (.taken position .directory) =>
    .ok (tree.files.filterMap fun (file, _) =>
      if position.isPrefixOf file then some (file.drop position.length) else none)

/-- Makes one directory at a free place, or finds that there is one. -/
def makeDirectory (tree : FileTree) (start : Place) (path : List String) :
    Except FileProblem FileTree := do
  match ← tree.follow start path with
  | .free position => return tree.put position .directory
  | .taken _ .directory => return tree
  | .taken _ (.file _) => .error .alreadyThere

/-- Makes a directory, given by its names with the innermost first. Where what is above it is
missing, that is made before, and stays made when the directory itself fails after all. -/
def makeUpward (tree : FileTree) (start : Place) : List String → Except FileProblem Unit × FileTree
  | [] => (.ok (), tree)
  | name :: above =>
    let path := (name :: above).reverse
    match tree.makeDirectory start path with
    | .ok tree => (.ok (), tree)
    | .error .notFound =>
      match makeUpward tree start above with
      | (.error problem, tree) => (.error problem, tree)
      | (.ok _, tree) =>
        match tree.makeDirectory start path with
        | .ok tree => (.ok (), tree)
        | .error problem => (.error problem, tree)
    | .error problem => (.error problem, tree)

/-- Makes a directory and those above it. -/
def makeDirectories (tree : FileTree) (path : String) : Except FileProblem Unit × FileTree :=
  if byteLength path.toList > maxPathBytes then (.error .nameTooLong, tree)
  else tree.makeUpward (tree.start path) (names path).reverse

/-- Writes a file, in place of the one that is there. -/
def writeFile (tree : FileTree) (path : String) (content : List UInt8) :
    Except FileProblem Unit × FileTree :=
  match tree.place path with
  | .error problem => (.error problem, tree)
  | .ok (.taken _ .directory) => (.error .isADirectory, tree)
  | .ok (.taken position (.file _)) => (.ok (), tree.put position (.file content))
  | .ok (.free position) => (.ok (), tree.put position (.file content))

end FileTree

end ClassLang
