import ClassLang.Command

/-!
# The program

Takes a picture of the directories that a command line speaks of, runs the command on it, prints
what the command prints, and writes the files that it made.
-/

set_option autoImplicit false

namespace ClassLang.Command

/-- The position of a written path, seen from a directory. -/
def positionFrom (workDir : List String) (path : String) : List String :=
  let start := if path.toList.head? = some '/' then [] else workDir
  (FileTree.names path).foldl (fun position name =>
    match name with
    | "." => position
    | ".." => position.dropLast
    | name => position ++ [name]) start

/-- The path of a module up to where it last goes up. -/
def ascent (path : ModulePath) : List String :=
  (path.parts.reverse.dropWhile (· ≠ "..")).reverse

/-- The directories in which a command line can look for files or make them. -/
def regions : Arguments → List String
  | .version _ => []
  | .action root _ action =>
    let around (path : String) : List String :=
      [root, (ascent (modulePath path)).foldl FileTree.join root]
    match action with
    | .lex path => around path
    | .parse path => around path
    | .check path => around path
    | .build (.one path) output => output :: around path
    | .build _ output => [root, output]
    | .run path _ _ => around path

/-- The written form of a position. -/
def positionText (position : List String) : String := "/" ++ "/".intercalate position

/-- How deep directories are looked into. -/
def maxNesting : Nat := 256

/-- What stands at a position of the disk. Only the content of sources is read. -/
def lookAt (position : List String) : IO (Option FileNode) := do
  let path := (← IO.currentDir) / positionText position
  if ← path.isDir then return some .directory
  else if ← path.pathExists then
    if ((position.getLast?.bind Resolve.stem?).isSome) then
      return some (.file (← IO.FS.readBinFile path).data.toList)
    else return some (.file [])
  else return none

/-- Everything at a position of the disk and below it. -/
def lookBelow : (depth : Nat) → List String → IO (List (List String × FileNode))
  | 0, _ => return []
  | depth + 1, position => do
    match ← lookAt position with
    | none => return []
    | some .directory => do
      let path := (← IO.currentDir) / positionText position
      let names := (← path.readDir).toList.map (·.fileName)
      let below ← names.mapM fun name => lookBelow depth (position ++ [name])
      return (position, .directory) :: below.flatten
    | some node => return [(position, node)]

/-- What stands above a position of the disk. -/
def lookAbove (position : List String) : IO (List (List String × FileNode)) := do
  let above := (List.range position.length).map fun n => position.take n
  let found ← above.mapM fun position => do
    return (← lookAt position).map fun node => (position, node)
  return found.filterMap id

/-- The part of the disk that a command line can touch. -/
def picture (args : List String) : IO FileTree := do
  let workDir := FileTree.names (← IO.currentDir).toString
  let places := (((Arguments.parse args).map regions).getD []).map (positionFrom workDir)
  let above ← places.mapM lookAbove
  let below ← places.mapM (lookBelow maxNesting)
  return ⟨above.flatten ++ below.flatten, workDir⟩

/-- Makes what is new in a tree. -/
def store (old new : FileTree) : IO Unit :=
  (new.entries.filter (· ∉ old.entries)).forM fun (position, node) =>
    match node with
    | .directory => IO.FS.createDirAll (positionText position)
    | .file content => IO.FS.writeBinFile (positionText position) ⟨content.toArray⟩

end ClassLang.Command

open ClassLang.Command in
def main (args : List String) : IO UInt32 := do
  let tree ← picture args
  let report := run tree args
  store tree report.tree
  IO.print report.out
  IO.eprint report.err
  return report.exit
