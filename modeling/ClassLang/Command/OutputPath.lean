import ClassLang.FileTree

/-!
# Paths of output files

Written paths as the command builds and prints them. Pieces between slashes that are empty or a
single dot do not count, apart from the first one, which tells where the path starts.
-/

set_option autoImplicit false

namespace ClassLang.Command.OutputPath

/-- The pieces between the slashes. -/
def pieces (path : String) : List String := (ModulePath.segments path.toList).map String.ofList

/-- Leaves out pieces at the end that do not count. -/
def trimmed : List String → List String
  | [] => []
  | first :: rest => first :: (rest.reverse.dropWhile fun p => p = "" ∨ p = ".").reverse

/-- The path with these pieces; a first piece that is empty is the top. -/
def ofPieces (items : List String) : String :=
  if items = [""] then "/" else "/".intercalate items

/-- The name without what follows its last dot; a dot at the start is part of the name. -/
def stem (name : String) : String :=
  match (name.toList.reverse.dropWhile (· ≠ '.')).drop 1 with
  | [] => name
  | before => String.ofList before.reverse

/-- Sets the extension of the last name. A path that ends in no name stays as it is. -/
def withExtension (path extension : String) : String :=
  let items := trimmed (pieces path)
  match items.getLast? with
  | none => path
  | some name =>
    if name = ".." ∨ items = [""] ∨ items = ["."] then path
    else ofPieces (items.dropLast ++ [stem name ++ "." ++ extension])

/-- The directory in which a path lies. -/
def parent? (path : String) : Option String :=
  let items := trimmed (pieces path)
  if items = [""] then none else some (ofPieces (trimmed items.dropLast))

/-- The file for the class of a module, below the output directory. -/
def ofModule (output : String) (logical : ModulePath) : String :=
  withExtension (logical.parts.foldl FileTree.join output) "wasm"

end ClassLang.Command.OutputPath
