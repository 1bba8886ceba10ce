import ClassLang.Failure
import ClassLang.Tree.Parser

/-!
# Module resolution

From a root module, imports are followed depth first. The modules come out with every module behind
those that it imports. A module that is reached again while its own imports are still followed
closes a cycle; one that is finished is shared, so that no module is searched for twice.
-/

set_option autoImplicit false

namespace ClassLang.Resolve

/-- The extension of source files. -/
def extension : String := ".nz"

/-- The file of a module that is a directory. -/
def directoryEntry : String := "main.nz"

/-- The name of a source file without its extension. -/
def stem? (file : String) : Option String :=
  let name := file.toList
  if extension.toList.isSuffixOf name then
    some (String.ofList (name.take (name.length - extension.toList.length)))
  else none

/-- A module with its text, and for each import its place and the position of the imported
module. -/
structure ResolvedModule where
  origin : ModuleOrigin
  source : String
  tree : Tree.Module
  imports : List (Span × Nat)

/-- How far the search of a module has come. -/
inductive Mark where
  | visiting
  | finished (position : Nat)
deriving DecidableEq, Inhabited

/-- The state of a search: the mark of every module reached, the finished modules in order, and the
files that were asked for, in order. -/
structure Search where
  marks : List (ModulePath × Mark)
  finished : List ResolvedModule
  reads : List ModulePath

def Search.empty : Search := ⟨[], [], []⟩

/-- Steps of a search, which may fail. -/
abbrev Resolving := ExceptT Failure (StateM Search)

/-- Who asks for a module: the module that imports it, with the import. -/
structure Importer where
  origin : ModuleOrigin
  span : Span
  rel : RelativePath
deriving DecidableEq, Inhabited

/-- A fault of the import, or of the request for the root. -/
def failFor (importer? : Option Importer) (fault : Fault) : Failure :=
  match importer? with
  | some importer => .attributed importer.origin ⟨importer.span, fault⟩
  | none => .unattributed fault

/-- Reads a file, if it exists. -/
def readFile (read : ModulePath → ReadOutcome) (path : ModulePath) : Resolving (Option String) := do
  modify fun s => { s with reads := s.reads ++ [path] }
  match read path with
  | .text source => return some source
  | .missing => return none
  | .failed reason => throw (.sourceUnreadable reason)

/-- Finds the file of a module: the file with its name, or the entry of its directory. -/
def locate (read : ModulePath → ReadOutcome) (logical : ModulePath) (directoryOnly : Bool) :
    Resolving (Option (ModulePath × String)) := do
  let directory := logical.push directoryEntry
  let entry : Resolving (Option (ModulePath × String)) := do
    let source? ← readFile read directory
    return source?.map fun source => (directory, source)
  match if directoryOnly then none else logical.withExtension? extension with
  | none => entry
  | some file =>
    match ← readFile read file with
    | some source => return some (file, source)
    | none => entry

/-- What is missing when `locate` finds nothing. -/
def notFound (rel : RelativePath) (logical : ModulePath) (directoryOnly : Bool) : Fault :=
  let directory := logical.push directoryEntry
  match if directoryOnly then none else logical.withExtension? extension with
  | some file => .moduleNotFound rel file directory
  | none => .directoryNotFound rel directory

/-- Follows the imports of a module in order; `visit` gives the position of an imported module. -/
def followImports (visit : Importer → ModulePath → Bool → Resolving Nat) (origin : ModuleOrigin) :
    List Tree.Import → Resolving (List (Span × Nat))
  | [] => return []
  | item :: rest => do
    match item.path with
    | .fromTop _ => throw (.attributed origin ⟨item.span, .notImplemented .globalImports⟩)
    | .relative rel =>
      match origin.full.resolve? rel with
      | none => throw (.attributed origin ⟨item.span, .unresolvable rel origin.logical⟩)
      | some target => do
        let position ← visit ⟨origin, item.span, rel⟩ target rel.parentsOnly
        let others ← followImports visit origin rest
        return (item.span, position) :: others

/-- Visits a module with everything that it imports, and gives its position. The bound is on the
number of modules that are open at the same time. -/
def visit (read : ModulePath → ReadOutcome) :
    (bound : Nat) → Option Importer → ModulePath → (directoryOnly : Bool) → Resolving Nat
  | 0, importer?, _, _ => throw (failFor importer? .boundReached)
  | bound + 1, importer?, logical, directoryOnly => do
    match (← get).marks.lookup logical, logical.last? with
    | some (.finished position), _ => return position
    | some .visiting, _ => throw (failFor importer? (.circularDependency logical))
    | none, none => throw (failFor importer? .emptyModulePath)
    | none, some name => do
      modify fun s => { s with marks := (logical, .visiting) :: s.marks }
      match ← locate read logical directoryOnly with
      | none =>
        let rel := (importer?.map Importer.rel).getD ⟨0, logical⟩
        throw (failFor importer? (notFound rel logical directoryOnly))
      | some (full, source) => do
        let origin : ModuleOrigin := ⟨logical, full⟩
        match Tree.parse source name with
        | .error e => throw (.attributed origin e)
        | .ok tree => do
          let imports ←
            followImports (fun importer => visit read bound (some importer)) origin tree.imports
          let s ← get
          let position := s.finished.length
          let done : ResolvedModule := ⟨origin, source, tree, imports⟩
          set { s with
            marks := (logical, Mark.finished position) :: s.marks
            finished := s.finished ++ [done] }
          return position

/-- A bound on the modules that can be open at the same time. A file is known by at most two names,
each of which may stand behind any part of the path of the root. -/
def depthBound (fileCount : Nat) (root : ModulePath) : Nat :=
  2 * fileCount * (root.parts.length + 1) + 1

/-- The modules that a root needs, every module behind those that it imports, together with the
files that were asked for. -/
def linearize (sources : Sources) (root : ModulePath) :
    Except Failure (List ResolvedModule) × List ModulePath :=
  let (outcome, search) :=
    (visit sources.read (depthBound sources.fileCount root) none root false).run Search.empty
  (outcome.map fun _ => search.finished, search.reads)

end ClassLang.Resolve
