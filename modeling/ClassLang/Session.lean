import ClassLang.Code.Generate
import ClassLang.Machine.Loader
import ClassLang.Resolve
import ClassLang.Token.Listing
import ClassLang.Typed.Checker

/-!
# Sessions

A session compiles modules one after the other, each at most once, and runs their methods. Modules
that are compiled stay so, also when a later module of the same request fails; a module that fails
leaves the session as it was. The sources may change between requests.
-/

set_option autoImplicit false

namespace ClassLang

open Code (Artifact)
open Machine (Loader Loading Value)
open Resolve (ResolvedModule)
open Typed (ClassTable)

/-- A module that is checked, generated and loaded. -/
structure CompiledModule where
  origin : ModuleOrigin
  id : ClassId
  artifact : Artifact
deriving DecidableEq, Inhabited

/-- The classes of a session, the compiled modules in order, and what is loaded. -/
structure Session where
  table : ClassTable
  modules : List CompiledModule
  loader : Loader

/-- Requests that change a session; what they change stays changed when they fail. -/
abbrev Request := ExceptT Failure (StateM Session)

namespace Session

def initial : Session := ⟨.empty, [], .initial⟩

/-- The compiled module with a name. -/
def module? (s : Session) (logical : ModulePath) : Option CompiledModule :=
  s.modules.find? (·.origin.logical = logical)

/-- Makes a step of the loader. -/
def load {α : Type} (step : Loading α) : Request α :=
  ExceptT.mk fun ⟨table, modules, loader⟩ =>
    let (outcome, loader) := step.run loader
    (outcome, ⟨table, modules, loader⟩)

/-- The identities of the imported classes, by their positions among those compiled before. -/
def importIds (ids : List ClassId) (m : ResolvedModule) : List (Span × ClassId) :=
  m.imports.map fun (span, position) => (span, ids.getD position 0)

/-- Checks, generates and loads a module whose imports are compiled. -/
def compileModule (ids : List ClassId) (m : ResolvedModule) : Request ClassId := do
  let s ← get
  match s.module? m.origin.logical with
  | some compiled => return compiled.id
  | none =>
    let id := s.table.size
    match Typed.checkModule s.table m.origin.logical m.tree (importIds ids m) with
    | .error e => throw (.attributed m.origin e)
    | .ok table =>
      match table.get? id with
      | none => throw (.noSuchClass m.origin.logical.text)
      | some c =>
        match Code.generateClass table c m.source with
        | .error e => throw (.attributed m.origin e)
        | .ok artifact => do
          load (Loader.define artifact)
          modify fun s =>
            { s with table := table, modules := s.modules ++ [⟨m.origin, id, artifact⟩] }
          return id

/-- Compiles modules in order; `ids` are the classes of those before. -/
def compileAll (ids : List ClassId) : List ResolvedModule → Request Unit
  | [] => return ()
  | m :: rest => do
    let id ← compileModule ids m
    compileAll (ids ++ [id]) rest

/-- Compiles a module and everything that it imports. -/
def compile (sources : Sources) (logical : ModulePath) : Request CompiledModule := do
  match (Resolve.linearize sources logical).1 with
  | .error failure => throw failure
  | .ok modules => do
    compileAll [] modules
    match (← get).module? logical with
    | some compiled => return compiled
    | none => throw (.noSuchClass logical.text)

/-- Runs a method of a compiled module. -/
def invoke (logical : ModulePath) (method : String) (args : List Value) : Request Value :=
  load (Loader.invoke logical.text method args)

/-- Makes an object of the class of a compiled module. -/
def newObject (logical : ModulePath) (fields : List Value) : Request Value :=
  load (Loader.newObject logical.text fields)

/-- The value of a field of an object. -/
def field (object : Value) (name : String) : Request Value := load (Loader.field object name)

end Session

namespace Sources

/-- Finds the text of one module. -/
def find (sources : Sources) (logical : ModulePath) : Except Failure (ModuleOrigin × String) :=
  match ((Resolve.locate sources.read logical false).run .empty).1 with
  | .error failure => .error failure
  | .ok (some (full, source)) => .ok (⟨logical, full⟩, source)
  | .ok none =>
    .error (.unattributed
      (if logical.isEmpty then .emptyModulePath
      else Resolve.notFound ⟨0, logical⟩ logical false))

/-- The tokens of one module; its imports are not followed. -/
def tokens (sources : Sources) (logical : ModulePath) : Except Failure (List Lexed) := do
  let (origin, source) ← sources.find logical
  (ClassLang.tokens source).mapError (.attributed origin)

/-- The tree of one module; its imports are not followed. -/
def tree (sources : Sources) (logical : ModulePath) : Except Failure Tree.Module := do
  let (origin, source) ← sources.find logical
  match logical.last? with
  | none => .error (.unattributed .emptyModulePath)
  | some name => (Tree.parse source name).mapError (.attributed origin)

end Sources

end ClassLang
