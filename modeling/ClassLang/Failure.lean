import ClassLang.Fault
import ClassLang.Machine.Trap
import ClassLang.Machine.Word
import ClassLang.Sources

/-!
# Failures of a session

Why a request to a session has no answer: a fault in the text of some module, a source that cannot
be read, a class that cannot be loaded, or a call that cannot be made or stops. `Failure.message`
words them; `Failure.render` does the same with lines and columns in place of byte offsets, for
which it reads the text of the module again.
-/

set_option autoImplicit false

namespace ClassLang

open Machine (Trap Value Word)

/-- The name of a module and the file that it was found in. -/
structure ModuleOrigin where
  logical : ModulePath
  full : ModulePath
deriving DecidableEq, Inhabited

/-- A fault in the text of a module, or in what was asked for when there is no module yet. -/
structure ModuleError where
  origin? : Option ModuleOrigin
  error : CompileError
deriving DecidableEq, Inhabited

/-- The wording of an error whose place, if it has one, is written as `place`. -/
def ModuleError.wording (e : ModuleError) (place : Span → String) : String :=
  match e.origin? with
  | some origin =>
    "Error at " ++ origin.logical.text ++ " " ++ place e.error.span ++ ": " ++ e.error.fault.message
  | none => "Error: " ++ e.error.fault.message

def ModuleError.message (e : ModuleError) : String := e.wording Span.text

/-- The message with lines and columns, where the text of the module can be read. -/
def ModuleError.render (read : ModulePath → ReadOutcome) (e : ModuleError) : String :=
  match e.origin?.map fun origin => read origin.full with
  | some (.text source) => e.wording (LineIndex.ofText source).rangeText
  | _ => e.message

/-- What is wrong with the values that were passed or came out. -/
inductive ArgumentProblem where
  | fieldCount (wanted given : Nat)
  | fieldType (name : String) (wanted : Ty) (given : Value)
  | notAnObject (given : Value)
  | argumentCount (wanted given : Nat)
  | argumentType (wanted : Ty) (given : Value)
  /-- A word that stands for no value of the type. -/
  | resultType (wanted : Ty) (given : Word)
deriving DecidableEq, Inhabited

def ArgumentProblem.message : ArgumentProblem → String
  | .fieldCount wanted given =>
    "expected " ++ toString wanted ++ " fields, got " ++ toString given
  | .fieldType name wanted given =>
    "field " ++ name ++ ": expected " ++ wanted.name ++ ", got " ++ given.text
  | .notAnObject given => given.text ++ " is not an object"
  | .argumentCount wanted given =>
    "expected " ++ toString wanted ++ " arguments, got " ++ toString given
  | .argumentType wanted given => "expected " ++ wanted.name ++ ", got " ++ given.text
  | .resultType wanted given => "expected a " ++ wanted.name ++ " value, got " ++ given.text

/-- Why a request has no answer. Classes are named by their module here, apart from a `runtime`
failure, which names the class itself. -/
inductive Failure where
  | sourceUnreadable (reason : String)
  | inModule (error : ModuleError)
  | duplicateClass (moduleName : String)
  | unlinked (moduleName : String)
  | noSuchClass (moduleName : String)
  | noSuchMethod (moduleName method : String)
  | badArguments (method : String) (problem : ArgumentProblem)
  | runtime (className method : String) (line : Nat) (trap : Trap)
  | outOfMemory
deriving DecidableEq, Inhabited

namespace Failure

/-- A fault in a module. -/
def attributed (origin : ModuleOrigin) (e : CompileError) : Failure := .inModule ⟨some origin, e⟩

/-- A fault of the request itself. -/
def unattributed (fault : Fault) : Failure := .inModule ⟨none, ⟨⟨0, 0⟩, fault⟩⟩

def message : Failure → String
  | .sourceUnreadable reason => "failed to read source: " ++ reason
  | .inModule e => e.message
  | .duplicateClass moduleName => "class " ++ moduleName ++ " is already defined in this session"
  | .unlinked moduleName => "failed to link class " ++ moduleName
  | .noSuchClass moduleName => "no class " ++ moduleName ++ " has been loaded"
  | .noSuchMethod moduleName method => "class " ++ moduleName ++ " has no method " ++ method
  | .badArguments method problem => "bad arguments for " ++ method ++ ": " ++ problem.message
  | .runtime className method line trap =>
    "runtime error in " ++ className ++ "." ++ method ++ " (line " ++ toString line ++ "): " ++
      trap.message
  | .outOfMemory => "object heap exhausted"

/-- One line for a user, with lines and columns as the sources are now. -/
def render (read : ModulePath → ReadOutcome) : Failure → String
  | .inModule e => e.render read
  | other => "Error: " ++ other.message

end Failure

end ClassLang
