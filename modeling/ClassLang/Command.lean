import ClassLang.Command.Arguments
import ClassLang.Command.OutputPath
import ClassLang.Session
import ClassLang.Typed.Printer

/-!
# The command

What the command does to a file tree and what it prints. It lists the tokens or the tree of a
module, checks modules, builds a file for each class, or runs a static method.
-/

set_option autoImplicit false

namespace ClassLang.Command

/-- Why an action stops. -/
inductive CommandFailure where
  | session (failure : Failure)
  | unscannable (root : String) (problem : FileProblem)
  | noTarget
  | noMethod (logical : ModulePath) (method : String)
  | instanceMethod (logical : ModulePath) (method : String)
  | argumentCount (method : String) (wanted given : Nat)
  | invalidArgument (text : String) (ty : Ty)
  | directoryNotMade (path : String) (problem : FileProblem)
  | fileNotWritten (path : String) (problem : FileProblem)
deriving DecidableEq, Inhabited

/-- The wording of a failure, with the sources as they are. -/
def CommandFailure.message (read : ModulePath → ReadOutcome) : CommandFailure → String
  | .session failure => failure.render read
  | .unscannable root problem =>
    "failed to scan " ++ root ++ ": IO error for operation on " ++ root ++ ": " ++
      problem.message ++ ": " ++ problem.message
  | .noTarget => "give a module path or --all"
  | .noMethod logical method => logical.text ++ " has no method " ++ method
  | .instanceMethod logical method =>
    logical.text ++ "." ++ method ++ " is an instance method; only static methods can be run"
  | .argumentCount method wanted given =>
    method ++ " takes " ++ toString wanted ++ " arguments, but " ++ toString given ++
      " were given"
  | .invalidArgument text ty => "`" ++ text ++ "` is not a valid " ++ ty.name
  | .directoryNotMade path problem =>
    "failed to create directory " ++ Text.quoted path ++ ": " ++ problem.message
  | .fileNotWritten path problem =>
    "failed to write output file " ++ path ++ ": " ++ problem.message

/-- The state of an action: what is compiled, the files, and what is printed so far. -/
structure Work where
  session : Session
  tree : FileTree
  out : String

/-- Steps of an action. -/
abbrev Doing := ExceptT CommandFailure (StateM Work)

/-- Prints a line. -/
def print (line : String) : Doing Unit := modify fun w => { w with out := w.out ++ line ++ "\n" }

/-- The result of something that needs no state. -/
def lift {α : Type} (outcome : Except Failure α) : Doing α :=
  match outcome with
  | .ok a => return a
  | .error failure => throw (.session failure)

/-- Makes a request to the session. -/
def request {α : Type} (r : ClassLang.Request α) : Doing α := do
  let w ← get
  let (outcome, session) := r.run w.session
  set { w with session := session }
  lift outcome

/-- The module that an argument names, with or without the extension of its file. -/
def modulePath (text : String) : ModulePath := ModulePath.parse ((Resolve.stem? text).getD text)

/-- The module that a file defines: the one of its name, or its directory. -/
def moduleOfFile? (position : List String) : Option ModulePath := do
  let file ← position.getLast?
  let parts ←
    if file = Resolve.directoryEntry then some position.dropLast
    else (Resolve.stem? file).map fun name => position.dropLast ++ [name]
  guard (parts ≠ [])
  return ⟨parts⟩

/-- Leaves out an item that equals the one before it. -/
def withoutRepeats {α : Type} [DecidableEq α] : List α → List α
  | [] => []
  | [a] => [a]
  | a :: b :: rest => if a = b then withoutRepeats (b :: rest) else a :: withoutRepeats (b :: rest)

/-- The modules of all files below a directory, in the order of their names. -/
def discover (tree : FileTree) (root : String) : Except FileProblem (List ModulePath) := do
  let modules := (← tree.filesBelow root).filterMap moduleOfFile?
  return withoutRepeats (modules.mergeSort fun a b => a.text ≤ b.text)

/-- Changes the files. -/
def change (failure : FileProblem → CommandFailure)
    (edit : FileTree → Except FileProblem Unit × FileTree) : Doing Unit := do
  let w ← get
  let (outcome, tree) := edit w.tree
  set { w with tree := tree }
  match outcome with
  | .ok _ => return ()
  | .error problem => throw (failure problem)

/-- Writes the file of a compiled module, and says so. -/
def writeModule (output : String) (m : CompiledModule) : Doing Unit := do
  let file := OutputPath.ofModule output m.origin.logical
  let directory := (OutputPath.parent? file).getD ""
  if directory ≠ "" then
    change (.directoryNotMade directory) (·.makeDirectories directory)
  change (.fileNotWritten file) (·.writeFile file m.artifact.bytes)
  print ("wrote " ++ file)

/-- Compiles modules in order. -/
def compileAll (sources : Sources) : List ModulePath → Doing Unit
  | [] => return ()
  | target :: rest => do
    let _ ← request (Session.compile sources target)
    compileAll sources rest

/-- The modules to build. -/
def targets (root : String) : Target → Doing (List ModulePath)
  | .everything => do
    match discover (← get).tree root with
    | .ok modules => return modules
    | .error problem => throw (.unscannable root problem)
  | .one path => return [modulePath path]
  | .unspecified => throw .noTarget

/-- Reads the arguments of a method, in order. -/
def argumentValues : List (Ty × String) → Except CommandFailure (List Machine.Value)
  | [] => .ok []
  | (ty, text) :: rest =>
    match Machine.Value.read? ty text with
    | none => .error (.invalidArgument text ty)
    | some value => (argumentValues rest).map (value :: ·)

/-- Compiles a module, runs a static method of it, and prints the result. -/
def runMethod (sources : Sources) (logical : ModulePath) (method : String) (args : List String) :
    Doing Unit := do
  let compiled ← request (Session.compile sources logical)
  match compiled.artifact.method? method with
  | none => throw (.noMethod logical method)
  | some m =>
    if !m.isStatic then throw (.instanceMethod logical method)
    else if m.params.length ≠ args.length then
      throw (.argumentCount method m.params.length args.length)
    else
      match argumentValues (m.params.zip args) with
      | .error failure => throw failure
      | .ok values =>
        let result ← request (Session.invoke logical method values)
        print result.text

/-- Does what is asked for, with modules below the directory `root`. -/
def perform (root : String) (action : Action) : Doing Unit := do
  let sources := (← get).tree.sources root
  match action with
  | .lex path =>
    let tokens ← lift (sources.tokens (modulePath path))
    tokens.forM fun t => print (t.span.text ++ "\t" ++ t.token.text)
  | .parse path =>
    let tree ← lift (sources.tree (modulePath path))
    print tree.text
  | .check path =>
    let _ ← request (Session.compile sources (modulePath path))
    let session := (← get).session
    session.modules.forM fun m =>
      match session.table.get? m.id with
      | some c => print (c.text session.table)
      | none => return ()
  | .build target output =>
    let modules ← targets root target
    compileAll sources modules
    (← get).session.modules.forM (writeModule output)
  | .run path method args => runMethod sources (modulePath path) method args

/-- What a command leaves behind. -/
structure Report where
  exit : UInt32
  out : String
  err : String
  verbose : Bool
  tree : FileTree
deriving DecidableEq, Inhabited

/-- The line for a command line that cannot be read. -/
def usage : String :=
  "usage: nz [--root DIR] [-v] lex PATH | parse PATH | check PATH | build [PATH | --all] [-o DIR]" ++
    " | run PATH METHOD [ARG...]"

def versionText : String := "nz-cli 0.1.0"

/-- Runs the command on a file tree. -/
def run (tree : FileTree) (args : List String) : Report :=
  match Arguments.parse args with
  | none => ⟨2, "", usage ++ "\n", false, tree⟩
  | some (.version verbose) => ⟨0, versionText ++ "\n", "", verbose, tree⟩
  | some (.action root verbose action) =>
    let (outcome, w) := (perform root action).run ⟨.initial, tree, ""⟩
    match outcome with
    | .ok _ => ⟨0, w.out, "", verbose, w.tree⟩
    | .error failure =>
      ⟨1, w.out, failure.message (w.tree.readText root) ++ "\n", verbose, w.tree⟩

end ClassLang.Command
