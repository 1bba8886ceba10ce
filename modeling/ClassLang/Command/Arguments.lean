import ClassLang.ModulePath

/-!
# Command lines

Reads the arguments of the command. Options of the command itself stand before the name of an
action, those of an action behind it; `--` ends the options. A value is never taken from a word that
looks like an option, unless it is written into the option (`--root=-d`, `-o-d`). Nothing may be
given twice.
-/

set_option autoImplicit false

namespace ClassLang.Command

/-- What is to be built. -/
inductive Target where
  | everything
  | one (path : String)
  | unspecified
deriving DecidableEq, Inhabited

/-- What the command is to do. -/
inductive Action where
  | lex (path : String)
  | parse (path : String)
  | check (path : String)
  | build (target : Target) (output : String)
  | run (path method : String) (args : List String)
deriving DecidableEq, Inhabited

/-- A readable command line. -/
inductive Arguments where
  | version (verbose : Bool)
  | action (root : String) (verbose : Bool) (action : Action)
deriving DecidableEq, Inhabited

/-- How an argument looks. -/
inductive ArgumentForm where
  /-- The end of the options, `--`. -/
  | separator
  /-- A name behind two dashes, perhaps with a value: `--name` or `--name=value`. -/
  | long (name : String) (value? : Option String)
  /-- One or more letters behind a dash. -/
  | short (letters : List Char)
  | plain (text : String)
deriving DecidableEq, Inhabited

/-- The form of an argument. A dash alone is plain. -/
def ArgumentForm.ofText (text : String) : ArgumentForm :=
  match text.toList with
  | ['-', '-'] => .separator
  | '-' :: '-' :: rest =>
    let name := String.ofList (rest.takeWhile (· ≠ '='))
    match rest.dropWhile (· ≠ '=') with
    | [] => .long name none
    | _ :: value => .long name (some (String.ofList value))
  | '-' :: c :: rest => .short (c :: rest)
  | _ => .plain text

/-- Whether an argument can be the value of the option before it. -/
def isValue (text : String) : Bool :=
  match ArgumentForm.ofText text with
  | .plain _ => true
  | _ => false

/-- Sets the directory of an option, which must be new and not empty. -/
def setDirectory (old? : Option String) (value : String) : Option String :=
  if old?.isSome ∨ value = "" then none else some value

/-- The arguments of an action without options. -/
def plainArguments : List String → Option (List String)
  | [] => some []
  | arg :: rest =>
    match ArgumentForm.ofText arg with
    | .separator => some rest
    | .plain text => (plainArguments rest).map (text :: ·)
    | _ => none

/-- The options of `build` as far as they are read. -/
structure BuildOptions where
  paths : List String
  output? : Option String
  all : Bool
deriving DecidableEq, Inhabited

/-- Reads the arguments of `build`. -/
def buildOptions (b : BuildOptions) : List String → Option BuildOptions
  | [] => some b
  | arg :: rest =>
    let takeValue : Option BuildOptions :=
      match rest with
      | [] => none
      | value :: rest => do
        guard (isValue value)
        let output ← setDirectory b.output? value
        buildOptions { b with output? := some output } rest
    let withValue (value : String) : Option BuildOptions := do
      let output ← setDirectory b.output? value
      buildOptions { b with output? := some output } rest
    match ArgumentForm.ofText arg with
    | .separator => some { b with paths := b.paths ++ rest }
    | .plain text => buildOptions { b with paths := b.paths ++ [text] } rest
    | .long "all" none => if b.all then none else buildOptions { b with all := true } rest
    | .long "output" none => takeValue
    | .long "output" (some value) => withValue value
    | .short ['o'] => takeValue
    | .short ('o' :: '=' :: value) => withValue (String.ofList value)
    | .short ('o' :: value) => withValue (String.ofList value)
    | _ => none

/-- The directory for the output where none is given. -/
def defaultOutput : String := "out"

/-- What `build` is to do: everything or one module, not both. -/
def BuildOptions.action? (b : BuildOptions) : Option Action :=
  let output := b.output?.getD defaultOutput
  match b.paths, b.all with
  | [], true => some (.build .everything output)
  | [], false => some (.build .unspecified output)
  | [path], false => some (.build (.one path) output)
  | _, _ => none

/-- Reads an action by its name and its arguments. -/
def action? (name : String) (args : List String) : Option Action :=
  match name with
  | "lex" => do
    let [path] ← plainArguments args | none
    return .lex path
  | "parse" => do
    let [path] ← plainArguments args | none
    return .parse path
  | "check" => do
    let [path] ← plainArguments args | none
    return .check path
  | "build" => do (← buildOptions ⟨[], none, false⟩ args).action?
  | "run" => do
    let path :: method :: values ← plainArguments args | none
    return .run path method values
  | _ => none

/-- The options before the action as far as they are read. -/
structure TopOptions where
  root? : Option String
  verbose : Bool
deriving DecidableEq, Inhabited

/-- Reads letters behind a dash; the flag says whether the version is asked for. -/
def topLetters : TopOptions → List Char → Option (TopOptions × Bool)
  | o, [] => some (o, false)
  | o, 'v' :: rest => if o.verbose then none else topLetters { o with verbose := true } rest
  | o, 'V' :: _ => some (o, true)
  | _, _ :: _ => none

/-- The directory of the modules where none is given. -/
def defaultRoot : String := "."

/-- Reads a command line from its first argument on. -/
def argumentsFrom (o : TopOptions) : List String → Option Arguments
  | [] => none
  | arg :: rest =>
    match ArgumentForm.ofText arg with
    | .separator => none
    | .plain name => do
      let action ← action? name rest
      return .action (o.root?.getD defaultRoot) o.verbose action
    | .long "root" none =>
      match rest with
      | [] => none
      | value :: rest => do
        guard (isValue value)
        let root ← setDirectory o.root? value
        argumentsFrom { o with root? := some root } rest
    | .long "root" (some value) => do
      let root ← setDirectory o.root? value
      argumentsFrom { o with root? := some root } rest
    | .long "verbose" none =>
      if o.verbose then none else argumentsFrom { o with verbose := true } rest
    | .long "version" none => some (.version o.verbose)
    | .long _ _ => none
    | .short letters => do
      let (o, version) ← topLetters o letters
      if version then return .version o.verbose else argumentsFrom o rest

/-- Reads a command line; none where it asks for nothing that the command can do. -/
def Arguments.parse (args : List String) : Option Arguments := argumentsFrom ⟨none, false⟩ args

end ClassLang.Command
