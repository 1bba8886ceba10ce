import ClassLang.Code.Binary
import ClassLang.Failure
import ClassLang.Machine.Exec

/-!
# Loading and running classes

A `Loader` holds the classes of a session, the memory for their objects, and the texts. A class is
linked when it is defined: each function that it imports is looked up, under the name of a module
and of a function, among what the host and the earlier classes have defined. A later definition of a
name hides the earlier ones.
-/

set_option autoImplicit false

namespace ClassLang.Machine

open Code (Artifact FuncType MethodCode)
open Code.Binary (hostModule memoryName textsName)

/-- What a name can stand for when a class is linked. -/
inductive Linkable where
  | memory
  | texts (base : UInt32)
  | func (ref : FuncRef) (type : FuncType)
deriving DecidableEq, Inhabited

/-- The name of a module, and a name in it. -/
abbrev LinkName := String × String

/-- The classes of a session and what they share. The first entry of a name counts. -/
structure Loader where
  classes : List Loaded
  names : List (LinkName × Linkable)
  memory : Memory
  texts : Texts
deriving DecidableEq, Inhabited

/-- Steps of a loader; what they change stays changed when they fail. -/
abbrev Loading := ExceptT Failure (StateM Loader)

namespace Loader

/-- The names that the host defines. -/
def hostNames : List (LinkName × Linkable) :=
  ((hostModule, memoryName), .memory) ::
    Builtin.all.filterMap fun b =>
      b.hostName?.map fun name => ((hostModule, name), .func (.host b) (Code.builtinType b))

/-- The loader of a new session. -/
def initial : Loader := ⟨[], hostNames, .initial, #[]⟩

/-- The class that a module defines. -/
def class? (l : Loader) (moduleName : String) : Option Loaded :=
  l.classes.find? (·.artifact.moduleName = moduleName)

def isDefined (l : Loader) (moduleName : String) : Bool := (l.class? moduleName).isSome

/-- The module of the class with an identity. -/
def moduleOf? (l : Loader) (id : ClassId) : Option String :=
  (l.classes.find? (·.artifact.id = id)).map (·.artifact.moduleName)

/-- What a name stands for. -/
def lookup? (l : Loader) (name : LinkName) : Option Linkable := l.names.lookup name

/-- The function of a name, where it has the type. -/
def func? (l : Loader) (name : LinkName) (type : FuncType) : Option FuncRef :=
  match l.lookup? name with
  | some (.func ref found) => if found = type then some ref else none
  | _ => none

/-- Links a class that is within the limits of the machine, as the next one of the loader. -/
def link? (l : Loader) (a : Artifact) : Option Loaded := do
  guard a.withinLimits
  guard (l.lookup? (hostModule, memoryName) = some .memory)
  let .texts base ← l.lookup? (a.moduleName, textsName) | none
  let host ← a.hostImports.mapM fun b => l.func? (hostModule, b.fullName) (Code.builtinType b)
  let foreign ← a.foreignImports.mapM fun f => l.func? (f.moduleName, f.name) f.type
  let own := a.methods.zipIdx.map fun (_, index) => FuncRef.method l.classes.length index
  return ⟨a, host ++ foreign ++ own, base⟩

/-- The names under which other classes find the methods of a class. -/
def methodNames (classIndex : Nat) (a : Artifact) : List (LinkName × Linkable) :=
  a.methods.zipIdx.map fun (m, index) =>
    ((a.moduleName, m.name), .func (.method classIndex index) m.type)

/-- Adds a class, of which the module has none yet. Its texts come behind those that are there. -/
def define (a : Artifact) : Loading Unit := do
  let l ← get
  if l.isDefined a.moduleName then throw (.duplicateClass a.moduleName)
  else
    let named : Loader :=
      { l with names := ((a.moduleName, textsName), .texts (UInt32.ofNat l.texts.size)) :: l.names }
    match named.link? a with
    | none =>
      set named
      throw (.unlinked a.moduleName)
    | some loaded =>
      set { named with
        classes := named.classes ++ [loaded]
        names := methodNames l.classes.length a ++ named.names
        texts := named.texts.appendList a.texts }

/-- The class of a module, with its position. -/
def classAt (moduleName : String) : Loading (Nat × Loaded) := do
  match (← get).classes.zipIdx.find? (·.1.artifact.moduleName = moduleName) with
  | some (c, index) => return (index, c)
  | none => throw (.noSuchClass moduleName)

/-- Adds a text and gives its handle. -/
def pushText (text : String) : Loading Word := do
  let l ← get
  set { l with texts := l.texts.push text }
  return .i32 (UInt32.ofNat l.texts.size)

/-- The word for a value of a type; `mismatch` is the failure for values of other types. -/
def toWord (ty : Ty) (value : Value) (mismatch : Failure) : Loading Word := do
  match ty, value with
  | .prim .int, .int v => return .i64 v
  | .prim .float, .float v => return .f64 v
  | .prim .string, .str text => pushText text
  | .object id _, .object moduleName handle =>
    if (← get).moduleOf? id = some moduleName then return .i32 handle else throw mismatch
  | _, _ => throw mismatch

/-- The value of a type that a word stands for. -/
def ofWord? (l : Loader) (ty : Ty) (w : Word) : Option Value :=
  match ty, w with
  | .prim .int, .i64 v => some (.int v)
  | .prim .float, .f64 v => some (.float v)
  | .prim .string, .i32 handle => (textOf? l.texts handle).map .str
  | .object id _, .i32 handle => (l.moduleOf? id).map fun moduleName => .object moduleName handle
  | _, _ => none

/-- The value that comes out of the machine. -/
def resultValue (ty : Ty) (w : Word) : Loading Value := do
  match (← get).ofWord? ty w with
  | some value => return value
  | none => throw (.badArguments "result" (.resultType ty w))

/-- The cells of an object with these fields, in order. -/
def cellsOf (method : String) : List (Code.Field × Value) → Loading (List UInt8)
  | [] => return []
  | (field, value) :: rest => do
    let w ← toWord field.ty value (.badArguments method (.fieldType field.name field.ty value))
    let cells ← cellsOf method rest
    return w.cell ++ cells

/-- Places the cells of an object in the memory. -/
def place (cells : List UInt8) : Loader → Option UInt32 × Loader
  | ⟨classes, names, memory, texts⟩ =>
    let (handle?, memory) := memory.allocate cells
    (handle?, ⟨classes, names, memory, texts⟩)

/-- Makes an object of the class of a module, with values for its fields in order. -/
def newObject (moduleName : String) (fields : List Value) : Loading Value := do
  let (_, c) ← classAt moduleName
  let layout := c.artifact.fields
  let method := moduleName ++ " constructor"
  if layout.length ≠ fields.length then
    throw (.badArguments method (.fieldCount layout.length fields.length))
  else
    let cells ← cellsOf method (layout.zip fields)
    match ← modifyGet (place cells) with
    | some handle => return .object moduleName handle
    | none => throw .outOfMemory

/-- The value of a field of an object. -/
def field (object : Value) (name : String) : Loading Value := do
  match object with
  | .object moduleName handle => do
    let (_, c) ← classAt moduleName
    match c.artifact.field? name with
    | none => throw (.noSuchMethod moduleName name)
    | some f =>
      let address := handle + UInt32.ofNat f.offset
      match (← get).memory.read? address.toNat Code.cellSize with
      | none => throw .outOfMemory
      | some bytes =>
        let ty := Code.valType f.ty
        resultValue f.ty (Word.ofBytes ty (bytes.take (Word.size ty)))
  | other => throw (.badArguments name (.notAnObject other))

/-- The words for the arguments of a method, in order. -/
def argumentWords (method : String) : List (Ty × Value) → Loading (List Word)
  | [] => return []
  | (ty, value) :: rest => do
    let w ← toWord ty value (.badArguments method (.argumentType ty value))
    let words ← argumentWords method rest
    return w :: words

/-- The types of the values that a method takes, with the receiver first. -/
def argumentTypes (a : Artifact) (m : MethodCode) : List Ty :=
  if m.isStatic then m.params else .object a.id a.className :: m.params

/-- Runs the method at a position of a class on words, and gives the value of its result. -/
def runMethod (c : Loaded) (classIndex : Nat) (m : MethodCode) (methodIndex : Nat)
    (words : List Word) : Loading Value := do
  let l ← get
  let (outcome, texts) :=
    (callFunc l.memory l.classes maxDepth (.method classIndex methodIndex) words).run l.texts
  set { l with texts := texts }
  match outcome with
  | .error trap => throw (.runtime c.artifact.className m.name m.firstLine trap)
  | .ok w => resultValue m.result w

/-- Runs a method of the class of a module. Instance methods take the receiver first. -/
def invoke (moduleName method : String) (args : List Value) : Loading Value := do
  let (classIndex, c) ← classAt moduleName
  match c.artifact.methods.zipIdx.find? (·.1.name = method) with
  | none => throw (.noSuchMethod moduleName method)
  | some (m, methodIndex) =>
    let wanted := argumentTypes c.artifact m
    if wanted.length ≠ args.length then
      throw (.badArguments method (.argumentCount wanted.length args.length))
    else
      let words ← argumentWords method (wanted.zip args)
      runMethod c classIndex m methodIndex words

end Loader

end ClassLang.Machine
