import ClassLang.Builtin
import ClassLang.Code.Lines
import ClassLang.Span

/-!
# Generated classes

An `Artifact` is a class ready to be loaded: its fields, the code of its methods, the texts that the
code refers to, and the functions that it needs from elsewhere. The functions of an artifact are
numbered: first those of the host, then the methods of other classes, then its own.
-/

set_option autoImplicit false

namespace ClassLang.Code

/-- A field of the objects of a class, at an offset from their handle. -/
structure Field where
  name : String
  ty : Ty
  offset : Nat
deriving DecidableEq, Inhabited

/-- The code of a method. Instance methods take the receiver before their parameters, and the locals
come behind both. -/
structure MethodCode where
  name : String
  isStatic : Bool
  params : List Ty
  result : Ty
  locals : List ValType
  code : List Instr
  lines : List LineEntry
deriving DecidableEq, Inhabited

/-- The types of the values that a method takes, with the receiver. -/
def operandTypes (isStatic : Bool) (params : List Ty) : List ValType :=
  let params := params.map valType
  if isStatic then params else .i32 :: params

def MethodCode.type (m : MethodCode) : FuncType :=
  ⟨operandTypes m.isStatic m.params, valType m.result⟩

def MethodCode.firstLine (m : MethodCode) : Nat := Code.firstLine m.lines

def MethodCode.lineAt (m : MethodCode) (op : Nat) : Nat := Code.lineAt m.lines op

/-- The type of a builtin method as a function of the machine. -/
def builtinType (b : Builtin) : FuncType :=
  ⟨b.operands.map fun p => valType (.prim p), valType (.prim b.result)⟩

/-- The most parameters of a function, with the receiver. -/
def maxParams : Nat := 1000

/-- The most parameters and locals of a function together. -/
def maxLocals : Nat := 32768

/-- The most bytes of a name. -/
def maxNameBytes : Nat := 100000

/-- A method of another class that an artifact needs. -/
structure ForeignImport where
  moduleName : String
  name : String
  type : FuncType
deriving DecidableEq, Inhabited

/-- A class ready to be loaded. `texts` are the texts of its code, by position. -/
structure Artifact where
  id : ClassId
  className : String
  moduleName : String
  fields : List Field
  methods : List MethodCode
  texts : List String
  hostImports : List Builtin
  foreignImports : List ForeignImport
deriving DecidableEq, Inhabited

namespace Artifact

def method? (a : Artifact) (name : String) : Option MethodCode := a.methods.find? (·.name = name)

def field? (a : Artifact) (name : String) : Option Field := a.fields.find? (·.name = name)

/-- Bytes that the fields of an object take. -/
def objectSize (a : Artifact) : Nat := a.fields.length * cellSize

/-- The number of the first function of the class itself. -/
def ownBase (a : Artifact) : Nat := a.hostImports.length + a.foreignImports.length

/-- The types of all functions, by their number. -/
def functionTypes (a : Artifact) : List FuncType :=
  a.hostImports.map builtinType ++ a.foreignImports.map ForeignImport.type ++
    a.methods.map MethodCode.type

/-- The names that an artifact imports or exports. -/
def names (a : Artifact) : List String :=
  a.moduleName :: a.methods.map MethodCode.name ++
    a.foreignImports.flatMap fun f => [f.moduleName, f.name]

/-- Whether the machine takes the artifact: its functions have no more parameters and locals, and its
names no more bytes, than the machine admits. -/
def withinLimits (a : Artifact) : Bool :=
  a.functionTypes.all (fun type => type.params.length ≤ maxParams) &&
    a.methods.all (fun m => m.type.params.length + m.locals.length ≤ maxLocals) &&
    a.names.all (fun name => byteLength name.toList ≤ maxNameBytes)

end Artifact

end ClassLang.Code
