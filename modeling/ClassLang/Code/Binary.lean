import ClassLang.Code.Artifact
import ClassLang.Number.Bytes

/-!
# The binary form of a class

An artifact as a module of the machine: a header and five sections, for types, imports, functions,
exports and code. Every section is present, also when it is empty, and every function has a type
entry of its own.
-/

set_option autoImplicit false

namespace ClassLang.Code.Binary

abbrev Bytes := List UInt8

/-- A natural number in groups of seven bits, the lowest first, with the high bit set in all bytes
but the last. The bound is at least the number, so it does not run out. -/
def unsignedFrom : (bound : Nat) → Nat → Bytes
  | 0, n => [UInt8.ofNat n]
  | bound + 1, n =>
    if n < 128 then [UInt8.ofNat n]
    else UInt8.ofNat (n % 128 + 128) :: unsignedFrom bound (n / 128)

def unsigned (n : Nat) : Bytes := unsignedFrom n n

/-- An integer in groups of seven bits, of which the last holds the sign. -/
def signedFrom : (bound : Nat) → Int → Bytes
  | 0, v => [UInt8.ofNat (v % 128).toNat]
  | bound + 1, v =>
    let low := (v % 128).toNat
    let high := v / 128
    if (high = 0 ∧ low < 64) ∨ (high = -1 ∧ 64 ≤ low) then [UInt8.ofNat low]
    else UInt8.ofNat (low + 128) :: signedFrom bound high

def signed (v : Int) : Bytes := signedFrom v.natAbs v

/-- A word of eight bytes, the lowest first. -/
def word64 (value : UInt64) : Bytes := Number.littleEndian 8 value.toNat

/-- A sequence of entries behind their number. -/
def vector (entries : List Bytes) : Bytes := unsigned entries.length ++ entries.flatten

/-- The bytes of a name behind their number. -/
def name (text : String) : Bytes :=
  let bytes := text.toUTF8.data.toList
  unsigned bytes.length ++ bytes

/-- Bytes behind their number. -/
def sized (bytes : Bytes) : Bytes := unsigned bytes.length ++ bytes

def valType : ValType → UInt8
  | .i32 => 0x7f
  | .i64 => 0x7e
  | .f64 => 0x7c

def loadCode : ValType → UInt8
  | .i32 => 0x28
  | .i64 => 0x29
  | .f64 => 0x2b

def instr : Instr → Bytes
  | .localGet index => 0x20 :: unsigned index
  | .localSet index => 0x21 :: unsigned index
  | .globalGet index => 0x23 :: unsigned index
  | .call index => 0x10 :: unsigned index
  | .i32Const value => 0x41 :: signed value.toInt32.toInt
  | .i64Const value => 0x42 :: signed value.toInt
  | .f64Const value => 0x44 :: word64 value.bits
  | .load ty offset => loadCode ty :: unsigned ty.alignment ++ unsigned offset
  | .ret => [0x0f]
  | .finish => [0x0b]
  | .drop => [0x1a]
  | .i32Add => [0x6a]
  | .i64Add => [0x7c]
  | .i64Sub => [0x7d]
  | .i64Mul => [0x7e]
  | .i64Div => [0x7f]
  | .i64OfF64 => [0xfc, 0x06]
  | .f64Add => [0xa0]
  | .f64Sub => [0xa1]
  | .f64Mul => [0xa2]
  | .f64Div => [0xa3]
  | .f64OfI64 => [0xb9]

def funcType (type : FuncType) : Bytes :=
  0x60 :: vector (type.params.map fun p => [valType p]) ++ vector [[valType type.result]]

/-- The namespace of what the host provides. -/
def hostModule : String := "nz"

/-- The shared memory, under its name in the namespace of the host. -/
def memoryName : String := "memory"

/-- The position of the texts of a class, under its name in the namespace of the class. -/
def textsName : String := "$strings"

def memoryImport : Bytes := name hostModule ++ name memoryName ++ [0x02, 0x00, 0x01]

def textsImport (moduleName : String) : Bytes :=
  name moduleName ++ name textsName ++ [0x03, 0x7f, 0x00]

def functionImport (moduleName functionName : String) (typeIndex : Nat) : Bytes :=
  name moduleName ++ name functionName ++ 0x00 :: unsigned typeIndex

/-- The imports of an artifact, with the functions in the order of their numbers. -/
def imports (a : Artifact) : List Bytes :=
  let functions :=
    a.hostImports.map (fun b => (hostModule, b.fullName)) ++
      a.foreignImports.map (fun f => (f.moduleName, f.name))
  [memoryImport, textsImport a.moduleName] ++
    functions.zipIdx.map fun ((moduleName, functionName), index) =>
      functionImport moduleName functionName index

/-- One export for each method, under its name. -/
def exports (a : Artifact) : List Bytes :=
  a.methods.zipIdx.map fun (m, index) => name m.name ++ 0x00 :: unsigned (a.ownBase + index)

/-- The locals of a method, each a group of its own, and its instructions. -/
def body (m : MethodCode) : Bytes :=
  sized (vector (m.locals.map fun ty => [0x01, valType ty]) ++ m.code.flatMap instr)

/-- A section: its number, its size and its entries. -/
def sectionBytes (id : UInt8) (entries : List Bytes) : Bytes := id :: sized (vector entries)

def header : Bytes := [0x00, 0x61, 0x73, 0x6d, 0x01, 0x00, 0x00, 0x00]

end Binary

/-- The bytes of an artifact as a module of the machine. -/
def Artifact.bytes (a : Artifact) : Binary.Bytes :=
  Binary.header ++
    Binary.sectionBytes 1 (a.functionTypes.map Binary.funcType) ++
    Binary.sectionBytes 2 (Binary.imports a) ++
    Binary.sectionBytes 3
      ((List.range a.methods.length).map fun i => Binary.unsigned (a.ownBase + i)) ++
    Binary.sectionBytes 7 (Binary.exports a) ++
    Binary.sectionBytes 10 (a.methods.map Binary.body)

end ClassLang.Code
