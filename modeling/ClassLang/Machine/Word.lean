import ClassLang.Code.Instr
import ClassLang.Number.Bytes
import ClassLang.Number.FloatReading
import ClassLang.Number.FloatText

/-!
# Values

A `Word` is a value as the machine holds it. A `Value` is one as it goes into and comes out of a
session: texts by their content, and objects by the module of their class and their handle.
-/

set_option autoImplicit false

namespace ClassLang.Machine

open Code (ValType)

/-- A value on the stack of the machine. -/
inductive Word where
  | i32 (value : UInt32)
  | i64 (value : Int64)
  | f64 (value : Binary64)
deriving DecidableEq, Inhabited

namespace Word

def type : Word → ValType
  | .i32 _ => .i32
  | .i64 _ => .i64
  | .f64 _ => .f64

/-- The value with which locals start. -/
def zero : ValType → Word
  | .i32 => .i32 0
  | .i64 => .i64 0
  | .f64 => .f64 ⟨0⟩

/-- How a word is shown in messages. -/
def text : Word → String
  | .i32 value => "I32(" ++ Number.intText value.toInt32.toInt ++ ")"
  | .i64 value => "I64(" ++ Number.intText value.toInt ++ ")"
  | .f64 value => "F64(" ++ value.text ++ ")"

/-- The bytes of a word in a cell of an object; a handle takes the lower half. -/
def cell : Word → List UInt8
  | .i32 value => Number.littleEndian 8 value.toNat
  | .i64 value => Number.littleEndian 8 value.toUInt64.toNat
  | .f64 value => Number.littleEndian 8 value.bits.toNat

/-- The number of bytes that a value takes when it is loaded. -/
def size : ValType → Nat
  | .i32 => 4
  | .i64 => 8
  | .f64 => 8

/-- The word that bytes in memory stand for. -/
def ofBytes (ty : ValType) (bytes : List UInt8) : Word :=
  let n := Number.ofLittleEndian bytes
  match ty with
  | .i32 => .i32 (UInt32.ofNat n)
  | .i64 => .i64 (UInt64.ofNat n).toInt64
  | .f64 => .f64 ⟨UInt64.ofNat n⟩

end Word

/-- A value outside the machine. -/
inductive Value where
  | int (value : Int64)
  | float (value : Binary64)
  | str (text : String)
  /-- An object of the class that module `moduleName` defines. -/
  | object (moduleName : String) (handle : UInt32)
deriving DecidableEq, Inhabited

namespace Value

/-- The written form of a value; texts are not quoted. -/
def text : Value → String
  | .int value => Number.intText value.toInt
  | .float value => value.text
  | .str text => text
  | .object moduleName handle => "<" ++ moduleName ++ "@" ++ toString handle.toNat ++ ">"

/-- Reads a value of a type. Objects have no written form. -/
def read? (ty : Ty) (text : String) : Option Value :=
  match ty with
  | .prim .int => (Number.readInt64? text.toList).map .int
  | .prim .float => (Number.readBinary64? text.toList).map .float
  | .prim .string => some (.str text)
  | .object _ _ => none

end Value

end ClassLang.Machine
