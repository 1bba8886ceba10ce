import ClassLang.Number.Binary64
import ClassLang.Number.Integer
import ClassLang.Ty

/-!
# Instructions

The part of a stack machine's instruction set that generated code uses. Integers are 64-bit words,
floating-point numbers binary64, and texts and objects are 32-bit handles; the fields of an object
lie in memory from its handle on, in cells of eight bytes.
-/

set_option autoImplicit false

namespace ClassLang.Code

/-- The machine types. -/
inductive ValType where
  | i32
  | i64
  | f64
deriving DecidableEq, Inhabited

def ValType.text : ValType → String
  | .i32 => "i32"
  | .i64 => "i64"
  | .f64 => "f64"

/-- How the values of a type are held in the machine. -/
def valType : Ty → ValType
  | .prim .int => .i64
  | .prim .float => .f64
  | .prim .string => .i32
  | .object _ _ => .i32

/-- Bytes for each field of an object. -/
def cellSize : Nat := 8

/-- The binary logarithm of the alignment with which a value is loaded. -/
def ValType.alignment : ValType → Nat
  | .i32 => 2
  | .i64 => 3
  | .f64 => 3

/-- An instruction. -/
inductive Instr where
  | localGet (index : Nat)
  | localSet (index : Nat)
  | globalGet (index : Nat)
  | call (index : Nat)
  | i32Const (value : UInt32)
  | i64Const (value : Int64)
  | f64Const (value : Binary64)
  | load (ty : ValType) (offset : Nat)
  | ret
  | finish
  | drop
  | i32Add
  | i64Add
  | i64Sub
  | i64Mul
  | i64Div
  | i64OfF64
  | f64Add
  | f64Sub
  | f64Mul
  | f64Div
  | f64OfI64
deriving DecidableEq, Inhabited

/-- The sixteen hexadecimal digits of a bit pattern. -/
def bitsText (x : Binary64) : String :=
  let digits := Nat.toDigits 16 x.bits.toNat
  String.ofList (List.replicate (16 - digits.length) '0' ++ digits)

/-- The written form of an instruction. -/
def Instr.text : Instr → String
  | .localGet index => "local.get " ++ toString index
  | .localSet index => "local.set " ++ toString index
  | .globalGet index => "global.get " ++ toString index
  | .call index => "call " ++ toString index
  | .i32Const value => "i32.const " ++ toString value.toNat
  | .i64Const value => "i64.const " ++ Number.intText value.toInt
  | .f64Const value => "f64.const " ++ bitsText value
  | .load ty offset => ty.text ++ ".load " ++ toString offset ++ " " ++ toString ty.alignment
  | .ret => "return"
  | .finish => "end"
  | .drop => "drop"
  | .i32Add => "i32.add"
  | .i64Add => "i64.add"
  | .i64Sub => "i64.sub"
  | .i64Mul => "i64.mul"
  | .i64Div => "i64.div_s"
  | .i64OfF64 => "i64.trunc_sat_f64_s"
  | .f64Add => "f64.add"
  | .f64Sub => "f64.sub"
  | .f64Mul => "f64.mul"
  | .f64Div => "f64.div"
  | .f64OfI64 => "f64.convert_i64_s"

/-- The type of a function of the machine. Every function gives one value. -/
structure FuncType where
  params : List ValType
  result : ValType
deriving DecidableEq, Inhabited

end ClassLang.Code
