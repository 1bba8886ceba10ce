import ClassLang.Ty

/-!
# Builtin methods

The methods of the builtin types, with their signatures. Some are single instructions of the
machine; the others are provided by the host under the name `Owner.method`.
-/

set_option autoImplicit false

namespace ClassLang

/-- A builtin method. -/
inductive Builtin where
  | intAdd
  | intSub
  | intMul
  | intDiv
  | intPow
  | intParse
  | intMax
  | intMin
  | intFromFloat
  | floatAdd
  | floatSub
  | floatMul
  | floatDiv
  | floatParse
  | floatFromInt
  | stringConcat
  | stringFromInt
  | stringFromFloat
  | stringLength
deriving DecidableEq, Inhabited

namespace Builtin

/-- All builtin methods, grouped by the type that they belong to. -/
def all : List Builtin := [
  .intAdd, .intSub, .intMul, .intDiv, .intPow, .intParse, .intMax, .intMin, .intFromFloat,
  .floatAdd, .floatSub, .floatMul, .floatDiv, .floatParse, .floatFromInt,
  .stringConcat, .stringFromInt, .stringFromFloat, .stringLength]

/-- The type that a method belongs to. -/
def owner : Builtin → Prim
  | .intAdd | .intSub | .intMul | .intDiv | .intPow | .intParse | .intMax | .intMin
  | .intFromFloat => .int
  | .floatAdd | .floatSub | .floatMul | .floatDiv | .floatParse | .floatFromInt => .float
  | .stringConcat | .stringFromInt | .stringFromFloat | .stringLength => .string

def name : Builtin → String
  | .intAdd | .floatAdd | .stringConcat => "+"
  | .intSub | .floatSub => "-"
  | .intMul | .floatMul => "*"
  | .intDiv | .floatDiv => "/"
  | .intPow => "^"
  | .intParse | .floatParse => "parse"
  | .intMax => "max"
  | .intMin => "min"
  | .intFromFloat | .stringFromFloat => "fromFloat"
  | .floatFromInt | .stringFromInt => "fromInt"
  | .stringLength => "length"

/-- Operators are called on a receiver, all other methods through their type. -/
def isStatic : Builtin → Bool
  | .intAdd | .intSub | .intMul | .intDiv | .intPow | .floatAdd | .floatSub | .floatMul | .floatDiv
  | .stringConcat => false
  | .intParse | .intMax | .intMin | .intFromFloat | .floatParse | .floatFromInt | .stringFromInt
  | .stringFromFloat | .stringLength => true

/-- The parameter types, without the receiver. -/
def params : Builtin → List Prim
  | .intAdd | .intSub | .intMul | .intDiv | .intPow => [.int]
  | .intParse | .floatParse | .stringLength => [.string]
  | .intMax | .intMin => [.int, .int]
  | .intFromFloat | .stringFromFloat => [.float]
  | .floatAdd | .floatSub | .floatMul | .floatDiv => [.float]
  | .floatFromInt | .stringFromInt => [.int]
  | .stringConcat => [.string]

def result : Builtin → Prim
  | .intAdd | .intSub | .intMul | .intDiv | .intPow | .intParse | .intMax | .intMin | .intFromFloat
  | .stringLength => .int
  | .floatAdd | .floatSub | .floatMul | .floatDiv | .floatParse | .floatFromInt => .float
  | .stringConcat | .stringFromInt | .stringFromFloat => .string

/-- Whether the method is a single instruction of the machine. -/
def isInline : Builtin → Bool
  | .intAdd | .intSub | .intMul | .intDiv | .intFromFloat | .floatAdd | .floatSub | .floatMul
  | .floatDiv | .floatFromInt => true
  | .intPow | .intParse | .intMax | .intMin | .floatParse | .stringConcat | .stringFromInt
  | .stringFromFloat | .stringLength => false

/-- The name of a method with its type, as in `Int.parse`. -/
def fullName (b : Builtin) : String := b.owner.name ++ "." ++ b.name

/-- The name under which the host provides a method. -/
def hostName? (b : Builtin) : Option String := if b.isInline then none else some b.fullName

/-- The types of all values that a method takes: the receiver, if it has one, and the parameters. -/
def operands (b : Builtin) : List Prim := if b.isStatic then b.params else b.owner :: b.params

/-- The method of a type by its name. -/
def lookup? (owner : Prim) (name : String) : Option Builtin :=
  all.find? fun b => b.owner = owner ∧ b.name = name

end Builtin

end ClassLang
