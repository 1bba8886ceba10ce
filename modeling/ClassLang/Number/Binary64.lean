/-!
# Floating-point numbers of 64 bits

A `Binary64` is kept as its bit pattern, so that equality is decidable and tells `0.0` from `-0.0`.
A finite number is `mantissa * 2 ^ exponent`, with its sign apart.
-/

set_option autoImplicit false

namespace ClassLang

/-- A floating-point number in the binary interchange format of 64 bits. -/
structure Binary64 where
  bits : UInt64
deriving DecidableEq, Inhabited

namespace Binary64

/-- The number of this pattern, as the hardware computes with it. -/
def toFloat (x : Binary64) : Float := Float.ofBits x.bits

/-- The pattern of a number. -/
def ofFloat (x : Float) : Binary64 := ⟨x.toBits⟩

def add (x y : Binary64) : Binary64 := ofFloat (x.toFloat + y.toFloat)

def sub (x y : Binary64) : Binary64 := ofFloat (x.toFloat - y.toFloat)

def mul (x y : Binary64) : Binary64 := ofFloat (x.toFloat * y.toFloat)

def div (x y : Binary64) : Binary64 := ofFloat (x.toFloat / y.toFloat)

/-- The nearest number to an integer. -/
def ofInt64 (value : Int64) : Binary64 := ofFloat value.toFloat

/-- The integer part, kept inside the 64-bit range; what is not a number gives zero. -/
def toInt64 (x : Binary64) : Int64 := x.toFloat.toInt64

/-- The bits of infinity, above those of every finite number. -/
def infinityBits : Nat := 2047 * Nat.pow 2 52

/-- The number with these exponent and fraction bits and this sign. -/
def ofMagnitude (negative : Bool) (magnitude : Nat) : Binary64 :=
  ⟨UInt64.ofNat (if negative then Nat.pow 2 63 + magnitude else magnitude)⟩

/-- What is not a number. -/
def nan : Binary64 := ofMagnitude false (infinityBits + Nat.pow 2 51)

/-- Infinity with a sign. -/
def infinity (negative : Bool) : Binary64 := ofMagnitude negative infinityBits

/-- The bits without the sign. -/
def magnitude (x : Binary64) : Nat := x.bits.toNat % Nat.pow 2 63

def isNegative (x : Binary64) : Bool := decide (Nat.pow 2 63 ≤ x.bits.toNat)

def isNaN (x : Binary64) : Bool := decide (infinityBits < x.magnitude)

def isInfinite (x : Binary64) : Bool := decide (x.magnitude = infinityBits)

/-- The mantissa of a finite number, with the leading bit that the format leaves out. -/
def mantissa (x : Binary64) : Nat :=
  if x.magnitude < Nat.pow 2 52 then x.magnitude
  else Nat.pow 2 52 + x.magnitude % Nat.pow 2 52

/-- The exponent of two that the mantissa of a finite number counts. -/
def exponent (x : Binary64) : Int :=
  if x.magnitude < Nat.pow 2 52 then -1074 else (x.magnitude / Nat.pow 2 52 : Nat) - 1075

end Binary64

end ClassLang
