/-!
# Integers of 64 bits

Reading and writing decimal integers, and the power whose result must fit. Reading takes an optional
sign and at least one ASCII digit and refuses what does not fit; arithmetic elsewhere wraps.
-/

set_option autoImplicit false

namespace ClassLang.Number

/-- The value of an ASCII digit. -/
def digitValue? (c : Char) : Option Nat :=
  if '0' ≤ c ∧ c ≤ '9' then some (c.toNat - '0'.toNat) else none

/-- The value of a run of digits that follows digits worth `acc`. -/
def digitsValueFrom? (acc : Nat) : List Char → Option Nat
  | [] => some acc
  | c :: rest => (digitValue? c).bind fun d => digitsValueFrom? (acc * 10 + d) rest

/-- The value of a non-empty run of digits. -/
def digitsValue? (chars : List Char) : Option Nat :=
  if chars.isEmpty then none else digitsValueFrom? 0 chars

/-- The 64-bit integer of this value, where there is one. -/
def int64Of? (value : Int) : Option Int64 :=
  if Int64.minValue.toInt ≤ value ∧ value ≤ Int64.maxValue.toInt then
    some (Int64.ofInt value)
  else none

/-- Reads a 64-bit integer: an optional sign, then digits only. -/
def readInt64? : List Char → Option Int64
  | '-' :: digits => (digitsValue? digits).bind fun n => int64Of? (-n)
  | '+' :: digits => (digitsValue? digits).bind fun n => int64Of? n
  | digits => (digitsValue? digits).bind fun n => int64Of? n

/-- The decimal digits of an integer, after a minus sign where it is negative. -/
def intText (value : Int) : String := toString value

/-- The largest exponent that a power takes. -/
def maxExponent : Nat := Nat.pow 2 32 - 1

/-- The product of two 64-bit integers, where it fits. -/
def product? (a b : Int64) : Option Int64 := int64Of? (a.toInt * b.toInt)

/-- `acc` times a power of `base`, by squaring the base for every binary digit of the exponent. Each
product on the way has to fit. -/
def powerFrom? (acc base : Int64) (exponent : Nat) : Option Int64 :=
  if exponent = 0 then some acc
  else
    (if exponent % 2 = 1 then product? acc base else some acc).bind fun acc =>
      if exponent = 1 then some acc
      else (product? base base).bind fun square => powerFrom? acc square (exponent / 2)
termination_by exponent
decreasing_by omega

/-- The power of two 64-bit integers, where the exponent is in range and the result fits. -/
def powInt64? (base exponent : Int64) : Option Int64 :=
  if 0 ≤ exponent.toInt ∧ exponent.toInt ≤ maxExponent then
    powerFrom? 1 base exponent.toInt.toNat
  else none

end ClassLang.Number
