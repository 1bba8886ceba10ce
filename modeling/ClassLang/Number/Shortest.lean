import ClassLang.Number.Binary64

/-!
# Shortest decimal digits

The decimal digits by which a floating-point number is written: the fewest that lie closer to it
than to any other number of the format, and of those the nearest; of two that are equally near, the
larger. All arithmetic is exact, on fractions of natural numbers.
-/

set_option autoImplicit false

namespace ClassLang.Number

/-- A positive fraction. -/
structure Fraction where
  num : Nat
  den : Nat

namespace Fraction

/-- The fraction `n * 2 ^ e`. -/
def ofBinary (n : Nat) (e : Int) : Fraction :=
  if 0 ≤ e then ⟨n * Nat.pow 2 e.toNat, 1⟩ else ⟨n, Nat.pow 2 (-e).toNat⟩

/-- The fraction `n * 10 ^ e`. -/
def ofDecimal (n : Nat) (e : Int) : Fraction :=
  if 0 ≤ e then ⟨n * Nat.pow 10 e.toNat, 1⟩ else ⟨n, Nat.pow 10 (-e).toNat⟩

def le (a b : Fraction) : Bool := decide (a.num * b.den ≤ b.num * a.den)

def lt (a b : Fraction) : Bool := decide (a.num * b.den < b.num * a.den)

def add (a b : Fraction) : Fraction := ⟨a.num * b.den + b.num * a.den, a.den * b.den⟩

/-- The largest natural number that is not above the quotient. -/
def floorDiv (a b : Fraction) : Nat := a.num * b.den / (a.den * b.num)

end Fraction

/-- Digits worth `digits * 10 ^ exponent`. -/
structure Decimal where
  digits : Nat
  exponent : Int
deriving DecidableEq

/-- The numbers that round to a given one: from `low` to `high`, with both ends or without. -/
structure RoundingInterval where
  low : Fraction
  high : Fraction
  closed : Bool

/-- The interval that rounds to a positive finite number. Its ends are half-way to the neighbours;
below the smallest mantissa the neighbour is twice as near. A half-way point goes to the even
mantissa. -/
def roundingInterval (x : Binary64) : RoundingInterval :=
  let below := if x.mantissa = Nat.pow 2 52 then 1 else 2
  { low := .ofBinary (4 * x.mantissa - below) (x.exponent - 2)
    high := .ofBinary (4 * x.mantissa + 2) (x.exponent - 2)
    closed := x.mantissa % 2 = 0 }

def RoundingInterval.contains (interval : RoundingInterval) (v : Fraction) : Bool :=
  if interval.closed then interval.low.le v && v.le interval.high
  else interval.low.lt v && v.lt interval.high

/-- More decimal places than the smallest positive number needs to show a digit. -/
def guardPlaces : Nat := 400

/-- The exponent `k` with `10 ^ (k - 1) ≤ v < 10 ^ k`. -/
def decimalMagnitude (v : Fraction) : Int :=
  ((Nat.toDigits 10 (v.num * Nat.pow 10 guardPlaces / v.den)).length : Int) - guardPlaces

/-- The multiple of `10 ^ exponent` by which `v` is written, if one of its two neighbours there lies
in the interval: the nearer, and the upper one half-way. -/
def pointOnGrid? (interval : RoundingInterval) (v : Fraction) (exponent : Int) : Option Decimal :=
  let down := v.floorDiv (.ofDecimal 1 exponent)
  let lower := Fraction.ofDecimal down exponent
  let upper := Fraction.ofDecimal (down + 1) exponent
  let upperNearer := (lower.add upper).le (v.add v)
  match interval.contains lower, interval.contains upper with
  | false, false => none
  | true, false => some ⟨down, exponent⟩
  | false, true => some ⟨down + 1, exponent⟩
  | true, true => some ⟨if upperNearer then down + 1 else down, exponent⟩

/-- The shortest decimal of a positive finite number. Seventeen digits always suffice. -/
def shortestDecimal (x : Binary64) : Decimal :=
  let v := Fraction.ofBinary x.mantissa x.exponent
  let magnitude := decimalMagnitude v
  let interval := roundingInterval x
  ((List.range 17).findSome? fun (n : Nat) =>
    pointOnGrid? interval v (magnitude - (n + 1 : Nat))).getD
    ⟨v.floorDiv (.ofDecimal 1 (magnitude - 17)), magnitude - 17⟩

end ClassLang.Number
