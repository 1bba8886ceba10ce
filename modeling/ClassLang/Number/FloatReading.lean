import ClassLang.Number.Integer
import ClassLang.Number.Shortest

/-!
# Reading floating-point numbers

A decimal is an optional sign, digits with an optional point among or beside them, and an optional
exponent; the words for infinity and for what is not a number are read in any case of letters. The
result is the nearest number of the format, the even one half-way; what is too large becomes
infinite and what is too small zero.
-/

set_option autoImplicit false

namespace ClassLang.Number

/-- The quotient rounded to the nearest natural number, the even one half-way. -/
def roundedQuotient (num den : Nat) : Nat :=
  let down := num / den
  let twice := 2 * (num % den)
  if twice < den then down
  else if den < twice then down + 1
  else if down % 2 = 0 then down else down + 1

/-- The exponent `e` with `2 ^ e ≤ v < 2 ^ (e + 1)`. -/
def binaryMagnitude (v : Fraction) : Int :=
  let guess : Int := (v.num.log2 : Int) - v.den.log2
  if (Fraction.ofBinary 1 guess).le v then guess else guess - 1

/-- The bits, without a sign, of the number nearest to a positive fraction. -/
def nearestMagnitude (v : Fraction) : Nat :=
  let unit := max (binaryMagnitude v - 52) (-1074)
  let scale := Fraction.ofBinary 1 unit
  let mantissa := roundedQuotient (v.num * scale.den) (v.den * scale.num)
  min ((unit + 1074).toNat * Nat.pow 2 52 + mantissa) Binary64.infinityBits

/-- The bits, without a sign, of the number nearest to `digits * 10 ^ exponent`. Decimals far
outside the range of the format are told by their size alone. -/
def magnitudeOfDecimal (digits : Nat) (exponent : Int) : Nat :=
  let size := (Nat.toDigits 10 digits).length + exponent
  if digits = 0 ∨ size < -330 then 0
  else if 310 < size then Binary64.infinityBits
  else nearestMagnitude (.ofDecimal digits exponent)

/-- An exponent mark and a signed run of digits, or nothing at all. -/
def readExponent? : List Char → Option Int
  | [] => some 0
  | mark :: rest =>
    if mark = 'e' ∨ mark = 'E' then
      match rest with
      | '-' :: digits => (digitsValue? digits).map fun n => -(n : Int)
      | '+' :: digits => (digitsValue? digits).map fun n => (n : Int)
      | digits => (digitsValue? digits).map fun n => (n : Int)
    else none

def isDigit (c : Char) : Bool := (digitValue? c).isSome

/-- A decimal without a sign: its digits and the exponent of ten that they count. -/
def readDecimal? (chars : List Char) : Option Decimal :=
  let whole := chars.takeWhile isDigit
  let afterWhole := chars.dropWhile isDigit
  let (fraction, afterFraction) := match afterWhole with
    | '.' :: rest => (rest.takeWhile isDigit, rest.dropWhile isDigit)
    | rest => ([], rest)
  (digitsValue? (whole ++ fraction)).bind fun digits =>
    (readExponent? afterFraction).map fun exponent => ⟨digits, exponent - fraction.length⟩

/-- A number without a sign, or a word in any case of letters. -/
def readMagnitude? (chars : List Char) : Option Nat :=
  match readDecimal? chars with
  | some decimal => some (magnitudeOfDecimal decimal.digits decimal.exponent)
  | none =>
    let word := String.ofList (chars.map Char.toLower)
    if word = "inf" ∨ word = "infinity" then some Binary64.infinityBits
    else if word = "nan" then some Binary64.nan.magnitude
    else none

/-- Reads a number with an optional sign. -/
def readBinary64? : List Char → Option Binary64
  | '-' :: rest => (readMagnitude? rest).map (Binary64.ofMagnitude true)
  | '+' :: rest => (readMagnitude? rest).map (Binary64.ofMagnitude false)
  | rest => (readMagnitude? rest).map (Binary64.ofMagnitude false)

end ClassLang.Number
