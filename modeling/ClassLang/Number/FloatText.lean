import ClassLang.Number.Integer
import ClassLang.Number.Shortest

/-!
# The text of floating-point numbers

A number is written with its shortest digits, in positions where it is neither very small nor very
large and with an exponent otherwise. A positional text always has a digit after the point.
-/

set_option autoImplicit false

namespace ClassLang.Number

/-- Which numbers are written in positions: those `0.d₁d₂… * 10 ^ k` with `k` in a closed range. -/
structure FloatStyle where
  positionalFrom : Int
  positionalTo : Int

/-- Numbers from `0.0001` up to but not including `10 ^ 16` are written in positions. -/
def floatStyle : FloatStyle := ⟨-3, 16⟩

/-- The digits of a positive number without the zeros at its end. -/
def significantDigits (n : Nat) : List Char :=
  ((Nat.toDigits 10 n).reverse.dropWhile (· = '0')).reverse

/-- The number `0.digits * 10 ^ magnitude` with the point in its place. -/
def positionalText (digits : List Char) (magnitude : Int) : List Char :=
  if magnitude ≤ 0 then ['0', '.'] ++ List.replicate (-magnitude).toNat '0' ++ digits
  else
    let whole := magnitude.toNat
    if digits.length ≤ whole then
      digits ++ List.replicate (whole - digits.length) '0' ++ ['.', '0']
    else digits.take whole ++ ['.'] ++ digits.drop whole

/-- The number `0.digits * 10 ^ magnitude` with one digit before the point and an exponent. -/
def exponentText (digits : List Char) (magnitude : Int) : List Char :=
  let fraction := match digits.drop 1 with
    | [] => []
    | rest => '.' :: rest
  digits.take 1 ++ fraction ++ ['e'] ++ (intText (magnitude - 1)).toList

/-- The text of a positive finite number. -/
def positiveText (style : FloatStyle) (x : Binary64) : List Char :=
  let decimal := shortestDecimal x
  let magnitude := (Nat.toDigits 10 decimal.digits).length + decimal.exponent
  let digits := significantDigits decimal.digits
  if style.positionalFrom ≤ magnitude ∧ magnitude ≤ style.positionalTo then
    positionalText digits magnitude
  else exponentText digits magnitude

end ClassLang.Number

/-- The text of a number. What is not a number shows no sign. -/
def ClassLang.Binary64.text (x : ClassLang.Binary64) : String :=
  if x.isNaN then "NaN"
  else
    let sign := if x.isNegative then ['-'] else []
    let body :=
      if x.isInfinite then ['i', 'n', 'f']
      else if x.magnitude = 0 then ['0', '.', '0']
      else ClassLang.Number.positiveText ClassLang.Number.floatStyle x
    String.ofList (sign ++ body)
