import ClassLang.Number.Integer
import ClassLang.Text.Quoted
import ClassLang.Ty

/-!
# Traps

The causes for which a running method stops without a result.
-/

set_option autoImplicit false

namespace ClassLang.Machine

/-- Why a run stopped. -/
inductive Trap where
  | divisionByZero
  | integerOverflow
  | outOfBounds
  | callStackExhausted
  | powerOutOfRange (base exponent : Int64)
  /-- A text that is no number of the type `ty`. -/
  | unreadable (text : String) (ty : Prim)
  | invalidText (handle : UInt32)
  /-- The code does not fit the stack or the functions. Checked classes never stop for this. -/
  | malformed
deriving DecidableEq, Inhabited

def Trap.message : Trap → String
  | .divisionByZero => "integer divide by zero"
  | .integerOverflow => "integer overflow"
  | .outOfBounds => "out of bounds memory access"
  | .callStackExhausted => "call stack exhausted"
  | .powerOutOfRange base exponent =>
    Number.intText base.toInt ++ " ^ " ++ Number.intText exponent.toInt ++ " is out of range"
  | .unreadable text ty => "cannot parse " ++ Text.quoted text ++ " as " ++ ty.name
  | .invalidText handle => "invalid string handle " ++ Number.intText handle.toInt32.toInt
  | .malformed => "malformed code"

end ClassLang.Machine
