import ClassLang.Number.FloatText
import ClassLang.Text.Quoted

/-!
# Literal values

The values that a program can write down: integers, floating-point numbers and texts.
-/

set_option autoImplicit false

namespace ClassLang

/-- A value written in a program. -/
inductive Literal where
  | int (value : Int64)
  | float (value : Binary64)
  | str (value : String)
deriving DecidableEq, Inhabited

/-- The written form of a literal; texts are quoted. -/
def Literal.text : Literal → String
  | .int value => Number.intText value.toInt
  | .float value => value.text
  | .str value => Text.quoted value

end ClassLang
