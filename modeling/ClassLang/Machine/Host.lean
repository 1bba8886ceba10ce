import ClassLang.Builtin
import ClassLang.Machine.Trap
import ClassLang.Machine.Word
import ClassLang.Text.Blank

/-!
# The host

What classes get from outside: the texts of a session, which code knows by their position only, and
the builtin methods that are no single instruction. Texts are never taken away, also when the run
that made them stops.
-/

set_option autoImplicit false

namespace ClassLang.Machine

/-- The texts of a session, by their handle. -/
abbrev Texts := Array String

/-- How many texts have a handle: handles are signed, and a negative one stands for no text. -/
def maxTexts : Nat := 2147483648

/-- The text that a handle stands for. -/
def textOf? (texts : Texts) (handle : UInt32) : Option String :=
  if handle.toNat < maxTexts then texts[handle.toNat]? else none

/-- A run, which may stop; the texts that it has made stay. -/
abbrev Run := ExceptT Trap (StateM Texts)

namespace Run

/-- The text of a handle. -/
def text (handle : UInt32) : Run String := do
  match textOf? (← get) handle with
  | some text => return text
  | none => throw (.invalidText handle)

/-- Adds a text and gives its handle. -/
def push (text : String) : Run Word := do
  let texts ← get
  set (texts.push text)
  return .i32 (UInt32.ofNat texts.size)

end Run

/-- Runs a builtin method that the host provides. -/
def hostCall (b : Builtin) (args : List Word) : Run Word :=
  match b, args with
  | .intPow, [.i64 base, .i64 exponent] =>
    match Number.powInt64? base exponent with
    | some power => return .i64 power
    | none => throw (.powerOutOfRange base exponent)
  | .intParse, [.i32 handle] => do
    let text ← Run.text handle
    match Number.readInt64? (Text.trim text.toList) with
    | some value => return .i64 value
    | none => throw (.unreadable text .int)
  | .intMax, [.i64 a, .i64 b] => return .i64 (if a ≤ b then b else a)
  | .intMin, [.i64 a, .i64 b] => return .i64 (if a ≤ b then a else b)
  | .floatParse, [.i32 handle] => do
    let text ← Run.text handle
    match Number.readBinary64? (Text.trim text.toList) with
    | some value => return .f64 value
    | none => throw (.unreadable text .float)
  | .stringConcat, [.i32 left, .i32 right] => do
    let first ← Run.text left
    let second ← Run.text right
    Run.push (first ++ second)
  | .stringFromInt, [.i64 value] => Run.push (Number.intText value.toInt)
  | .stringFromFloat, [.f64 value] => Run.push value.text
  | .stringLength, [.i32 handle] => do
    let text ← Run.text handle
    return .i64 (Int64.ofNat text.length)
  | _, _ => throw .malformed

end ClassLang.Machine
