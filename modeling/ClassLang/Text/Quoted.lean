import ClassLang.Text.Hidden

/-!
# Quoted text

The form in which texts appear in listings and messages: between double quotes, with a backslash
before quotes and backslashes, short names for the common control characters, and a number in braces
for every other character that does not show.
-/

set_option autoImplicit false

namespace ClassLang.Text

/-- The number of a character in lower-case hexadecimal, without padding. -/
def codePointText (c : Char) : List Char := Nat.toDigits 16 c.toNat

/-- How one character is written between the quotes. -/
def quotedChar (c : Char) : List Char :=
  match c with
  | '"' => ['\\', '"']
  | '\\' => ['\\', '\\']
  | '\n' => ['\\', 'n']
  | '\t' => ['\\', 't']
  | '\r' => ['\\', 'r']
  | '\x00' => ['\\', '0']
  | c => if isHidden c then ['\\', 'u', '{'] ++ codePointText c ++ ['}'] else [c]

/-- A text between double quotes. -/
def quoted (text : String) : String :=
  String.ofList (['"'] ++ text.toList.flatMap quotedChar ++ ['"'])

end ClassLang.Text
