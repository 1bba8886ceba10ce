import ClassLang.Literal
import ClassLang.Span

/-!
# Tokens

The words into which a source text is cut. Line structure is part of them: `indent`, `newline` and
`dedent` say how the depth of a line compares with that of the line before it.
-/

set_option autoImplicit false

namespace ClassLang

/-- A word of the language. -/
inductive Token where
  /-- A name that begins with a lower-case letter. -/
  | name (text : String)
  /-- A name that begins with an upper-case letter. -/
  | typeName (text : String)
  | operator (text : String)
  | literal (value : Literal)
  /-- The text of a quote before its first hole. -/
  | quoteStart (head : String)
  /-- The text of a quote after a hole, up to the closing quote or the next hole. -/
  | quotePart (text : String) (isEnd : Bool)
  | importWord
  | funWord
  | defWord
  | slotsWord
  | valWord
  | varWord
  | equals
  | underscore
  | backslash
  | at
  | atAt
  | indent
  | dedent
  | newline
  | leftParen
  | rightParen
  | leftBracket
  | rightBracket
  | leftBrace
  | rightBrace
  | eof
  | colon
  | comma
  | dot
  | dotDot
deriving DecidableEq, Inhabited

namespace Token

/-- The token of a word or of a run of operator characters that has a meaning of its own. -/
def keyword? (text : String) : Option Token :=
  match text with
  | "import" => some .importWord
  | "fun" => some .funWord
  | "def" => some .defWord
  | "slots" => some .slotsWord
  | "val" => some .valWord
  | "var" => some .varWord
  | "=" => some .equals
  | "@" => some .at
  | "@@" => some .atAt
  | _ => none

/-- How a token is shown in listings and messages. -/
def text : Token → String
  | .name text => text
  | .typeName text => text
  | .operator text => text
  | .literal value => value.text
  | .quoteStart head => "\"" ++ head ++ "\x7b"
  | .quotePart text isEnd => "\x7d" ++ text ++ if isEnd then "\"" else "\x7b"
  | .importWord => "import"
  | .funWord => "fun"
  | .defWord => "def"
  | .slotsWord => "slots"
  | .valWord => "val"
  | .varWord => "var"
  | .equals => "="
  | .underscore => "_"
  | .backslash => "\\"
  | .at => "@"
  | .atAt => "@@"
  | .indent => "indent"
  | .dedent => "dedent"
  | .newline => "newline"
  | .leftParen => "("
  | .rightParen => ")"
  | .leftBracket => "["
  | .rightBracket => "]"
  | .leftBrace => "\x7b"
  | .rightBrace => "\x7d"
  | .eof => "end of file"
  | .colon => ":"
  | .comma => ","
  | .dot => "."
  | .dotDot => ".."

end Token

/-- A token and the place where it stands. -/
structure Lexed where
  token : Token
  span : Span
deriving DecidableEq, Inhabited

end ClassLang
