import ClassLang.Fault
import ClassLang.Number.FloatReading

/-!
# Reading tokens one at a time

A `Lexer` hands out the tokens of a text on demand. Depth is counted in tabs: one level deeper than
the line before gives an `indent`, the same depth a `newline`, and each level back a `dedent`, of
which one is given at once and the others are owed. Blank lines and comments, from a bar to the end
of the line, do not count. What is still open at the end of the text is closed before `eof`.

Reading always gives back the lexer as it stands afterwards, also when it fails, so that reading can
go on behind a fault.
-/

set_option autoImplicit false

namespace ClassLang

/-- The unread text and the offset up to which the text is read. A fault may leave the reader inside
a character of several bytes; `torn` counts the bytes of it that are still to come. -/
structure Cursor where
  rest : List Char
  pos : Nat
  torn : Nat
deriving DecidableEq, Inhabited

namespace Cursor

/-- The first unread character. -/
def next? (c : Cursor) : Option Char := c.rest.head?

/-- Moves on to the end of a torn character. -/
def mend (c : Cursor) : Cursor := ⟨c.rest, c.pos + c.torn, 0⟩

/-- Reads on while the characters satisfy `p`. -/
def skipWhile (c : Cursor) (p : Char → Bool) : Cursor :=
  ⟨c.rest.dropWhile p, c.pos + byteLength (c.rest.takeWhile p), 0⟩

/-- The characters that `skipWhile` passes over. -/
def takeWhile (c : Cursor) (p : Char → Bool) : List Char := c.rest.takeWhile p

/-- Reads only the first byte of the character `c` in front of `rest`, which stands at `pos`. -/
def afterFirstByte (c : Char) (rest : List Char) (pos : Nat) : Cursor :=
  ⟨rest, pos + 1, c.utf8Size - 1⟩

/-- Passes over blank lines and comment lines, then over the tabs of the line that follows. The line
starts at `start`, and its text is read up to `pos`; `comment` holds behind a bar. Gives the offset
of the line and the cursor behind its tabs. -/
def lineFrom (start pos : Nat) (comment : Bool) : List Char → Nat × Cursor
  | [] => (if comment then pos else start, ⟨[], pos, 0⟩)
  | c :: rest =>
    if c = '\n' then lineFrom (pos + 1) (pos + 1) false rest
    else if comment then lineFrom start (pos + c.utf8Size) true rest
    else if c = '\t' then lineFrom start (pos + 1) false rest
    else if c = '|' then lineFrom start (pos + 1) true rest
    else (start, ⟨c :: rest, pos, 0⟩)

/-- The next line with code on it: its offset, and the cursor behind its tabs. -/
def toLine (c : Cursor) : Nat × Cursor := lineFrom c.pos c.pos false c.rest

end Cursor

/-- A piece of quote text, ended by the closing quote or by the brace that opens a hole. -/
structure QuotePart where
  text : String
  isEnd : Bool
deriving DecidableEq, Inhabited

/-- What reading gives: a result or a fault, and where the reader stands afterwards. -/
abbrev Reading (α : Type) := Except CompileError α × Cursor

namespace Reading

def fail {α : Type} (cursor : Cursor) (span : Span) (fault : Fault) : Reading α :=
  (.error ⟨span, fault⟩, cursor)

end Reading

/-- The character that an escape stands for, by the character behind the backslash. -/
def escaped? : Char → Option Char
  | '"' => some '"'
  | '{' => some '{'
  | 'n' => some '\n'
  | 't' => some '\t'
  | _ => none

/-- Reads quote text; `done` is what has been read of it, last character first. -/
def quoteFrom (done : List Char) (pos : Nat) : List Char → Reading QuotePart
  | [] => .fail ⟨[], pos, 0⟩ (.single pos) .unterminatedQuote
  | '"' :: rest => (.ok ⟨String.ofList done.reverse, true⟩, ⟨rest, pos + 1, 0⟩)
  | '{' :: rest => (.ok ⟨String.ofList done.reverse, false⟩, ⟨rest, pos + 1, 0⟩)
  | '\n' :: rest => .fail ⟨rest, pos + 1, 0⟩ (.single pos) .unterminatedQuote
  | ['\\'] => .fail ⟨[], pos + 1, 0⟩ ⟨pos, pos + 2⟩ (.badEscape '\x00')
  | '\\' :: c :: rest =>
    match escaped? c with
    | some meant => quoteFrom (meant :: done) (pos + 2) rest
    | none => .fail (.afterFirstByte c rest (pos + 1)) ⟨pos, pos + 2⟩ (.badEscape c)
  | c :: rest => quoteFrom (c :: done) (pos + c.utf8Size) rest

/-- Reads quote text up to the closing quote or the next opening brace. -/
def readQuotePart (c : Cursor) : Reading QuotePart := quoteFrom [] c.pos c.rest

/-- The characters of which operators are made. -/
def isOperatorChar (c : Char) : Bool := c ∈ ['@', '+', '-', '*', '/', '^', '?', '<', '>', '=']

/-- The token of a character that is always a token by itself. -/
def punctuation? : Char → Option Token
  | '\\' => some .backslash
  | ':' => some .colon
  | ',' => some .comma
  | '(' => some .leftParen
  | ')' => some .rightParen
  | '[' => some .leftBracket
  | ']' => some .rightBracket
  | '{' => some .leftBrace
  | '}' => some .rightBrace
  | '_' => some .underscore
  | _ => none

/-- The literal that a number's text stands for; `start` is its offset, `c` the cursor behind it. -/
def numberLiteral (start : Nat) (text : List Char) (value? : Option Literal) (c : Cursor) :
    Reading Token :=
  match value? with
  | some value => (.ok (.literal value), c)
  | none => .fail c ⟨start, c.pos⟩ (.numberOutOfRange (String.ofList text))

/-- Reads a number whose first character, a digit or a minus sign, stands at `start` before `c`. A
point makes it a fraction unless another point follows. -/
def readNumber (start : Nat) (first : Char) (c : Cursor) : Reading Token :=
  let whole := first :: c.takeWhile Char.isDigit
  let behind := c.skipWhile Char.isDigit
  match behind.rest with
  | '.' :: rest =>
    if rest.head? = some '.' then
      numberLiteral start whole ((Number.readInt64? whole).map .int) behind
    else
      let point : Cursor := ⟨rest, behind.pos + 1, 0⟩
      if rest.head?.any Char.isDigit then
        let text := whole ++ '.' :: point.takeWhile Char.isDigit
        numberLiteral start text ((Number.readBinary64? text).map .float)
          (point.skipWhile Char.isDigit)
      else .fail point (.single point.pos) .missingFractionDigits
  | _ => numberLiteral start whole ((Number.readInt64? whole).map .int) behind

/-- Reads the token that begins with the character `first`, which stands at `start` before `c`. -/
def readWord (start : Nat) (first : Char) (c : Cursor) : Reading Token :=
  match punctuation? first with
  | some token => (.ok token, c)
  | none =>
    if first = '.' then
      match c.rest with
      | '.' :: rest => (.ok .dotDot, ⟨rest, c.pos + 1, 0⟩)
      | _ => (.ok .dot, c)
    else if first = '"' then
      match readQuotePart c with
      | (.ok part, c) =>
        (.ok (if part.isEnd then .literal (.str part.text) else .quoteStart part.text), c)
      | (.error e, c) => (.error e, c)
    else if first.isDigit || (first = '-' && c.next?.any Char.isDigit) then readNumber start first c
    else if first.isLower then
      let text := String.ofList (first :: c.takeWhile Char.isAlphanum)
      (.ok ((Token.keyword? text).getD (.name text)), c.skipWhile Char.isAlphanum)
    else if first.isUpper then
      (.ok (.typeName (String.ofList (first :: c.takeWhile Char.isAlphanum))),
        c.skipWhile Char.isAlphanum)
    else if isOperatorChar first then
      let text := String.ofList (first :: c.takeWhile isOperatorChar)
      (.ok ((Token.keyword? text).getD (.operator text)), c.skipWhile isOperatorChar)
    else
      .fail (.afterFirstByte first c.rest start) ⟨start, start + first.utf8Size⟩
        (.unrecognizedCharacter first)

/-- A reader of tokens: where it stands, the depth of the current line, how many dedents are owed,
and whether the depth of the first line has been looked at. -/
structure Lexer where
  cursor : Cursor
  indent : Nat
  owed : Nat
  started : Bool
deriving DecidableEq, Inhabited

namespace Lexer

/-- The characters of a text, with a newline at the end if it has none. -/
def normalized (source : String) : List Char :=
  if source.toList.getLast? = some '\n' then source.toList else source.toList ++ ['\n']

/-- The reader at the start of a text. -/
def ofText (source : String) : Lexer := ⟨⟨normalized source, 0, 0⟩, 0, 0, false⟩

/-- The offset up to which the text is read. -/
def pos (l : Lexer) : Nat := l.cursor.pos

/-- How many more tokens the reader can give before `eof`. -/
def measure (l : Lexer) : Nat := l.cursor.rest.length + l.indent + l.owed

/-- Goes to the next line with code and gives its offset. A line may not begin with a space. -/
def toLine (l : Lexer) : Except CompileError Nat × Lexer :=
  let (start, cursor) := l.cursor.toLine
  let l := { l with cursor := cursor }
  if cursor.next? = some ' ' then (.error ⟨⟨start, cursor.pos + 1⟩, .leadingSpace⟩, l)
  else (.ok start, l)

/-- The token of a line break; the newline itself has been read. -/
def lineToken (l : Lexer) : Except CompileError Lexed × Lexer :=
  match l.toLine with
  | (.error e, l) => (.error e, l)
  | (.ok start, l) =>
    let depth := l.pos - start
    let span : Span := ⟨start, l.pos⟩
    let moved := { l with indent := depth }
    if depth = l.indent then (.ok ⟨.newline, span⟩, moved)
    else if depth < l.indent then
      (.ok ⟨.dedent, span⟩, { moved with owed := l.indent - depth - 1 })
    else if depth = l.indent + 1 then (.ok ⟨.indent, span⟩, moved)
    else (.error ⟨span, .tooMuchIndent⟩, moved)

/-- The token at the end of the text: one dedent for each open line, then `eof` for ever. -/
def endToken (l : Lexer) : Except CompileError Lexed × Lexer :=
  if l.indent = 0 then (.ok ⟨.eof, .emptyAt l.pos⟩, l)
  else (.ok ⟨.dedent, .emptyAt l.pos⟩, { l with indent := l.indent - 1 })

/-- The next token within a line. Spaces before it are passed over and may not end the line; so is
a comment. -/
def lineWord (l : Lexer) : Except CompileError Lexed × Lexer :=
  let first := l.cursor.mend
  let spaced := first.skipWhile (· = ' ')
  if first.next? = some ' ' ∧ spaced.next? = some '\n' then
    (.error ⟨⟨spaced.pos - 1, spaced.pos⟩, .trailingSpace⟩, { l with cursor := spaced })
  else
    let c := if spaced.next? = some '|' then spaced.skipWhile (· ≠ '\n') else spaced
    match c.rest with
    | [] => endToken { l with cursor := c }
    | '\n' :: rest => lineToken { l with cursor := ⟨rest, c.pos + 1, 0⟩ }
    | ch :: rest =>
      match readWord c.pos ch ⟨rest, c.pos + ch.utf8Size, 0⟩ with
      | (.ok token, behind) => (.ok ⟨token, ⟨c.pos, behind.pos⟩⟩, { l with cursor := behind })
      | (.error e, behind) => (.error e, { l with cursor := behind })

/-- The next token when the depth of the first line is known: first the dedents that are owed. -/
def startedToken (l : Lexer) : Except CompileError Lexed × Lexer :=
  if l.owed = 0 then l.lineWord
  else (.ok ⟨.dedent, .emptyAt l.pos⟩, { l with owed := l.owed - 1 })

/-- The next token. The first line with code may not be indented. -/
def nextToken (l : Lexer) : Except CompileError Lexed × Lexer :=
  if l.started then l.startedToken
  else
    match toLine { l with started := true, cursor := l.cursor.mend } with
    | (.error e, l) => (.error e, l)
    | (.ok start, l) =>
      if start = l.pos then l.startedToken
      else (.error ⟨⟨start, l.pos⟩, .tooMuchIndent⟩, l)

/-- Reads quote text behind the brace that closes a hole. -/
def nextQuotePart (l : Lexer) : Except CompileError QuotePart × Lexer :=
  match readQuotePart l.cursor.mend with
  | (result, cursor) => (result, { l with cursor := cursor })

end Lexer

end ClassLang
