import ClassLang.Token.Lexer
import ClassLang.Tree

/-!
# Reading the tree of a module

Recursive descent over the tokens of a text, which are taken from the lexer as they are needed, with
one token of look-ahead. The blocks of the tree follow the `indent`, `newline` and `dedent` tokens:
every line of a block is an expression or a declaration that scopes over the rest of the block. The
parser does not depend on what gives it the tokens: any `Supply` will do.

Each loop carries a bound on the number of its turns. `withBound` takes it from the tokens that the
lexer can still give, so it is never used up.
-/

set_option autoImplicit false

namespace ClassLang.Tree

/-- What gives tokens, and quote text behind a hole, on demand. -/
class Supply (σ : Type) where
  nextToken : σ → Except CompileError Lexed × σ
  nextQuotePart : σ → Except CompileError QuotePart × σ
  /-- The offset up to which the text is read. -/
  pos : σ → Nat
  /-- How many more tokens there can be before `eof`. -/
  measure : σ → Nat

instance : Supply Lexer := ⟨Lexer.nextToken, Lexer.nextQuotePart, Lexer.pos, Lexer.measure⟩

namespace Supply

@[simp] theorem nextToken_lexer (l : Lexer) : nextToken l = l.nextToken := rfl

@[simp] theorem nextQuotePart_lexer (l : Lexer) : nextQuotePart l = l.nextQuotePart := rfl

@[simp] theorem measure_lexer (l : Lexer) : measure l = l.measure := rfl

end Supply

/-- The lexer, and a token that has been looked at and not yet taken. -/
structure Parser (σ : Type := Lexer) where
  lexer : σ
  peeked : Option Lexed
deriving Inhabited

/-- A step of reading, which takes tokens from a supply and gives a part of the tree. -/
abbrev ParseFrom (σ : Type) := StateT (Parser σ) (Except CompileError)

/-- A step of reading tokens from the lexer. -/
abbrev Parse := ParseFrom Lexer

variable {σ : Type} [Supply σ]

namespace Parser

def ofText (source : String) : Parser := ⟨Lexer.ofText source, none⟩

/-- The offset up to which the lexer has read, behind a token that has been looked at. -/
def pos (p : Parser σ) : Nat := Supply.pos p.lexer

/-- How many more tokens can be taken before `eof`. -/
def measure (p : Parser σ) : Nat := Supply.measure p.lexer + if p.peeked.isSome then 1 else 0

/-- More turns than any loop takes from here: each turn or the one behind it takes a token. -/
def bound (p : Parser σ) : Nat := 2 * p.measure + 2

end Parser

namespace Parse

variable {α : Type}

def fail (span : Span) (fault : Fault) : ParseFrom σ α := throw ⟨span, fault⟩

/-- Runs a loop with a bound that suffices. -/
def withBound (loop : Nat → ParseFrom σ α) : ParseFrom σ α := fun p => loop p.bound p

/-- The place where the bound of a loop ran out. -/
def stop : ParseFrom σ α := fun p => .error ⟨.emptyAt p.pos, .boundReached⟩

/-- The offset up to which the lexer has read. -/
def pos : ParseFrom σ Nat := fun p => .ok (p.pos, p)

/-- Takes the next token. -/
def next : ParseFrom σ Lexed := fun p =>
  match p.peeked with
  | some lexed => .ok (lexed, { p with peeked := none })
  | none =>
    match Supply.nextToken p.lexer with
    | (.ok lexed, lexer) => .ok (lexed, { p with lexer := lexer })
    | (.error e, _) => .error e

/-- Looks at the next token. -/
def peek : ParseFrom σ Token := fun p =>
  match p.peeked with
  | some lexed => .ok (lexed.token, p)
  | none =>
    match Supply.nextToken p.lexer with
    | (.ok lexed, lexer) => .ok (lexed.token, ⟨lexer, some lexed⟩)
    | (.error e, _) => .error e

/-- Takes quote text from the lexer. No token has been looked at when a hole is closed. -/
def quotePart : ParseFrom σ QuotePart := fun p =>
  match Supply.nextQuotePart p.lexer with
  | (.ok part, lexer) => .ok (part, { p with lexer := lexer })
  | (.error e, _) => .error e

/-- Takes the next token if it is `token`. -/
def tryTake (token : Token) : ParseFrom σ Bool := do
  if (← peek) = token then
    let _ ← next
    return true
  else return false

/-- Takes `token` and gives its place. -/
def expect (token : Token) (wanted : Wanted) : ParseFrom σ Span := do
  let lexed ← next
  if lexed.token = token then return lexed.span
  else fail lexed.span (.expected wanted lexed.token)

/-- Takes a name. -/
def name : ParseFrom σ (String × Span) := do
  let lexed ← next
  match lexed.token with
  | .name text => return (text, lexed.span)
  | found => fail lexed.span (.expected .name found)

/-! ### Imports -/

/-- The dots before a path: how far up they lead and where they stand. -/
def dotsFrom : (bound : Nat) → (ancestors : Nat) → Option Span → ParseFrom σ (Nat × Option Span)
  | 0, _, _ => stop
  | bound + 1, ancestors, span => do
    let step? : Option Nat := match ← peek with
      | .dot => some 1
      | .dotDot => some 2
      | _ => none
    match step? with
    | none => return (ancestors, span)
    | some step =>
      let lexed ← next
      dotsFrom bound (ancestors + step) (some (span.elim lexed.span (·.cover lexed.span)))

/-- The names of a path, with a dot between them, and the place that they and `span` cover. -/
def segmentsFrom : (bound : Nat) → Option Span → ParseFrom σ (List String × Span)
  | 0, _ => stop
  | bound + 1, span => do
    let lexed ← next
    let segment? : Option String := match lexed.token with
      | .name text => some text
      | .typeName text => some text
      | _ => none
    match segment? with
    | none => fail lexed.span (.expected .moduleName lexed.token)
    | some segment =>
      let covered := span.elim lexed.span (·.cover lexed.span)
      if ← tryTake .dot then
        let (segments, covered) ← segmentsFrom bound (some covered)
        return (segment :: segments, covered)
      else return ([segment], covered)

/-- One import. Only an import with dots may go without a name. -/
def importLine : ParseFrom σ Import := do
  let (ancestors, dots) ← withBound fun bound => dotsFrom bound 0 none
  let named := match ← peek with
    | .name _ => true
    | .typeName _ => true
    | _ => false
  let (segments, span) ←
    if named || ancestors = 0 then withBound fun bound => segmentsFrom bound dots
    else pure ([], dots.getD ⟨0, 0⟩)
  let path : ModulePath := ⟨segments⟩
  return ⟨span, if ancestors = 0 then .fromTop path else .relative ⟨ancestors, path⟩⟩

/-- The lines of an indented list, up to the dedent that ends it. -/
def linesFrom (line : ParseFrom σ α) : (bound : Nat) → ParseFrom σ (List α)
  | 0 => stop
  | bound + 1 => do
    let first ← line
    let lexed ← next
    match lexed.token with
    | .newline => return first :: (← linesFrom line bound)
    | .dedent => return [first]
    | other => fail lexed.span (.unexpected other)

/-- The import block at the start of a module, where there is one. -/
def imports : ParseFrom σ (List Import) := do
  if ← tryTake .importWord then
    let _ ← expect .indent .importBlock
    withBound (linesFrom importLine)
  else return []

/-! ### Types -/

mutual

/-- A type. -/
def typeFrom : (bound : Nat) → ParseFrom σ TypeExpr
  | 0 => stop
  | bound + 1 => do
    let lexed ← next
    match lexed.token with
    | .typeName text =>
      if ← tryTake .leftBracket then
        let (args, close) ← typeArgsFrom bound
        return .generic (lexed.span.cover close) text args
      else return .named lexed.span text
    | found => fail lexed.span (.expected .typeName found)

/-- Type arguments behind the opening bracket, and the place of the closing one. -/
def typeArgsFrom : (bound : Nat) → ParseFrom σ (List TypeExpr × Span)
  | 0 => stop
  | bound + 1 => do
    let arg ← typeFrom bound
    let lexed ← next
    match lexed.token with
    | .comma =>
      let (args, close) ← typeArgsFrom bound
      return (arg :: args, close)
    | .rightBracket => return ([arg], lexed.span)
    | found => fail lexed.span (.expected .commaOrBracket found)

end

def typeExpr : ParseFrom σ TypeExpr := withBound typeFrom

/-! ### Expressions -/

/-- What an expression stands in, and so which token may end it. -/
inductive Context where
  /-- A line of a block, which may turn out to be a declaration. -/
  | line
  /-- A line of a block that can be no declaration any more. -/
  | lineRest
  /-- Parentheses. -/
  | paren
  /-- A hole of a quote. -/
  | hole
deriving DecidableEq, Inhabited

def Context.isLine : Context → Bool
  | .line => true
  | .lineRest => true
  | .paren => false
  | .hole => false

/-- What follows an expression. -/
inductive Follow where
  /-- Another line, over which the declared pattern scopes. -/
  | declared (pattern : Pattern)
  /-- Another line. -/
  | another
  /-- The end of the block, the parentheses or the hole. -/
  | ended
deriving DecidableEq, Inhabited

/-- One expression from the parts of a line: a single part stands for itself, more are a call of the
first. `span` is the place of the token behind them. -/
def joinParts (parts : List Expr) (span : Span) : Except CompileError Expr :=
  match parts with
  | [] => .error ⟨span, .emptyExpression⟩
  | [part] => .ok part
  | target :: arg :: args =>
    .ok (.call (target.span.cover ((arg :: args).getLastD arg).span) target (arg :: args))

/-- The name that a part of a pattern binds. -/
def boundName? : Expr → Option (Span × String)
  | .access span name => some (span, name)
  | _ => none

/-- The pattern that the parts before an equals sign at `span` make. -/
def joinPattern (parts : List Expr) (span : Span) : Except CompileError Pattern :=
  match parts.mapM boundName? with
  | none => .error ⟨span, .precedingEquals⟩
  | some [] => .error ⟨span, .precedingEquals⟩
  | some [(at_, name)] => .ok (.single at_ name)
  | some (first :: second :: rest) =>
    .ok (.destruct (first.1.cover ((second :: rest).getLastD second).1) (first :: second :: rest))

mutual

/-- An expression and what follows it; `parts` are the parts already read, in order. -/
def exprFrom : (bound : Nat) → Context → (parts : List Expr) → ParseFrom σ (Expr × Follow)
  | 0, _, _ => stop
  | bound + 1, context, parts => do
    let ⟨token, span⟩ ← next
    match token with
    | .equals =>
      if context = .line then
        let pattern ← joinPattern parts span
        let value ← declaredFrom bound span
        return (value, .declared pattern)
      else fail span (.unexpected token)
    | .underscore =>
      if context = .line && parts.isEmpty then
        let equals ← next
        if equals.token = .equals then
          let value ← declaredFrom bound equals.span
          return (value, .declared (.ignore span))
        else fail equals.span (.unexpected equals.token)
      else fail span (.unexpected token)
    | .operator operator =>
      if parts.isEmpty then fail span (.unaryOperator operator)
      else
        let left ← joinParts parts span
        let (right, follow) ← exprFrom bound (if context = .line then .lineRest else context) []
        return (.operatorCall (left.span.cover right.span) left operator right, follow)
    | .newline =>
      if context.isLine then return (← joinParts parts span, .another)
      else fail span (.unexpected token)
    | .dedent =>
      if context.isLine then return (← joinParts parts span, .ended)
      else fail span (.unexpected token)
    | .rightParen =>
      if context = .paren then return (← joinParts parts span, .ended)
      else fail span (.unexpected token)
    | .rightBrace =>
      if context = .hole then return (← joinParts parts span, .ended)
      else fail span (.unexpected token)
    | .dot =>
      match parts.getLast? with
      | none => fail span (.unexpected .dot)
      | some target =>
        let (text, nameSpan) ← name
        exprFrom bound context
          (parts.dropLast ++ [.property (target.span.cover nameSpan) target text])
    | .name text => exprFrom bound context (parts ++ [.access span text])
    | .typeName className =>
      let _ ← expect .dot .dotAfterType
      let (method, nameSpan) ← name
      exprFrom bound context (parts ++ [.staticAccess (span.cover nameSpan) className method])
    | .literal value => exprFrom bound context (parts ++ [.literal span value])
    | .quoteStart head =>
      let holes ← holesFrom bound
      let stopPos ← pos
      exprFrom bound context (parts ++ [.quote ⟨span.start, stopPos⟩ head holes])
    | .leftParen =>
      let (inner, _) ← exprFrom bound .paren []
      exprFrom bound context (parts ++ [inner])
    | other => fail span (.unexpected other)

/-- The value of a declaration whose equals sign stands at `span`; another line must follow. -/
def declaredFrom : (bound : Nat) → Span → ParseFrom σ Expr
  | 0, _ => stop
  | bound + 1, span => do
    match ← exprFrom bound .lineRest [] with
    | (_, .ended) => fail span .blockEndsInDeclaration
    | (value, _) => return value

/-- The holes of a quote, each with the text behind it, up to the closing quote. -/
def holesFrom : (bound : Nat) → ParseFrom σ (List (Expr × String))
  | 0 => stop
  | bound + 1 => do
    let (hole, _) ← exprFrom bound .hole []
    let part ← quotePart
    if part.isEnd then return [(hole, part.text)]
    else return (hole, part.text) :: (← holesFrom bound)

end

/-- The lines of a block, up to and including the dedent that ends it. -/
def blockFrom : (bound : Nat) → ParseFrom σ Expr
  | 0 => stop
  | bound + 1 => do
    match ← exprFrom bound .line [] with
    | (value, .declared pattern) =>
      let rest ← blockFrom bound
      return .letIn (pattern.span.cover rest.span) pattern value rest
    | (first, .another) =>
      let rest ← blockFrom bound
      return .seq (first.span.cover rest.span) first rest
    | (last, .ended) => return last

def block : ParseFrom σ Expr := withBound blockFrom

/-! ### Classes -/

def slot : ParseFrom σ Slot := do
  let lexed ← next
  let mutable? : Option Bool := match lexed.token with
    | .varWord => some true
    | .valWord => some false
    | _ => none
  match mutable? with
  | none => fail lexed.span (.expected .slotWord lexed.token)
  | some mutable =>
    let ty ← typeExpr
    let (text, nameSpan) ← name
    return ⟨lexed.span.cover nameSpan, mutable, ty, text⟩

/-- The slots of a class and the place where they stand. -/
def head : ParseFrom σ (Span × List Slot) := do
  if (← peek) = .slotsWord then
    let lexed ← next
    let _ ← expect .indent .slotBlock
    let slots ← withBound (linesFrom slot)
    return ((slots.getLast?.elim lexed.span fun last => lexed.span.cover last.span), slots)
  else
    let here ← pos
    return (.emptyAt here, [])

/-- The parameters of a method, up to and including the closing parenthesis. -/
def paramsFrom : (bound : Nat) → ParseFrom σ (List Param)
  | 0 => stop
  | bound + 1 => do
    let ty ← typeExpr
    let (text, nameSpan) ← name
    let param : Param := ⟨ty.span.cover nameSpan, ty, text⟩
    let lexed ← next
    match lexed.token with
    | .comma => return param :: (← paramsFrom bound)
    | .rightParen => return [param]
    | found => fail lexed.span (.expected .commaOrParen found)

/-- A method behind the word that opens it, which stands at `start`. -/
def method (start : Span) (isStatic : Bool) : ParseFrom σ Method := do
  let returnType ← typeExpr
  let lexed ← next
  let name? : Option String := match lexed.token with
    | .name text => some text
    | .operator text => some text
    | _ => none
  match name? with
  | none => fail lexed.span (.expected .methodName lexed.token)
  | some text =>
    let _ ← expect .leftParen .openingParen
    let params ← if ← tryTake .rightParen then pure [] else withBound paramsFrom
    let _ ← expect .indent .methodBody
    let body ← block
    return ⟨start.cover body.span, isStatic, returnType, text, params, body⟩

/-- The methods of a class, up to the end of the text. -/
def methodsFrom : (bound : Nat) → ParseFrom σ (List Method)
  | 0 => stop
  | bound + 1 => do
    let lexed ← next
    match lexed.token with
    | .funWord => do
      let first ← method lexed.span true
      return first :: (← methodsFrom bound)
    | .defWord => do
      let first ← method lexed.span false
      return first :: (← methodsFrom bound)
    | .eof => return []
    | other => fail lexed.span (.unexpected other)

/-- The class of a module; `name` is its name, which its text does not say. -/
def classDecl (name : String) : ParseFrom σ ClassDecl := do
  let start ← pos
  let (headSpan, slots) ← head
  let methods ← withBound methodsFrom
  let stopPos ← pos
  return ⟨⟨start, stopPos⟩, name, headSpan, slots, methods⟩

def wholeModule (name : String) : ParseFrom σ Module := do
  let imports ← imports
  let decl ← classDecl name
  let stopPos ← pos
  return ⟨⟨0, stopPos⟩, imports, decl⟩

end Parse

/-- The tree of a module whose class is called `name`, or the first fault in its text. -/
def parse (source name : String) : Except CompileError Module :=
  (Parse.wholeModule name).run' (Parser.ofText source)

end ClassLang.Tree
