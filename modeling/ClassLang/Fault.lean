import ClassLang.ModulePath
import ClassLang.Token
import ClassLang.Ty

/-!
# What can be wrong with a program

A `Fault` is a cause, apart from the place where it shows; `Fault.message` is the only function that
words it. A `CompileError` is a fault at a span of some source text.
-/

set_option autoImplicit false

namespace ClassLang

/-- What the grammar asks for at a point where it admits only one thing. -/
inductive Wanted where
  | importBlock
  | moduleName
  | slotBlock
  | slotWord
  | methodName
  | openingParen
  | commaOrParen
  | methodBody
  | typeName
  | commaOrBracket
  | name
  | dotAfterType
deriving DecidableEq, Inhabited

def Wanted.text : Wanted → String
  | .importBlock => "an indented block of imports"
  | .moduleName => "a module name"
  | .slotBlock => "an indented block of slots"
  | .slotWord => "`val` or `var`"
  | .methodName => "a method name"
  | .openingParen => "`(`"
  | .commaOrParen => "`,` or `)`"
  | .methodBody => "an indented method body"
  | .typeName => "a type name"
  | .commaOrBracket => "`,` or `]`"
  | .name => "a name"
  | .dotAfterType => "`.` after a type name"

/-- What the grammar admits and the language gives no meaning yet. -/
inductive Feature where
  | globalImports
  | genericTypes
  | destructuring
  | methodValues
  | uncheckedBodies
  | unplannedCalls
deriving DecidableEq, Inhabited

def Feature.text : Feature → String
  | .globalImports => "global imports"
  | .genericTypes => "generic types"
  | .destructuring => "destructuring patterns"
  | .methodValues => "method values"
  | .uncheckedBodies => "methods without a checked body"
  | .unplannedCalls => "calls outside the import table"

/-- A cause for which a program is refused. -/
inductive Fault where
  | leadingSpace
  | trailingSpace
  | tooMuchIndent
  | unrecognizedCharacter (c : Char)
  | missingFractionDigits
  | numberOutOfRange (text : String)
  | unterminatedQuote
  | badEscape (c : Char)
  | unexpected (found : Token)
  | expected (wanted : Wanted) (found : Token)
  | emptyExpression
  | precedingEquals
  | blockEndsInDeclaration
  | unaryOperator (operator : String)
  /-- A bound on the work is used up. It grows with the text, so no text reaches it. -/
  | boundReached
  | circularDependency (path : ModulePath)
  | moduleNotFound (rel : RelativePath) (file directory : ModulePath)
  | directoryNotFound (rel : RelativePath) (directory : ModulePath)
  | unresolvable (rel : RelativePath) (base : ModulePath)
  | emptyModulePath
  | unbound (name : String)
  | duplicateMember (name : String)
  | alreadyBound (name : String)
  | noSuchMember (ty : Ty) (name : String)
  | notAMethod (name : String)
  | notCallable
  | staticThroughInstance (name : String)
  | instanceWithoutReceiver (name : String)
  | wrongArgumentCount (method : String) (wanted given : Nat)
  | typeMismatch (wanted given : Ty)
  | inferConflict (first second : Ty)
  | notImplemented (feature : Feature)
deriving DecidableEq, Inhabited

/-- The wording of a fault. -/
def Fault.message : Fault → String
  | .leadingSpace => "line may not begin with a space"
  | .trailingSpace => "this line has a trailing space character"
  | .tooMuchIndent =>
    "this line is indented multiple times compared to the previous line; use only one indent"
  | .unrecognizedCharacter c => "unrecognized character `" ++ c.toString ++ "`"
  | .missingFractionDigits =>
    "a number must have digits after the decimal point, e.g. `1.0` and not `1.`"
  | .numberOutOfRange text => "number literal `" ++ text ++ "` is out of range"
  | .unterminatedQuote => "unterminated quote"
  | .badEscape c => "bad escape `\\" ++ c.toString ++ "`"
  | .unexpected found => "unexpected token: " ++ found.text
  | .expected wanted found => "expected " ++ wanted.text ++ ", got " ++ found.text
  | .emptyExpression => "this expression is empty"
  | .precedingEquals => "`=` must be preceded by one or more names"
  | .blockEndsInDeclaration => "last line of a block can't be a variable declaration"
  | .unaryOperator operator =>
    "operator `" ++ operator ++ "` has no left-hand side; unary operators are not supported"
  | .boundReached => "this text is too large"
  | .circularDependency path => "circular dependency on module " ++ path.text
  | .moduleNotFound rel file directory =>
    "can't find module " ++ rel.text ++ ": tried " ++ file.text ++ " and " ++ directory.text
  | .directoryNotFound rel directory =>
    "can't find module " ++ rel.text ++ ": tried " ++ directory.text
  | .unresolvable rel base => "can't resolve " ++ rel.text ++ " relative to " ++ base.text
  | .emptyModulePath => "module path is empty"
  | .unbound name => "can't bind `" ++ name ++ "`"
  | .duplicateMember name => "duplicate member `" ++ name ++ "`"
  | .alreadyBound name => "`" ++ name ++ "` is already bound in this scope"
  | .noSuchMember ty name => "type " ++ ty.name ++ " has no member `" ++ name ++ "`"
  | .notAMethod name => "member `" ++ name ++ "` is not a method"
  | .notCallable => "this expression can't be called"
  | .staticThroughInstance name =>
    "static method `" ++ name ++ "` can't be called through an instance"
  | .instanceWithoutReceiver name => "instance method `" ++ name ++ "` needs a receiver"
  | .wrongArgumentCount method wanted given =>
    "method `" ++ method ++ "` takes " ++ toString wanted ++ " arguments, but " ++
      toString given ++ " were given"
  | .typeMismatch wanted given => "expected type " ++ wanted.name ++ ", but got " ++ given.name
  | .inferConflict first second =>
    "inferred types disagree: " ++ first.name ++ " vs " ++ second.name
  | .notImplemented feature => "not implemented: " ++ feature.text

/-- A fault at a place in a source text. -/
structure CompileError where
  span : Span
  fault : Fault
deriving DecidableEq, Inhabited

/-- The written form of an error whose text is known from its surroundings. -/
def CompileError.message (e : CompileError) : String :=
  e.fault.message ++ " (at " ++ e.span.text ++ ")"

end ClassLang
