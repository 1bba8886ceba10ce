import ClassLang.Typed.ClassTable

/-!
# Canonical source text

The source text of a checked body: one line for each statement, with no more parentheses than its
reading needs. Operators associate to the right, so only an operator call on the left of another is
put in parentheses; arguments and targets are atoms.
-/

set_option autoImplicit false

namespace ClassLang.Typed

/-- How a character of quote text is written so that it is read back as itself. -/
def escapedChar (c : Char) : List Char :=
  match c with
  | '"' => ['\\', '"']
  | '{' => ['\\', '{']
  | '\n' => ['\\', 'n']
  | '\t' => ['\\', 't']
  | c => [c]

/-- Quote text with its escapes. -/
def escapedText (text : String) : String := String.ofList (text.toList.flatMap escapedChar)

/-- A literal as it is written in a program. -/
def literalSource : Literal → String
  | .int value => Number.intText value.toInt
  | .float value => value.text
  | .str text => "\"" ++ escapedText text ++ "\""

/-- Whether a method is called between its operands: its name begins with no letter or digit. -/
def isOperatorName (name : String) : Bool := !name.toList.head?.any Char.isAlphanum

/-- Whether a class name can be written before a method name. -/
def startsUpper (name : String) : Bool := name.toList.head?.any Char.isUpper

/-- The text before the arguments of a call through a type. Only the class itself can have a name
that does not begin with an upper-case letter, and its methods need no class before them. -/
def staticHead (table : ClassTable) : Callee → String
  | .builtin b => b.fullName
  | .method ref =>
    let owner := table.className ref.owner
    if startsUpper owner then owner ++ "." ++ ref.name else ref.name

/-- The texts of one expression for the three places where it may stand: a whole line, the left side
of an operator or the start of a line, and an argument or target. -/
structure Forms where
  line : String
  call : String
  atom : String
  isOperatorCall : Bool
  isReceiver : Bool

namespace Forms

def ofAtom (text : String) : Forms := ⟨text, text, text, false, false⟩

/-- A call with its arguments, which is an atom where it has none. -/
def ofCall (head : String) (args : List Forms) : Forms :=
  let text := " ".intercalate (head :: args.map Forms.atom)
  ⟨text, text, if args.isEmpty then text else "(" ++ text ++ ")", false, false⟩

/-- An operator between its operands. -/
def ofOperator (left : Forms) (operator : String) (right : Forms) : Forms :=
  let first := if left.isOperatorCall then "(" ++ left.line ++ ")" else left.call
  let text := first ++ " " ++ operator ++ " " ++ right.line
  ⟨text, "(" ++ text ++ ")", "(" ++ text ++ ")", true, false⟩

/-- A member behind its target; the receiver goes without saying. -/
def memberHead (target : Forms) (name : String) : String :=
  if target.isReceiver then name else target.atom ++ "." ++ name

end Forms

mutual

/-- The forms of an expression. A block stands for its last line here; checked bodies have no blocks
inside lines. -/
def Expr.forms (table : ClassTable) : Expr → Forms
  | .localVar _ _ _ name => .ofAtom name
  | .param _ _ _ name => .ofAtom name
  | .receiver _ _ => { Forms.ofAtom "self" with isReceiver := true }
  | .slot _ _ ref target => .ofAtom ((target.forms table).memberHead ref.name)
  | .methodCall _ _ callee target args =>
    let target := target.forms table
    match isOperatorName callee.name, formsList table args with
    | true, [right] => .ofOperator target callee.name right
    | _, args => .ofCall (target.memberHead callee.name) args
  | .staticCall _ _ callee args => .ofCall (staticHead table callee) (formsList table args)
  | .letIn _ _ _ body => body.forms table
  | .seq _ _ body => body.forms table
  | .literal _ value => .ofAtom (literalSource value)
  | .quote _ head holes =>
    .ofAtom ("\"" ++ escapedText head ++ String.join (holeSources table holes) ++ "\"")

def formsList (table : ClassTable) : List Expr → List Forms
  | [] => []
  | e :: rest => e.forms table :: formsList table rest

def holeSources (table : ClassTable) : List (Expr × String) → List String
  | [] => []
  | (hole, text) :: rest =>
    ("\x7b" ++ (hole.forms table).line ++ "\x7d" ++ escapedText text) :: holeSources table rest

end

/-- The lines of a block. -/
def Expr.sourceLines (table : ClassTable) : Expr → List String
  | .letIn _ pattern value body =>
    let name := match pattern with
      | .ignore _ => "_"
      | .single _ _ _ name => name
    (name ++ " = " ++ (value.forms table).line) :: body.sourceLines table
  | .seq _ first body => (first.forms table).line :: body.sourceLines table
  | e => [(e.forms table).line]

/-- The source text of a body, each line indented by `depth` tabs. -/
def Expr.source (table : ClassTable) (depth : Nat) (e : Expr) : String :=
  let indent := String.ofList (List.replicate depth '\t')
  "\n".intercalate ((e.sourceLines table).map (indent ++ ·))

end ClassLang.Typed
