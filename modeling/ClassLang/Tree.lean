import ClassLang.Literal
import ClassLang.ModulePath
import ClassLang.Span

/-!
# The tree of a module

What the text of one module says, before any name in it is given a meaning. Every node has the span
of the text that it came from.
-/

set_option autoImplicit false

namespace ClassLang.Tree

/-- A type as it is written: a name, or a name with type arguments. -/
inductive TypeExpr where
  | named (span : Span) (name : String)
  | generic (span : Span) (name : String) (args : List TypeExpr)
deriving Inhabited

def TypeExpr.span : TypeExpr → Span
  | .named span _ => span
  | .generic span _ _ => span

/-- What the left side of a declaration binds: nothing, one name, or several. -/
inductive Pattern where
  | ignore (span : Span)
  | single (span : Span) (name : String)
  | destruct (span : Span) (names : List (Span × String))
deriving DecidableEq, Inhabited

def Pattern.span : Pattern → Span
  | .ignore span => span
  | .single span _ => span
  | .destruct span _ => span

/-- An expression. A block of lines is an expression too: each line but the last is a `letIn` or a
`seq` whose continuation is the rest of the block. -/
inductive Expr where
  | access (span : Span) (name : String)
  | staticAccess (span : Span) (className method : String)
  | operatorCall (span : Span) (left : Expr) (operator : String) (right : Expr)
  | call (span : Span) (target : Expr) (args : List Expr)
  | property (span : Span) (target : Expr) (name : String)
  | letIn (span : Span) (pattern : Pattern) (value body : Expr)
  | seq (span : Span) (first body : Expr)
  | literal (span : Span) (value : Literal)
  /-- A quote with holes: the text before the first, then each hole with the text behind it. -/
  | quote (span : Span) (head : String) (holes : List (Expr × String))
deriving Inhabited

def Expr.span : Expr → Span
  | .access span _ => span
  | .staticAccess span _ _ => span
  | .operatorCall span _ _ _ => span
  | .call span _ _ => span
  | .property span _ _ => span
  | .letIn span _ _ _ => span
  | .seq span _ _ => span
  | .literal span _ => span
  | .quote span _ _ => span

/-- Where an import leads: from the top, or from the file that it stands in. -/
inductive ImportPath where
  | fromTop (path : ModulePath)
  | relative (rel : RelativePath)
deriving DecidableEq, Inhabited

structure Import where
  span : Span
  path : ImportPath
deriving DecidableEq, Inhabited

/-- A field of the objects of a class. -/
structure Slot where
  span : Span
  mutable : Bool
  ty : TypeExpr
  name : String
deriving Inhabited

structure Param where
  span : Span
  ty : TypeExpr
  name : String
deriving Inhabited

structure Method where
  span : Span
  isStatic : Bool
  returnType : TypeExpr
  name : String
  params : List Param
  body : Expr
deriving Inhabited

/-- The class of a module. `headSpan` is the place of its slots, empty where it has none. -/
structure ClassDecl where
  span : Span
  name : String
  headSpan : Span
  slots : List Slot
  methods : List Method
deriving Inhabited

structure Module where
  span : Span
  imports : List Import
  classDecl : ClassDecl
deriving Inhabited

end ClassLang.Tree
