import ClassLang.Builtin
import ClassLang.Literal
import ClassLang.ModulePath
import ClassLang.Span

/-!
# Typed expressions

Expressions in which every name has been resolved and every node has a type. Let-bound locals are
numbered from zero in the order in which they are bound within a method.
-/

set_option autoImplicit false

namespace ClassLang.Typed

/-- A slot of a class, by its position. -/
structure SlotRef where
  owner : ClassId
  index : Nat
  name : String
deriving DecidableEq, Inhabited

/-- A method of a class, by its position. -/
structure MethodRef where
  owner : ClassId
  index : Nat
  name : String
deriving DecidableEq, Inhabited

/-- What a call leads to. -/
inductive Callee where
  | method (ref : MethodRef)
  | builtin (builtin : Builtin)
deriving DecidableEq, Inhabited

def Callee.name : Callee → String
  | .method ref => ref.name
  | .builtin b => b.name

/-- What a declaration binds. -/
inductive Pattern where
  | ignore (span : Span)
  | single (span : Span) (ty : Ty) (id : Nat) (name : String)
deriving DecidableEq, Inhabited

/-- A typed expression. -/
inductive Expr where
  | localVar (span : Span) (ty : Ty) (id : Nat) (name : String)
  | param (span : Span) (ty : Ty) (index : Nat) (name : String)
  | receiver (span : Span) (ty : Ty)
  | slot (span : Span) (ty : Ty) (ref : SlotRef) (target : Expr)
  | methodCall (span : Span) (ty : Ty) (callee : Callee) (target : Expr) (args : List Expr)
  | staticCall (span : Span) (ty : Ty) (callee : Callee) (args : List Expr)
  | letIn (span : Span) (pattern : Pattern) (value body : Expr)
  | seq (span : Span) (first body : Expr)
  | literal (span : Span) (value : Literal)
  | quote (span : Span) (head : String) (holes : List (Expr × String))
deriving Inhabited

def Expr.span : Expr → Span
  | .localVar span _ _ _ => span
  | .param span _ _ _ => span
  | .receiver span _ => span
  | .slot span _ _ _ => span
  | .methodCall span _ _ _ _ => span
  | .staticCall span _ _ _ => span
  | .letIn span _ _ _ => span
  | .seq span _ _ => span
  | .literal span _ => span
  | .quote span _ _ => span

end ClassLang.Typed

namespace ClassLang

/-- The type of a literal. -/
def Literal.ty : Literal → Ty
  | .int _ => .int
  | .float _ => .float
  | .str _ => .string

/-- The type of an expression. A block has the type of its last line. -/
def Typed.Expr.ty : Typed.Expr → Ty
  | .localVar _ ty _ _ => ty
  | .param _ ty _ _ => ty
  | .receiver _ ty => ty
  | .slot _ ty _ _ => ty
  | .methodCall _ ty _ _ _ => ty
  | .staticCall _ ty _ _ => ty
  | .letIn _ _ _ body => body.ty
  | .seq _ _ body => body.ty
  | .literal _ value => value.ty
  | .quote _ _ _ => .string

end ClassLang
