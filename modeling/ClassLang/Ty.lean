/-!
# Types

A type is one of three builtin types or a class, told apart from other classes of its name by its
position in the class table. There is no subtyping: types fit only when they are equal.
-/

set_option autoImplicit false

namespace ClassLang

/-- The position of a class in the class table. -/
abbrev ClassId := Nat

/-- The builtin types: 64-bit integers, 64-bit floating-point numbers and texts. -/
inductive Prim where
  | int
  | float
  | string
deriving DecidableEq, Inhabited

namespace Prim

/-- The builtin types, in the order in which they are looked up. -/
def all : List Prim := [.int, .float, .string]

/-- The name by which programs write a builtin type. -/
def name : Prim → String
  | .int => "Int"
  | .float => "Float"
  | .string => "String"

/-- The builtin type of this name. -/
def ofName? (name : String) : Option Prim := all.find? (·.name = name)

end Prim

/-- The type of a value. -/
inductive Ty where
  | prim (prim : Prim)
  | object (id : ClassId) (name : String)
deriving DecidableEq, Inhabited

namespace Ty

def int : Ty := .prim .int

def float : Ty := .prim .float

def string : Ty := .prim .string

/-- The name of a type, which is also its written form. -/
def name : Ty → String
  | .prim p => p.name
  | .object _ name => name

end Ty

end ClassLang
