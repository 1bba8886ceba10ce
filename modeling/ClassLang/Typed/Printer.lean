import ClassLang.Tree.Printer
import ClassLang.Typed.ClassTable

/-!
# Listings of checked classes

Typed trees as nested lists in parentheses, with the types of names, slots and calls.
-/

set_option autoImplicit false

namespace ClassLang.Typed

open ClassLang.Tree (listText slotWord methodWord)

/-- A called method with the class or type that it belongs to. -/
def Callee.text (table : ClassTable) : Callee → String
  | .method ref => table.className ref.owner ++ "." ++ ref.name
  | .builtin b => b.fullName

def Pattern.text : Pattern → String
  | .ignore _ => "_"
  | .single _ ty _ name => listText [name, ty.name]

mutual

def Expr.text (table : ClassTable) : Expr → String
  | .localVar _ ty _ name => listText ["local", name, ty.name]
  | .param _ ty _ name => listText ["param", name, ty.name]
  | .receiver _ ty => listText ["self", ty.name]
  | .slot _ ty ref target => listText ["slot", ref.name, target.text table, ty.name]
  | .methodCall _ ty callee target args =>
    listText (["call", callee.text table, target.text table] ++ exprTexts table args ++ [ty.name])
  | .staticCall _ ty callee args =>
    listText (["static", callee.text table] ++ exprTexts table args ++ [ty.name])
  | .letIn _ pattern value body =>
    listText ["let", pattern.text, value.text table, body.text table]
  | .seq _ first body => listText ["seq", first.text table, body.text table]
  | .literal _ value => value.text
  | .quote _ head holes => listText ("quote" :: Text.quoted head :: holeTexts table holes)

def exprTexts (table : ClassTable) : List Expr → List String
  | [] => []
  | e :: rest => e.text table :: exprTexts table rest

def holeTexts (table : ClassTable) : List (Expr × String) → List String
  | [] => []
  | (hole, text) :: rest => hole.text table :: Text.quoted text :: holeTexts table rest

end

def Slot.text (slot : Slot) : String := listText [slotWord slot.mutable, slot.ty.name, slot.name]

def Method.text (table : ClassTable) (method : Method) : String :=
  let params := method.params.map fun param => listText [param.ty.name, param.name]
  listText ([methodWord method.isStatic, method.returnType.name, method.name, listText params] ++
    (method.body.map (Expr.text table)).toList)

/-- A class with its path, its name and its members. -/
def Class.text (table : ClassTable) (c : Class) : String :=
  listText (["class", c.path.text, c.name] ++ c.slots.map Slot.text ++
    c.methods.map (Method.text table))

end ClassLang.Typed
