import ClassLang.Tree

/-!
# Listings of trees

A tree as nested lists in parentheses, without places: a form for reading, in which every part of
the tree shows.
-/

set_option autoImplicit false

namespace ClassLang.Tree

/-- Items in parentheses with a space between them. -/
def listText (items : List String) : String := "(" ++ " ".intercalate items ++ ")"

def slotWord (mutable : Bool) : String := if mutable then "var" else "val"

def methodWord (isStatic : Bool) : String := if isStatic then "fun" else "def"

mutual

/-- A type as it is written. -/
def TypeExpr.text : TypeExpr → String
  | .named _ name => name
  | .generic _ name args => name ++ "[" ++ ", ".intercalate (typeTexts args) ++ "]"

def typeTexts : List TypeExpr → List String
  | [] => []
  | ty :: rest => ty.text :: typeTexts rest

end

def Pattern.text : Pattern → String
  | .ignore _ => "_"
  | .single _ name => name
  | .destruct _ names => listText (names.map Prod.snd)

mutual

def Expr.text : Expr → String
  | .access _ name => name
  | .staticAccess _ className method => className ++ "." ++ method
  | .operatorCall _ left operator right => listText [operator, left.text, right.text]
  | .call _ target args => listText ("call" :: target.text :: exprTexts args)
  | .property _ target name => listText [".", target.text, name]
  | .letIn _ pattern value body => listText ["let", pattern.text, value.text, body.text]
  | .seq _ first body => listText ["seq", first.text, body.text]
  | .literal _ value => value.text
  | .quote _ head holes => listText ("quote" :: Text.quoted head :: holeTexts holes)

def exprTexts : List Expr → List String
  | [] => []
  | e :: rest => e.text :: exprTexts rest

def holeTexts : List (Expr × String) → List String
  | [] => []
  | (hole, text) :: rest => hole.text :: Text.quoted text :: holeTexts rest

end

def ImportPath.text : ImportPath → String
  | .fromTop path => path.text
  | .relative rel => rel.text

def Slot.text (slot : Slot) : String :=
  listText [slotWord slot.mutable, slot.ty.text, slot.name]

def Param.text (param : Param) : String := listText [param.ty.text, param.name]

def Method.text (method : Method) : String :=
  listText [methodWord method.isStatic, method.returnType.text, method.name,
    listText (method.params.map Param.text), method.body.text]

def ClassDecl.text (decl : ClassDecl) : String :=
  let slots := if decl.slots.isEmpty then [] else [listText ("slots" :: decl.slots.map Slot.text)]
  listText (["class", decl.name] ++ slots ++ decl.methods.map Method.text)

def Module.text (tree : Module) : String :=
  listText ("module" :: tree.imports.map (fun i => listText ["import", i.path.text]) ++
    [tree.classDecl.text])

end ClassLang.Tree
