import ClassLang.Fault
import ClassLang.Typed

/-!
# Classes and the class table

A class has slots and methods, whose names are distinct from each other. The `ClassTable` holds the
classes of a session in the order in which they were checked; a class is known by its position.
-/

set_option autoImplicit false

namespace ClassLang.Typed

structure Slot where
  span : Span
  mutable : Bool
  ty : Ty
  name : String
deriving Inhabited

structure Param where
  span : Span
  ty : Ty
  name : String
deriving Inhabited

/-- A method; its body is absent until it has been checked. -/
structure Method where
  span : Span
  isStatic : Bool
  returnType : Ty
  name : String
  params : List Param
  body : Option Expr
deriving Inhabited

def Method.paramTypes (method : Method) : List Ty := method.params.map Param.ty

/-- A class; `path` is the logical path of its module. -/
structure Class where
  id : ClassId
  name : String
  path : ModulePath
  span : Span
  slots : List Slot
  methods : List Method
deriving Inhabited

/-- A member of a class with its position among the slots or the methods. -/
inductive Member where
  | slot (index : Nat) (slot : Slot)
  | method (index : Nat) (method : Method)
deriving Inhabited

namespace Class

/-- A class without members. -/
def empty (id : ClassId) (name : String) (path : ModulePath) (span : Span) : Class :=
  ⟨id, name, path, span, [], []⟩

/-- The type of the objects of a class. -/
def ty (c : Class) : Ty := .object c.id c.name

/-- The position and the item of this name in a list. -/
def indexed? {α : Type} (name : α → String) (wanted : String) (items : List α) : Option (Nat × α) :=
  (items.zipIdx.find? fun (item, _) => name item = wanted).map fun (item, index) => (index, item)

/-- The member of this name. -/
def member? (c : Class) (name : String) : Option Member :=
  match indexed? Slot.name name c.slots with
  | some (index, slot) => some (.slot index slot)
  | none => (indexed? Method.name name c.methods).map fun (index, method) => .method index method

/-- How many members a class has. -/
def memberCount (c : Class) : Nat := c.slots.length + c.methods.length

/-- Adds a slot, unless its name is taken. -/
def addSlot (c : Class) (slot : Slot) : Except CompileError Class :=
  if (c.member? slot.name).isSome then .error ⟨slot.span, .duplicateMember slot.name⟩
  else .ok { c with slots := c.slots ++ [slot] }

/-- Adds a method, unless its name is taken. -/
def addMethod (c : Class) (method : Method) : Except CompileError Class :=
  if (c.member? method.name).isSome then .error ⟨method.span, .duplicateMember method.name⟩
  else .ok { c with methods := c.methods ++ [method] }

/-- Takes the bodies away from the methods of these names. -/
def withoutBodies (c : Class) (names : List String) : Class :=
  { c with methods := c.methods.map fun m => if m.name ∈ names then { m with body := none } else m }

end Class

/-- The classes of a session, by their position. -/
structure ClassTable where
  classes : List Class
deriving Inhabited

namespace ClassTable

def empty : ClassTable := ⟨[]⟩

def size (table : ClassTable) : Nat := table.classes.length

def get? (table : ClassTable) (id : ClassId) : Option Class := table.classes[id]?

def push (table : ClassTable) (c : Class) : ClassTable := ⟨table.classes ++ [c]⟩

/-- The name of a class, empty where there is none. -/
def className (table : ClassTable) (id : ClassId) : String := (table.get? id).elim "" Class.name

/-- Puts another class in the place of `id`. -/
def set (table : ClassTable) (id : ClassId) (c : Class) : ClassTable := ⟨table.classes.set id c⟩

end ClassTable

end ClassLang.Typed
