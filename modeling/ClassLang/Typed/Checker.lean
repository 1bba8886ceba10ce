import ClassLang.Tree
import ClassLang.Typed.ClassTable

/-!
# Checking a module

Names are resolved and types are checked in two steps. The shape of a class, its slots and the
signatures of its methods, comes first; then every body is checked against the declared return type,
with the shape already in the table so that methods may refer to each other. The classes that a
module imports are complete by then.
-/

set_option autoImplicit false

namespace ClassLang.Typed

/-! ### Types in scope -/

/-- The type names that a module knows besides the builtin ones. -/
structure TypeScope where
  ownName : String
  ownType : Ty
  imports : List (String × Ty)

namespace TypeScope

/-- The imported classes by name. A name may be imported again, but only for the same class. -/
def importsFrom (table : ClassTable) :
    (known : List (String × Ty)) → List (Span × ClassId) → Except CompileError (List (String × Ty))
  | known, [] => .ok known
  | known, (span, id) :: rest =>
    match table.get? id with
    | none => importsFrom table known rest
    | some c =>
      match known.lookup c.name with
      | none => importsFrom table ((c.name, c.ty) :: known) rest
      | some previous =>
        if previous = c.ty then importsFrom table known rest
        else .error ⟨span, .alreadyBound c.name⟩

/-- The type of a name: an imported class, the class itself, or a builtin type, in this order. -/
def lookup? (types : TypeScope) (name : String) : Option Ty :=
  match types.imports.lookup name with
  | some ty => some ty
  | none =>
    if name = types.ownName then some types.ownType
    else (Prim.ofName? name).map .prim

/-- The type that a written type means. -/
def resolve (types : TypeScope) : Tree.TypeExpr → Except CompileError Ty
  | .named span name =>
    match types.lookup? name with
    | some ty => .ok ty
    | none => .error ⟨span, .unbound name⟩
  | .generic span _ _ => .error ⟨span, .notImplemented .genericTypes⟩

end TypeScope

/-! ### Shapes -/

/-- Checks the parameters behind those already `known`, whose names they may not repeat. -/
def shapeParams (types : TypeScope) :
    (known : List Param) → List Tree.Param → Except CompileError (List Param)
  | known, [] => .ok known
  | known, param :: rest =>
    if known.any (·.name = param.name) then .error ⟨param.span, .alreadyBound param.name⟩
    else do
      let ty ← types.resolve param.ty
      shapeParams types (known ++ [⟨param.span, ty, param.name⟩]) rest

def shapeSlot (types : TypeScope) (c : Class) (slot : Tree.Slot) : Except CompileError Class := do
  let ty ← types.resolve slot.ty
  c.addSlot ⟨slot.span, slot.mutable, ty, slot.name⟩

def shapeMethod (types : TypeScope) (c : Class) (method : Tree.Method) :
    Except CompileError Class := do
  let params ← shapeParams types [] method.params
  let returnType ← types.resolve method.returnType
  c.addMethod ⟨method.span, method.isStatic, returnType, method.name, params, none⟩

/-- A class with its members and without bodies. -/
def shape (types : TypeScope) (id : ClassId) (path : ModulePath) (decl : Tree.ClassDecl) :
    Except CompileError Class := do
  let c ← decl.slots.foldlM (shapeSlot types) (.empty id decl.name path decl.span)
  decl.methods.foldlM (shapeMethod types) c

/-! ### Scopes -/

/-- What a name in a body is bound to. -/
inductive Binding where
  | param (index : Nat)
  | localVar (id : Nat)
deriving DecidableEq, Inhabited

structure ScopeEntry where
  name : String
  binding : Binding
  ty : Ty
deriving DecidableEq, Inhabited

/-- The names in scope in a body, innermost first. No name hides another. -/
abbrev Scope := List ScopeEntry

namespace Scope

def lookup? (scope : Scope) (name : String) : Option ScopeEntry := scope.find? (·.name = name)

/-- Brings a name into scope. -/
def bind (scope : Scope) (span : Span) (entry : ScopeEntry) : Except CompileError Scope :=
  if (scope.lookup? entry.name).isSome then .error ⟨span, .alreadyBound entry.name⟩
  else .ok (entry :: scope)

/-- Takes the innermost entry of this name out of scope. -/
def unbind (scope : Scope) (name : String) : Scope := scope.eraseP (·.name = name)

/-- The parameters of a method. -/
def ofParams (params : List Param) : Scope :=
  (params.zipIdx.map fun (param, index) => ⟨param.name, .param index, param.ty⟩).reverse

end Scope

/-- What the surroundings want of an expression. -/
inductive Expectation where
  /-- A value of this type. -/
  | exactly (ty : Ty)
  /-- A value of one type, which is recorded when it is first known. -/
  | infer (first : Option Ty)
  /-- Nothing: the value is discarded. -/
  | void
deriving DecidableEq, Inhabited

/-- Takes note of the type of an expression, or refuses it. -/
def Expectation.accept (span : Span) (actual : Ty) : Expectation → Except CompileError Expectation
  | .exactly ty =>
    if ty = actual then .ok (.exactly ty) else .error ⟨span, .typeMismatch ty actual⟩
  | .infer none => .ok (.infer (some actual))
  | .infer (some first) =>
    if first = actual then .ok (.infer (some actual))
    else .error ⟨span, .inferConflict first actual⟩
  | .void => .ok .void

/-! ### Members -/

/-- How a method is called. -/
structure Signature where
  isStatic : Bool
  params : List Ty
  result : Ty
deriving DecidableEq, Inhabited

def Method.signature (method : Method) : Signature :=
  ⟨method.isStatic, method.paramTypes, method.returnType⟩

/-- A member of a type. -/
inductive Found where
  | slot (ref : SlotRef) (ty : Ty)
  | method (callee : Callee) (signature : Signature)
deriving DecidableEq, Inhabited

/-- The member of this name of a type. -/
def find? (table : ClassTable) (ty : Ty) (name : String) : Option Found :=
  match ty with
  | .prim owner =>
    (Builtin.lookup? owner name).map fun b =>
      .method (.builtin b) ⟨b.isStatic, b.params.map .prim, .prim b.result⟩
  | .object id _ =>
    (table.get? id).bind fun c => (c.member? name).map fun
      | .slot index slot => .slot ⟨id, index, name⟩ slot.ty
      | .method index method => .method (.method ⟨id, index, name⟩) method.signature

/-- What a body is checked in: the table with the shape of its class, that class, the types that it
knows and the method that the body belongs to. -/
structure BodyContext where
  table : ClassTable
  owner : Class
  types : TypeScope
  method : Method

namespace BodyContext

/-- The receiver, for the use of a member that needs one. -/
def receiver (ctx : BodyContext) (span : Span) (member : String) : Except CompileError Expr :=
  if ctx.method.isStatic then .error ⟨span, .instanceWithoutReceiver member⟩
  else .ok (.receiver span ctx.owner.ty)

/-- The method of this name of a type. -/
def methodOf (ctx : BodyContext) (span : Span) (ty : Ty) (name : String) :
    Except CompileError (Callee × Signature) :=
  match find? ctx.table ty name with
  | some (.method callee signature) => .ok (callee, signature)
  | some (.slot _ _) => .error ⟨span, .notAMethod name⟩
  | none => .error ⟨span, .noSuchMember ty name⟩

/-- The method that a call through a receiver of type `ty` leads to. -/
def instanceMethod (ctx : BodyContext) (span : Span) (ty : Ty) (name : String) :
    Except CompileError (Callee × Signature) := do
  let (callee, signature) ← ctx.methodOf span ty name
  if signature.isStatic then .error ⟨span, .staticThroughInstance name⟩
  else .ok (callee, signature)

/-- The method that a call through the type called `className` leads to. -/
def staticMethod (ctx : BodyContext) (span : Span) (className name : String) :
    Except CompileError (Callee × Signature) :=
  match ctx.types.lookup? className with
  | none => .error ⟨span, .unbound className⟩
  | some ty => do
    let (callee, signature) ← ctx.methodOf span ty name
    if signature.isStatic then .ok (callee, signature)
    else .error ⟨span, .instanceWithoutReceiver name⟩

/-- The method that a call by its bare name leads to, with the receiver if it needs one. -/
def ownMethod (ctx : BodyContext) (span : Span) (name : String) :
    Except CompileError (Callee × Signature × Option Expr) :=
  match ctx.owner.member? name with
  | some (.method index method) =>
    let callee := Callee.method ⟨ctx.owner.id, index, name⟩
    if method.isStatic then .ok (callee, method.signature, none)
    else do
      let target ← ctx.receiver span name
      .ok (callee, method.signature, some target)
  | some (.slot _ _) => .error ⟨span, .notAMethod name⟩
  | none => .error ⟨span, .unbound name⟩

/-- The slot that a property of a target is. -/
def property (ctx : BodyContext) (span : Span) (target : Expr) (name : String) :
    Except CompileError Expr :=
  match find? ctx.table target.ty name with
  | some (.slot ref ty) => .ok (.slot span ty ref target)
  | some (.method _ _) => .error ⟨span, .notImplemented .methodValues⟩
  | none => .error ⟨span, .noSuchMember target.ty name⟩

end BodyContext

/-- Refuses a call with too few or too many arguments. -/
def checkCount (span : Span) (name : String) (signature : Signature) (given : Nat) :
    Except CompileError Unit :=
  if given = signature.params.length then .ok ()
  else .error ⟨span, .wrongArgumentCount name signature.params.length given⟩

/-- A call on the receiver where there is one, and through the type otherwise. -/
def ownCall (span : Span) (callee : Callee) (signature : Signature) (target? : Option Expr)
    (args : List Expr) : Expr :=
  match target? with
  | some target => .methodCall span signature.result callee target args
  | none => .staticCall span signature.result callee args

/-! ### Bodies -/

/-- A name by itself: a parameter or local, a slot of the receiver, or a call without arguments. -/
def checkAccess (ctx : BodyContext) (scope : Scope) (span : Span) (name : String) :
    Except CompileError Expr :=
  match scope.lookup? name with
  | some entry =>
    match entry.binding with
    | .param index => .ok (.param span entry.ty index name)
    | .localVar id => .ok (.localVar span entry.ty id name)
  | none =>
    match ctx.owner.member? name with
    | some (.slot index slot) => do
      let target ← ctx.receiver span name
      .ok (.slot span slot.ty ⟨ctx.owner.id, index, name⟩ target)
    | some (.method _ _) => do
      let (callee, signature, target?) ← ctx.ownMethod span name
      checkCount span name signature 0
      .ok (ownCall span callee signature target? [])
    | none => .error ⟨span, .unbound name⟩

/-- The names that are in scope and the number of the next local. -/
structure BodyState where
  scope : Scope
  nextLocal : Nat

/-- Checking a body. -/
abbrev BodyCheck := StateT BodyState (Except CompileError)

namespace BodyCheck

/-- Binds a pattern to a value of type `ty` and gives the name that it brings into scope. -/
def pattern (ty : Ty) : Tree.Pattern → BodyCheck (Pattern × Option String)
  | .ignore span => return (.ignore span, none)
  | .single span name => do
    let ⟨scope, id⟩ ← get
    let scope ← scope.bind span ⟨name, .localVar id, ty⟩
    set (BodyState.mk scope (id + 1))
    return (.single span ty id name, some name)
  | .destruct span _ => throw ⟨span, .notImplemented .destructuring⟩

/-- Takes what a pattern has bound out of scope. -/
def unbind : Option String → BodyCheck Unit
  | none => return ()
  | some name => modify fun s => { s with scope := s.scope.unbind name }

/-- Ends the check of an expression: its type is what the surroundings want. -/
def settle (want : Expectation) (span : Span) (e : Expr) : BodyCheck (Expr × Expectation) := do
  let want ← want.accept span e.ty
  return (e, want)

mutual

/-- Checks an expression. Gives its typed form and what the surroundings know by then. -/
def expr (ctx : BodyContext) (want : Expectation) : Tree.Expr → BodyCheck (Expr × Expectation)
  | .letIn span bound value body => do
    let (value, _) ← expr ctx (.infer none) value
    let (bound, name?) ← pattern value.ty bound
    let (body, want) ← expr ctx want body
    unbind name?
    return (.letIn span bound value body, want)
  | .seq span first body => do
    let (first, _) ← expr ctx .void first
    let (body, want) ← expr ctx want body
    return (.seq span first body, want)
  | .access span name => do
    let e ← checkAccess ctx (← get).scope span name
    settle want span e
  | .staticAccess span className name => do
    let (callee, signature) ← ctx.staticMethod span className name
    checkCount span name signature 0
    settle want span (.staticCall span signature.result callee [])
  | .operatorCall span left operator right => do
    let (target, _) ← expr ctx (.infer none) left
    let (callee, signature) ← ctx.instanceMethod span target.ty operator
    match signature.params with
    | [ty] =>
      let (arg, _) ← expr ctx (.exactly ty) right
      settle want span (.methodCall span signature.result callee target [arg])
    | params => throw ⟨span, .wrongArgumentCount operator params.length 1⟩
  | .call span (.property _ receiver name) args => do
    let (target, _) ← expr ctx (.infer none) receiver
    let (callee, signature) ← ctx.instanceMethod span target.ty name
    checkCount span name signature args.length
    let args ← arguments ctx signature.params args
    settle want span (.methodCall span signature.result callee target args)
  | .call span (.staticAccess _ className name) args => do
    let (callee, signature) ← ctx.staticMethod span className name
    checkCount span name signature args.length
    let args ← arguments ctx signature.params args
    settle want span (.staticCall span signature.result callee args)
  | .call span (.access targetSpan name) args => do
    if ((← get).scope.lookup? name).isSome then throw ⟨targetSpan, .notCallable⟩
    else
      let (callee, signature, target?) ← ctx.ownMethod span name
      checkCount span name signature args.length
      let args ← arguments ctx signature.params args
      settle want span (ownCall span callee signature target? args)
  | .call _ target _ => throw ⟨target.span, .notCallable⟩
  | .property span target name => do
    let (target, _) ← expr ctx (.infer none) target
    let e ← ctx.property span target name
    settle want span e
  | .literal span value => settle want span (.literal span value)
  | .quote span head holes => do
    let holes ← quoteHoles ctx holes
    settle want span (.quote span head holes)

/-- Checks arguments against the types of their parameters. -/
def arguments (ctx : BodyContext) : (params : List Ty) → List Tree.Expr → BodyCheck (List Expr)
  | ty :: params, arg :: args => do
    let (first, _) ← expr ctx (.exactly ty) arg
    let rest ← arguments ctx params args
    return first :: rest
  | _, _ => return []

/-- Checks the holes of a quote, which hold texts. -/
def quoteHoles (ctx : BodyContext) : List (Tree.Expr × String) → BodyCheck (List (Expr × String))
  | [] => return []
  | (hole, text) :: rest => do
    let (first, _) ← expr ctx (.exactly .string) hole
    let others ← quoteHoles ctx rest
    return (first, text) :: others

end

end BodyCheck

/-- Checks the body of a method against its return type. -/
def checkBody (table : ClassTable) (owner : Class) (types : TypeScope) (method : Method)
    (body : Tree.Expr) : Except CompileError Method := do
  let ctx : BodyContext := ⟨table, owner, types, method⟩
  let start : BodyState := ⟨Scope.ofParams method.params, 0⟩
  let (checked, _) ← (BodyCheck.expr ctx (.exactly method.returnType) body).run' start
  return { method with body := some checked }

/-- Checks the bodies of the methods of a class in order. -/
def checkBodies (table : ClassTable) (owner : Class) (types : TypeScope) :
    List Method → List Tree.Method → Except CompileError (List Method)
  | method :: methods, tree :: trees => do
    let first ← checkBody table owner types method tree.body
    let rest ← checkBodies table owner types methods trees
    return first :: rest
  | _, _ => return []

/-- Checks a module whose imports are in the table, and gives the table with its class at the
end. -/
def checkModule (table : ClassTable) (path : ModulePath) (tree : Tree.Module)
    (imports : List (Span × ClassId)) : Except CompileError ClassTable := do
  let id := table.size
  let decl := tree.classDecl
  let imported ← TypeScope.importsFrom table [] imports
  let types : TypeScope := ⟨decl.name, .object id decl.name, imported⟩
  let outline ← shape types id path decl
  let methods ← checkBodies (table.push outline) outline types outline.methods decl.methods
  return table.push { outline with methods := methods }

end ClassLang.Typed
