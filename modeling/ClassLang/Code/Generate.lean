import ClassLang.Code.Artifact
import ClassLang.Typed.ClassTable

/-!
# Code generation

The code of an expression leaves its value on the stack. Arguments are computed from left to right
before a call; a quote joins its texts and holes by the host's concatenation, from left to right.
The texts of a class are kept once each, in the order in which the code first needs them.
-/

set_option autoImplicit false

namespace ClassLang.Code

open Typed (Expr Callee MethodRef ClassTable Method)

/-- The items of a list without repetitions, each at its first place. -/
def firsts {α : Type} [DecidableEq α] (items : List α) : List α :=
  items.foldl (fun known item => if item ∈ known then known else known ++ [item]) []

/-! ### What a body needs -/

mutual

/-- The methods that an expression calls, those of a call before those of its parts. -/
def callees : Expr → List Callee
  | .localVar _ _ _ _ => []
  | .param _ _ _ _ => []
  | .receiver _ _ => []
  | .slot _ _ _ target => callees target
  | .methodCall _ _ callee target args => callee :: callees target ++ calleesList args
  | .staticCall _ _ callee args => callee :: calleesList args
  | .letIn _ _ value body => callees value ++ callees body
  | .seq _ first body => callees first ++ callees body
  | .literal _ _ => []
  | .quote _ _ holes => .builtin .stringConcat :: calleesHoles holes

def calleesList : List Expr → List Callee
  | [] => []
  | e :: rest => callees e ++ calleesList rest

def calleesHoles : List (Expr × String) → List Callee
  | [] => []
  | (hole, _) :: rest => callees hole ++ calleesHoles rest

end

mutual

/-- The texts that the code of an expression needs, in the order of the code. -/
def textsOf : Expr → List String
  | .localVar _ _ _ _ => []
  | .param _ _ _ _ => []
  | .receiver _ _ => []
  | .slot _ _ _ target => textsOf target
  | .methodCall _ _ _ target args => textsOf target ++ textsList args
  | .staticCall _ _ _ args => textsList args
  | .letIn _ _ value body => textsOf value ++ textsOf body
  | .seq _ first body => textsOf first ++ textsOf body
  | .literal _ (.str text) => [text]
  | .literal _ _ => []
  | .quote _ head holes => head :: textsHoles holes

def textsList : List Expr → List String
  | [] => []
  | e :: rest => textsOf e ++ textsList rest

def textsHoles : List (Expr × String) → List String
  | [] => []
  | (hole, text) :: rest =>
    textsOf hole ++ (if text.isEmpty then [] else [text]) ++ textsHoles rest

end

mutual

/-- The numbers and machine types of the locals that an expression binds. -/
def boundLocals : Expr → List (Nat × ValType)
  | .localVar _ _ _ _ => []
  | .param _ _ _ _ => []
  | .receiver _ _ => []
  | .slot _ _ _ target => boundLocals target
  | .methodCall _ _ _ target args => boundLocals target ++ boundLocalsList args
  | .staticCall _ _ _ args => boundLocalsList args
  | .letIn _ (.single _ ty id _) value body =>
    (id, valType ty) :: boundLocals value ++ boundLocals body
  | .letIn _ (.ignore _) value body => boundLocals value ++ boundLocals body
  | .seq _ first body => boundLocals first ++ boundLocals body
  | .literal _ _ => []
  | .quote _ _ holes => boundLocalsHoles holes

def boundLocalsList : List Expr → List (Nat × ValType)
  | [] => []
  | e :: rest => boundLocals e ++ boundLocalsList rest

def boundLocalsHoles : List (Expr × String) → List (Nat × ValType)
  | [] => []
  | (hole, _) :: rest => boundLocals hole ++ boundLocalsHoles rest

end

/-- The machine types of the locals of a body, by their number. -/
def localTypes (body : Expr) : List ValType :=
  let bound := boundLocals body
  let count := bound.foldl (fun count b => max count (b.1 + 1)) 0
  (List.range count).map fun id => (bound.reverse.lookup id).getD .i32

/-- The functions that a class needs from elsewhere, in the order of their numbers. -/
structure ImportPlan where
  host : List Builtin
  foreign : List MethodRef
deriving DecidableEq, Inhabited

namespace ImportPlan

def hostBuiltin? : Callee → Option Builtin
  | .builtin b => if b.isInline then none else some b
  | .method _ => none

def foreignMethod? (owner : ClassId) : Callee → Option MethodRef
  | .builtin _ => none
  | .method ref => if ref.owner = owner then none else some ref

/-- What the bodies of a class call outside it. -/
def ofClass (c : Typed.Class) : ImportPlan :=
  let called := (c.methods.filterMap Method.body).flatMap callees
  ⟨firsts (called.filterMap hostBuiltin?), firsts (called.filterMap (foreignMethod? c.id))⟩

/-- The number of the first function of the class itself. -/
def ownBase (plan : ImportPlan) : Nat := plan.host.length + plan.foreign.length

end ImportPlan

/-! ### Code of expressions -/

/-- The instruction that a builtin method is. -/
def inlineInstr? : Builtin → Option Instr
  | .intAdd => some .i64Add
  | .intSub => some .i64Sub
  | .intMul => some .i64Mul
  | .intDiv => some .i64Div
  | .intFromFloat => some .i64OfF64
  | .floatAdd => some .f64Add
  | .floatSub => some .f64Sub
  | .floatMul => some .f64Mul
  | .floatDiv => some .f64Div
  | .floatFromInt => some .f64OfI64
  | .intPow | .intParse | .intMax | .intMin | .floatParse | .stringConcat | .stringFromInt
  | .stringFromFloat | .stringLength => none

/-- What the code of a body depends on. -/
structure CodeContext where
  table : ClassTable
  owner : ClassId
  plan : ImportPlan
  texts : List String
  lines : LineIndex
  paramBase : Nat
  localBase : Nat

namespace CodeContext

/-- The instruction of a call. -/
def callInstr (ctx : CodeContext) (span : Span) (callee : Callee) : Except CompileError Instr :=
  let index? : Option Nat := match callee with
    | .builtin b => ctx.plan.host.idxOf? b
    | .method ref =>
      if ref.owner = ctx.owner then some (ctx.plan.ownBase + ref.index)
      else (ctx.plan.foreign.idxOf? ref).map (ctx.plan.host.length + ·)
  let inline? := match callee with
    | .builtin b => inlineInstr? b
    | .method _ => none
  match inline?, index? with
  | some instr, _ => .ok instr
  | none, some index => .ok (.call index)
  | none, none => .error ⟨span, .notImplemented .unplannedCalls⟩

/-- The code of a text: its position among the texts of the session. -/
def textCode (ctx : CodeContext) (text : String) : List Piece :=
  [.op (.globalGet 0), .op (.i32Const (UInt32.ofNat (ctx.texts.idxOf text))), .op .i32Add]

def mark (ctx : CodeContext) (span : Span) : Piece := .mark (ctx.lines.line span.start)

/-- The machine type of a slot. -/
def slotType (ctx : CodeContext) (ref : Typed.SlotRef) : ValType :=
  ((ctx.table.get? ref.owner).bind fun c => c.slots[ref.index]?).elim .i32 fun slot =>
    valType slot.ty

end CodeContext

mutual

/-- The code of an expression. -/
def emit (ctx : CodeContext) : Expr → Except CompileError (List Piece)
  | .localVar _ _ id _ => return [.op (.localGet (ctx.localBase + id))]
  | .param _ _ index _ => return [.op (.localGet (ctx.paramBase + index))]
  | .receiver _ _ => return [.op (.localGet 0)]
  | .slot _ _ ref target => do
    let target ← emit ctx target
    return target ++ [.op (.load (ctx.slotType ref) (ref.index * cellSize))]
  | .methodCall span _ callee target args => do
    let target ← emit ctx target
    let args ← emitList ctx args
    let call ← ctx.callInstr span callee
    return target ++ args ++ [.op call]
  | .staticCall span _ callee args => do
    let args ← emitList ctx args
    let call ← ctx.callInstr span callee
    return args ++ [.op call]
  | .letIn _ pattern value body => do
    let value ← emit ctx value
    let bodyMark := ctx.mark body.span
    let body ← emit ctx body
    let store : Instr := match pattern with
      | .single _ _ id _ => .localSet (ctx.localBase + id)
      | .ignore _ => .drop
    return value ++ [.op store, bodyMark] ++ body
  | .seq _ first body => do
    let first ← emit ctx first
    let bodyMark := ctx.mark body.span
    let body ← emit ctx body
    return first ++ [.op .drop, bodyMark] ++ body
  | .literal _ (.int value) => return [.op (.i64Const value)]
  | .literal _ (.float value) => return [.op (.f64Const value)]
  | .literal _ (.str text) => return ctx.textCode text
  | .quote _ head holes => do
    let holes ← emitHoles ctx holes
    return ctx.textCode head ++ holes

def emitList (ctx : CodeContext) : List Expr → Except CompileError (List Piece)
  | [] => return []
  | e :: rest => do
    let first ← emit ctx e
    let others ← emitList ctx rest
    return first ++ others

/-- The code that joins the holes of a quote, and the texts behind them, to the text before. -/
def emitHoles (ctx : CodeContext) : List (Expr × String) → Except CompileError (List Piece)
  | [] => return []
  | (hole, text) :: rest => do
    let code ← emit ctx hole
    let concat ← ctx.callInstr hole.span (.builtin .stringConcat)
    let joined := if text.isEmpty then [] else ctx.textCode text ++ [.op concat]
    let others ← emitHoles ctx rest
    return code ++ [.op concat] ++ joined ++ others

end

/-! ### Classes -/

/-- The code of a method with a body. -/
def generateBody (ctx : CodeContext) (method : Method) (body : Expr) :
    Except CompileError MethodCode := do
  let pieces ← emit ctx body
  let pieces := ctx.mark body.span :: pieces ++ [.op .ret, .op .finish]
  return {
    name := method.name
    isStatic := method.isStatic
    params := method.paramTypes
    result := method.returnType
    locals := localTypes body
    code := instrsOf pieces
    lines := lineTable pieces }

/-- What the code of a method of a class depends on. -/
def methodContext (table : ClassTable) (c : Typed.Class) (plan : ImportPlan) (texts : List String)
    (lines : LineIndex) (method : Method) : CodeContext where
  table := table
  owner := c.id
  plan := plan
  texts := texts
  lines := lines
  paramBase := if method.isStatic then 0 else 1
  localBase := (operandTypes method.isStatic method.paramTypes).length

def generateMethod (table : ClassTable) (c : Typed.Class) (plan : ImportPlan) (texts : List String)
    (lines : LineIndex) (method : Method) : Except CompileError MethodCode :=
  match method.body with
  | none => .error ⟨method.span, .notImplemented .uncheckedBodies⟩
  | some body => generateBody (methodContext table c plan texts lines method) method body

/-- A method of another class as an import; none where the table has no such method. -/
def foreignImport? (table : ClassTable) (ref : MethodRef) : Option ForeignImport := do
  let owner ← table.get? ref.owner
  let method ← owner.methods[ref.index]?
  return ⟨owner.path.text, method.name,
    ⟨operandTypes method.isStatic method.paramTypes, valType method.returnType⟩⟩

/-- A method of another class as an import. What a checked body calls is always in the table. -/
def foreignImport (table : ClassTable) (ref : MethodRef) : ForeignImport :=
  (foreignImport? table ref).getD default

/-- The texts of a class, each once. -/
def classTexts (c : Typed.Class) : List String :=
  firsts ((c.methods.filterMap Method.body).flatMap textsOf)

/-- The fields of a class, in cells one behind the other. -/
def classFields (c : Typed.Class) : List Field :=
  c.slots.zipIdx.map fun (slot, index) => ⟨slot.name, slot.ty, index * cellSize⟩

/-- Generates a class of the table; `source` is its text, from which the lines are counted. -/
def generateClass (table : ClassTable) (c : Typed.Class) (source : String) :
    Except CompileError Artifact := do
  let plan := ImportPlan.ofClass c
  let texts := classTexts c
  let lines := LineIndex.ofText source
  let methods ← c.methods.mapM (generateMethod table c plan texts lines)
  return {
    id := c.id
    className := c.name
    moduleName := c.path.text
    fields := classFields c
    methods := methods
    texts := texts
    hostImports := plan.host
    foreignImports := plan.foreign.map (foreignImport table) }

end ClassLang.Code
