import ClassLang.Machine.Exec
import ClassLang.Typed.ClassTable

/-!
# Direct evaluation

The meaning of typed bodies without code: call by value, from left to right, over values that hold
their texts by content. Slots are read from the memory of objects, locals and parameters are looked
up by their numbers, and a quote joins its texts and holes in order. As in the machine, calls of
methods inside each other are bounded.

`malformed` stands for what no well-typed body does.
-/

set_option autoImplicit false

namespace ClassLang.Direct

open Code (valType cellSize)
open Machine (Trap Memory Texts Word textOf?)
open Typed (Expr Callee MethodRef ClassTable)

/-- A value. Objects are known by their handle. -/
inductive Datum where
  | int (value : Int64)
  | float (value : Binary64)
  | text (value : String)
  | object (handle : UInt32)
deriving DecidableEq, Inhabited

/-- The value that a literal stands for. -/
def ofLiteral : Literal → Datum
  | .int value => .int value
  | .float value => .float value
  | .str value => .text value

/-- What evaluation finds when it starts: the memory of objects, and the texts that their fields
refer to. -/
structure Store where
  memory : Memory
  texts : Texts

namespace Store

/-- The value of a type that a word in memory stands for. -/
def decode (store : Store) (ty : Ty) (w : Word) : Except Trap Datum :=
  match ty, w with
  | .prim .int, .i64 value => .ok (.int value)
  | .prim .float, .f64 value => .ok (.float value)
  | .prim .string, .i32 handle =>
    match textOf? store.texts handle with
    | some text => .ok (.text text)
    | none => .error (.invalidText handle)
  | .object _ _, .i32 handle => .ok (.object handle)
  | _, _ => .error .malformed

/-- The slot at a position, which has the type `ty`, of an object. -/
def slot (store : Store) (ty : Ty) (index : Nat) (target : Datum) : Except Trap Datum :=
  match target with
  | .object handle =>
    match store.memory.read? (handle.toNat + index * cellSize) (Word.size (valType ty)) with
    | some bytes => store.decode ty (Word.ofBytes (valType ty) bytes)
    | none => .error .outOfBounds
  | _ => .error .malformed

end Store

/-- Division toward zero, which has no result by zero or where the quotient does not fit. -/
def quotient (a b : Int64) : Except Trap Datum :=
  if b = 0 then .error .divisionByZero
  else if a = Int64.minValue ∧ b = -1 then .error .integerOverflow
  else .ok (.int (a / b))

/-- A value, or the trap for want of one. -/
def orTrap (value? : Option Datum) (trap : Trap) : Except Trap Datum :=
  match value? with
  | some value => .ok value
  | none => .error trap

/-- What a builtin method gives, for the receiver, if it has one, and its arguments. -/
def builtin (b : Builtin) (args : List Datum) : Except Trap Datum :=
  match b, args with
  | .intAdd, [.int a, .int b] => .ok (.int (a + b))
  | .intSub, [.int a, .int b] => .ok (.int (a - b))
  | .intMul, [.int a, .int b] => .ok (.int (a * b))
  | .intDiv, [.int a, .int b] => quotient a b
  | .intPow, [.int a, .int b] => orTrap ((Number.powInt64? a b).map .int) (.powerOutOfRange a b)
  | .intParse, [.text a] =>
    orTrap ((Number.readInt64? (Text.trim a.toList)).map .int) (.unreadable a .int)
  | .intMax, [.int a, .int b] => .ok (.int (if a ≤ b then b else a))
  | .intMin, [.int a, .int b] => .ok (.int (if a ≤ b then a else b))
  | .intFromFloat, [.float a] => .ok (.int a.toInt64)
  | .floatAdd, [.float a, .float b] => .ok (.float (a.add b))
  | .floatSub, [.float a, .float b] => .ok (.float (a.sub b))
  | .floatMul, [.float a, .float b] => .ok (.float (a.mul b))
  | .floatDiv, [.float a, .float b] => .ok (.float (a.div b))
  | .floatParse, [.text a] =>
    orTrap ((Number.readBinary64? (Text.trim a.toList)).map .float) (.unreadable a .float)
  | .floatFromInt, [.int a] => .ok (.float (.ofInt64 a))
  | .stringConcat, [.text a, .text b] => .ok (.text (a ++ b))
  | .stringFromInt, [.int a] => .ok (.text (Number.intText a.toInt))
  | .stringFromFloat, [.float a] => .ok (.text a.text)
  | .stringLength, [.text a] => .ok (.int (Int64.ofNat a.length))
  | _, _ => .error .malformed

/-- What a body refers to: the receiver of an instance method, the parameters, and the locals by
their numbers, the last bound first. -/
structure Env where
  receiver? : Option Datum
  params : List Datum
  locals : List (Nat × Datum)

namespace Env

/-- What the body of a method starts with. Instance methods take the receiver first. -/
def ofArgs (isStatic : Bool) (args : List Datum) : Env :=
  if isStatic then ⟨none, args, []⟩ else ⟨args.head?, args.tail, []⟩

/-- The environment behind a declaration. -/
def declare (env : Env) (pattern : Typed.Pattern) (value : Datum) : Env :=
  match pattern with
  | .single _ _ id _ => { env with locals := (id, value) :: env.locals }
  | .ignore _ => env

end Env

/-- What a call gives; `call` runs the methods of classes. -/
def applyCallee (call : MethodRef → List Datum → Except Trap Datum) (callee : Callee)
    (args : List Datum) : Except Trap Datum :=
  match callee with
  | .builtin b => builtin b args
  | .method ref => call ref args

section Expressions

variable (store : Store) (call : MethodRef → List Datum → Except Trap Datum)

mutual

/-- The value of an expression. -/
def eval (env : Env) : Expr → Except Trap Datum
  | .localVar _ _ id _ => orTrap (env.locals.lookup id) .malformed
  | .param _ _ index _ => orTrap env.params[index]? .malformed
  | .receiver _ _ => orTrap env.receiver? .malformed
  | .slot _ ty ref target => do
    let object ← eval env target
    store.slot ty ref.index object
  | .methodCall _ _ callee target args => do
    let receiver ← eval env target
    let values ← evalList env args
    applyCallee call callee (receiver :: values)
  | .staticCall _ _ callee args => do
    let values ← evalList env args
    applyCallee call callee values
  | .letIn _ pattern value body => do
    let bound ← eval env value
    eval (env.declare pattern bound) body
  | .seq _ first body => do
    let _ ← eval env first
    eval env body
  | .literal _ value => .ok (ofLiteral value)
  | .quote _ head holes => do
    let text ← evalHoles env head holes
    return .text text

/-- The values of arguments, in order. -/
def evalList (env : Env) : List Expr → Except Trap (List Datum)
  | [] => .ok []
  | e :: rest => do
    let first ← eval env e
    let others ← evalList env rest
    return first :: others

/-- The text of a quote, of which `before` is already there. -/
def evalHoles (env : Env) (before : String) : List (Expr × String) → Except Trap String
  | [] => .ok before
  | (hole, behind) :: rest => do
    match ← eval env hole with
    | .text text => evalHoles env (before ++ text ++ behind) rest
    | _ => .error .malformed

end

end Expressions

/-- The value of a method of the table, with at most `depth` methods inside each other. -/
def evalMethod (table : ClassTable) (store : Store) :
    (depth : Nat) → MethodRef → List Datum → Except Trap Datum
  | 0, _, _ => .error .callStackExhausted
  | depth + 1, ref, args =>
    match (table.get? ref.owner).bind fun c => c.methods[ref.index]? with
    | none => .error .malformed
    | some m =>
      match m.body with
      | none => .error .malformed
      | some body => eval store (evalMethod table store depth) (.ofArgs m.isStatic args) body

end ClassLang.Direct
