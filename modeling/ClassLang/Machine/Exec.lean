import ClassLang.Code.Artifact
import ClassLang.Machine.Host
import ClassLang.Machine.Memory

/-!
# Running code

The stack machine. Code has no jumps, so running it follows the list of instructions; only a call
leads elsewhere, and the depth of calls is bounded. Code reads the memory and never writes it.
-/

set_option autoImplicit false

namespace ClassLang.Machine

open Code (Instr Artifact MethodCode)

/-- What the number of a function stands for: a builtin of the host, or a method of a loaded
class. -/
inductive FuncRef where
  | host (builtin : Builtin)
  | method (instanceIndex methodIndex : Nat)
deriving DecidableEq, Inhabited

/-- A loaded class: its functions by their number, and the handle of its first text. -/
structure Loaded where
  artifact : Artifact
  functions : List FuncRef
  textsBase : UInt32
deriving DecidableEq, Inhabited

/-- The values that a method has: its arguments and locals, and the stack, the top first. -/
structure Frame where
  locals : List Word
  stack : List Word
deriving DecidableEq, Inhabited

namespace Frame

def push (f : Frame) (w : Word) : Frame := { f with stack := w :: f.stack }

/-- Replaces the two topmost integers by the result of an operation. -/
def int2 (f : Frame) (op : Int64 → Int64 → Run Int64) : Run Frame :=
  match f.stack with
  | .i64 b :: .i64 a :: rest => do
    let r ← op a b
    return { f with stack := .i64 r :: rest }
  | _ => throw .malformed

/-- Replaces the two topmost floating-point numbers by the result of an operation. -/
def float2 (f : Frame) (op : Binary64 → Binary64 → Binary64) : Run Frame :=
  match f.stack with
  | .f64 b :: .f64 a :: rest => return { f with stack := .f64 (op a b) :: rest }
  | _ => throw .malformed

end Frame

/-- Division toward zero, which has no result by zero or where the quotient does not fit. -/
def divide (a b : Int64) : Run Int64 :=
  if b = 0 then throw .divisionByZero
  else if a = Int64.minValue ∧ b = -1 then throw .integerOverflow
  else return a / b

/-- Runs one instruction other than those that end a method. `call` runs a function. -/
def step (memory : Memory) (c : Loaded) (call : FuncRef → List Word → Run Word) (f : Frame)
    (instr : Instr) : Run Frame :=
  match instr with
  | .localGet index =>
    match f.locals[index]? with
    | some w => return f.push w
    | none => throw .malformed
  | .localSet index =>
    match f.stack with
    | w :: rest =>
      if index < f.locals.length then return ⟨f.locals.set index w, rest⟩ else throw .malformed
    | [] => throw .malformed
  | .globalGet index => if index = 0 then return f.push (.i32 c.textsBase) else throw .malformed
  | .call index =>
    match c.functions[index]?, c.artifact.functionTypes[index]? with
    | some ref, some type => do
      let count := type.params.length
      if f.stack.length < count then throw .malformed
      else
        let result ← call ref (f.stack.take count).reverse
        return { f with stack := result :: f.stack.drop count }
    | _, _ => throw .malformed
  | .i32Const value => return f.push (.i32 value)
  | .i64Const value => return f.push (.i64 value)
  | .f64Const value => return f.push (.f64 value)
  | .load ty offset =>
    match f.stack with
    | .i32 address :: rest =>
      match memory.read? (address.toNat + offset) (Word.size ty) with
      | some bytes => return { f with stack := Word.ofBytes ty bytes :: rest }
      | none => throw .outOfBounds
    | _ => throw .malformed
  | .drop =>
    match f.stack with
    | _ :: rest => return { f with stack := rest }
    | [] => throw .malformed
  | .i32Add =>
    match f.stack with
    | .i32 b :: .i32 a :: rest => return { f with stack := .i32 (a + b) :: rest }
    | _ => throw .malformed
  | .i64Add => f.int2 fun a b => return a + b
  | .i64Sub => f.int2 fun a b => return a - b
  | .i64Mul => f.int2 fun a b => return a * b
  | .i64Div => f.int2 divide
  | .i64OfF64 =>
    match f.stack with
    | .f64 x :: rest => return { f with stack := .i64 x.toInt64 :: rest }
    | _ => throw .malformed
  | .f64Add => f.float2 Binary64.add
  | .f64Sub => f.float2 Binary64.sub
  | .f64Mul => f.float2 Binary64.mul
  | .f64Div => f.float2 Binary64.div
  | .f64OfI64 =>
    match f.stack with
    | .i64 v :: rest => return { f with stack := .f64 (Binary64.ofInt64 v) :: rest }
    | _ => throw .malformed
  | .ret => throw .malformed
  | .finish => throw .malformed

/-- The result of a method: the top of its stack. -/
def Frame.result (f : Frame) : Run Word :=
  match f.stack with
  | w :: _ => return w
  | [] => throw .malformed

/-- The instructions before the first that ends a method. -/
def straight (code : List Instr) : List Instr := code.takeWhile fun i => i ≠ .ret ∧ i ≠ .finish

/-- Runs the instructions of a method up to its end. -/
def exec (memory : Memory) (c : Loaded) (call : FuncRef → List Word → Run Word)
    (code : List Instr) (f : Frame) : Run Word := do
  let f ← (straight code).foldlM (step memory c call) f
  f.result

/-- The frame with which a method starts. -/
def MethodCode.start (m : MethodCode) (args : List Word) : Frame :=
  ⟨args ++ m.locals.map Word.zero, []⟩

/-- Runs a function of the loaded classes, with at most `depth` methods inside each other. -/
def callFunc (memory : Memory) (classes : List Loaded) :
    (depth : Nat) → FuncRef → List Word → Run Word
  | _, .host b, args => hostCall b args
  | 0, .method _ _, _ => throw .callStackExhausted
  | depth + 1, .method classIndex methodIndex, args =>
    match classes[classIndex]? with
    | none => throw .malformed
    | some c =>
      match c.artifact.methods[methodIndex]? with
      | none => throw .malformed
      | some m => exec memory c (callFunc memory classes depth) m.code (MethodCode.start m args)

/-- How many methods can be inside each other. -/
def maxDepth : Nat := 1000

end ClassLang.Machine
