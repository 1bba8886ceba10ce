import ClassLang.Proofs.CodeValidity
import ClassLang.Proofs.Runs

/-!
# Generated code follows direct evaluation

The code of an expression pushes a word that stands for the value of the expression, or stops for
the same reason as direct evaluation (`emit_follows`, by induction over the typing of the
expression). From this, calls of methods follow direct evaluation at every depth
(`callFunc_follows`, by induction over the depth). What both rely on is an `Image`: the loaded
classes are those of the table, and the fields of objects hold values of their types.
-/

set_option autoImplicit false

namespace ClassLang.Machine

open List Direct Code Typed

/-! ## Builtin methods -/

variable {b : Builtin} {id : Nat} {name : String} {ty : Ty} {w : Word} {d : Datum}
  {ws locals : List Word} {ds : List Datum}

section Builtins

variable {live : UInt32 → ClassId → Prop} {texts : Texts}

theorem text_of_holds (h : Holds live texts (.prim .string) w d) :
    ∃ handle v, (¬ Exhausted texts → textOf? texts handle = some v) ∧ w = .i32 handle ∧
      d = .text v := by
  cases h with
  | text found => exact ⟨_, _, found, rfl, rfl⟩

/-- The builtins of the host do what direct evaluation says. -/
theorem hostCall_follows (hhost : b.isInline = false)
    (h : HoldAll live texts (b.operands.map .prim) ws ds) :
    Follows (hostCall b ws) texts (builtin b ds)
      fun later d w => Holds live later (.prim b.result) w d := by
  cases b with
  | intPow =>
    rcases h with _ | ⟨⟨a⟩, _ | ⟨⟨b⟩, ⟨⟩⟩⟩
    simp only [hostCall, builtin]
    cases Number.powInt64? a b with
    | none => exact .throw rfl
    | some power => exact .pure (.int power)
  | intParse =>
    have .cons (@Holds.text _ _ handle a found) .nil := h
    refine text_bind_follows found (hostCall_grows .intParse [.i32 handle])
      (e := fun a => builtin .intParse [.text a]) fun a => ?_
    simp only [builtin]
    cases Number.readInt64? (Text.trim a.toList) with
    | none => exact .throw rfl
    | some value => exact .pure (.int value)
  | intMax | intMin =>
    rcases h with _ | ⟨⟨a⟩, _ | ⟨⟨b⟩, ⟨⟩⟩⟩
    exact .pure (.int _)
  | floatParse =>
    have .cons (@Holds.text _ _ handle a found) .nil := h
    refine text_bind_follows found (hostCall_grows .floatParse [.i32 handle])
      (e := fun a => builtin .floatParse [.text a]) fun a => ?_
    simp only [builtin]
    cases Number.readBinary64? (Text.trim a.toList) with
    | none => exact .throw rfl
    | some value => exact .pure (.float value)
  | stringConcat =>
    have .cons (@Holds.text _ _ left a foundA) (.cons (@Holds.text _ _ right b foundB) .nil) := h
    refine text_bind_follows foundA (hostCall_grows .stringConcat [.i32 left, .i32 right])
      (e := fun a => builtin .stringConcat [.text a, .text b]) fun a => ?_
    exact text_bind_follows foundB ((Run.Grows.text right).bind fun _ => .push _)
      (e := fun b => builtin .stringConcat [.text a, .text b])
      fun b => push_follows texts _
  | stringFromInt =>
    rcases h with _ | ⟨⟨a⟩, ⟨⟩⟩
    exact push_follows texts _
  | stringFromFloat =>
    rcases h with _ | ⟨⟨a⟩, ⟨⟩⟩
    exact push_follows texts _
  | stringLength =>
    have .cons (@Holds.text _ _ handle a found) .nil := h
    exact text_bind_follows found (hostCall_grows .stringLength [.i32 handle])
      (e := fun a => builtin .stringLength [.text a]) fun a => .pure (.int _)
  | _ => exact nomatch hhost

/-- The instruction of an integer operation that always has a result. -/
theorem int2_follows (op : Int64 → Int64 → Int64) (locals stack : List Word) (a b : Int64) :
    Follows (Frame.int2 ⟨locals, .i64 b :: .i64 a :: stack⟩ fun a b => pure (op a b)) texts
      (.ok (Datum.int (op a b)))
      fun later d f => ∃ w, f = ⟨locals, w :: stack⟩ ∧ Holds live later (.prim .int) w d :=
  .pure ⟨_, rfl, .int _⟩

/-- The builtins that are instructions do what direct evaluation says. -/
theorem inline_follows {memory : Memory} {c : Loaded} {call : FuncRef → List Word → Run Word}
    {i : Instr} (hi : inlineInstr? b = some i) (h : HoldAll live texts (b.operands.map .prim) ws ds)
    (locals stack : List Word) :
    Follows (step memory c call ⟨locals, ws.reverse ++ stack⟩ i) texts (builtin b ds)
      fun later d f => ∃ w, f = ⟨locals, w :: stack⟩ ∧ Holds live later (.prim b.result) w d := by
  cases b with
  | intAdd =>
    cases hi
    rcases h with _ | ⟨⟨a⟩, _ | ⟨⟨b⟩, ⟨⟩⟩⟩
    exact int2_follows (· + ·) locals stack a b
  | intSub =>
    cases hi
    rcases h with _ | ⟨⟨a⟩, _ | ⟨⟨b⟩, ⟨⟩⟩⟩
    exact int2_follows (· - ·) locals stack a b
  | intMul =>
    cases hi
    rcases h with _ | ⟨⟨a⟩, _ | ⟨⟨b⟩, ⟨⟩⟩⟩
    exact int2_follows (· * ·) locals stack a b
  | intDiv =>
    cases hi
    rcases h with _ | ⟨⟨a⟩, _ | ⟨⟨b⟩, ⟨⟩⟩⟩
    simp only [step, Frame.int2, reverse_cons, reverse_nil, nil_append,
      cons_append, divide, builtin, quotient]
    split
    · exact .throw rfl
    · split
      · exact .throw rfl
      · exact .pure ⟨_, rfl, .int _⟩
  | intFromFloat =>
    cases hi
    rcases h with _ | ⟨⟨a⟩, ⟨⟩⟩
    exact .pure ⟨_, rfl, .int _⟩
  | floatAdd | floatSub | floatMul | floatDiv =>
    cases hi
    rcases h with _ | ⟨⟨a⟩, _ | ⟨⟨b⟩, ⟨⟩⟩⟩
    exact .pure ⟨_, rfl, .float _⟩
  | floatFromInt =>
    cases hi
    rcases h with _ | ⟨⟨a⟩, ⟨⟩⟩
    exact .pure ⟨_, rfl, .float _⟩
  | _ => cases hi

end Builtins

/-! ## Calls -/

/-- The function that a callee is when all classes are loaded at their positions in the table. -/
def FuncRef.ofCallee : Callee → FuncRef
  | .builtin b => .host b
  | .method ref => .method ref.owner ref.index

/-- The types of the values that a call takes: the receiver, if there is one, and the arguments. -/
def operands (owner : Ty) (signature : Signature) : List Ty :=
  if signature.isStatic then signature.params else owner :: signature.params

/-- Methods of the table, run on words that stand for their operands, follow their evaluations.
`base` are texts that are there when they start. -/
def MethodsFollow (live : UInt32 → ClassId → Prop) (base : Texts) (table : ClassTable)
    (call : FuncRef → List Word → Run Word)
    (evalCall : MethodRef → List Datum → Except Trap Datum) : Prop :=
  ∀ (ref : MethodRef) (owner : Ty) (signature : Signature),
    table.Calls (.method ref) owner signature →
    ∀ (texts : Texts) (ws : List Word) (ds : List Datum), Kept base texts →
    HoldAll live texts (operands owner signature) ws ds →
    Follows (call (.method ref.owner ref.index) ws) texts (evalCall ref ds)
      fun later d w => Holds live later signature.result w d

/-- The fields of every object that lives hold values of their types. -/
def CellsHold (live : UInt32 → ClassId → Prop) (store : Store) (table : ClassTable) : Prop :=
  ∀ (handle : UInt32) (id : ClassId) (c : Typed.Class) (index : Nat) (slot : Slot),
    live handle id → table.get? id = some c → c.slots[index]? = some slot →
    ∃ bytes value, store.memory.read? (handle.toNat + index * cellSize)
        (Word.size (valType slot.ty)) = some bytes ∧
      Holds live store.texts slot.ty (Word.ofBytes (valType slot.ty) bytes) value

/-- Where the code of a body of class `owner` runs: the objects that live, what is stored, the
numbers and types with which the code was generated, the loaded class, and the functions that it can
call with the evaluations that these follow. -/
structure Site where
  live : UInt32 → ClassId → Prop
  store : Store
  ctx : CodeContext
  typing : TypingContext
  owner : Typed.Class
  types : CodeTypes
  loaded : Loaded
  call : FuncRef → List Word → Run Word
  evalCall : MethodRef → List Datum → Except Trap Datum

/-- What the code of a body relies on: its numbers fit, the functions and texts of its class are
found under them, the fields of objects hold values of their types, and functions follow direct
evaluation. -/
structure Site.Ready (site : Site) : Prop where
  fits : site.ctx.Fits site.typing site.owner site.types
  types : site.types.functions = site.loaded.artifact.functionTypes
  functions : site.loaded.functions = (functionSpace site.owner).map FuncRef.ofCallee
  texts : ∀ text ∈ site.ctx.texts, ¬ Exhausted site.store.texts → textOf? site.store.texts
    (site.loaded.textsBase + UInt32.ofNat (site.ctx.texts.idxOf text)) = some text
  cells : CellsHold site.live site.store site.typing.table
  receiverFirst : site.typing.isStatic = false → 0 < site.ctx.localBase
  paramsFirst : ∀ (index : Nat) (p : Param), site.typing.params[index]? = some p →
    site.ctx.paramBase + index < site.ctx.localBase
  host : ∀ b args, site.call (.host b) args = hostCall b args
  grows : ∀ ref args, (site.call ref args).Grows
  methods : MethodsFollow site.live site.store.texts site.typing.table site.call site.evalCall

theorem isInline_of_functionSpace {c : Typed.Class} {k : Nat}
    (h : (functionSpace c)[k]? = some (.builtin b)) : b.isInline = false := by
  have hmem := mem_of_getElem? h
  simp only [functionSpace, mem_append, mem_map] at hmem
  rcases hmem with (⟨b', hb, heq⟩ | ⟨ref, _, heq⟩) | ⟨m, _, heq⟩
  · cases heq
    exact (mem_plan_host.1 hb).2
  · cases heq
  · cases heq

theorem operands_length (owner : Ty) (signature : Signature) :
    ((if signature.isStatic then [] else [valType owner]) ++
      signature.params.map valType).length = (operands owner signature).length := by
  unfold operands
  split <;> simp

namespace Site

variable {site : Site} {scope : List LocalVar} {env : Env} {texts texts' : Texts}

variable {span : Span} {i : Instr} {f : Frame} {stack : List Word}

section Calls

variable {callee : Callee} {owner : Ty} {signature : Signature}

/-- The function under a number, run on words that stand for the operands of its callee. -/
theorem Ready.function (ready : site.Ready) {k : Nat}
    (hspace : (functionSpace site.owner)[k]? = some callee)
    (leads : site.typing.table.Calls callee owner signature) (kept : Kept site.store.texts texts)
    (holds : HoldAll site.live texts (operands owner signature) ws ds) :
    Follows (site.call (FuncRef.ofCallee callee) ws) texts
      (applyCallee site.evalCall callee ds)
      fun later d w => Holds site.live later signature.result w d := by
  cases callee with
  | builtin b =>
    cases leads
    rw [FuncRef.ofCallee, ready.host]
    refine hostCall_follows (isInline_of_functionSpace hspace) ?_
    simpa [operands, Builtin.operands, apply_ite (map Ty.prim)] using holds
  | method ref => exact ready.methods ref owner signature leads texts ws ds kept holds

/-- The instruction of a call takes the operands from the stack and leaves the value. -/
theorem Ready.callInstr (ready : site.Ready) (hcalled : callee ∈ called site.owner)
    (leads : site.typing.table.Calls callee owner signature)
    (hi : site.ctx.callInstr span callee = .ok i) (kept : Kept site.store.texts texts)
    (holds : HoldAll site.live texts (operands owner signature) ws ds) (locals stack : List Word) :
    Follows (step site.store.memory site.loaded site.call ⟨locals, ws.reverse ++ stack⟩ i) texts
      (applyCallee site.evalCall callee ds) fun later d f =>
        ∃ w, f = ⟨locals, w :: stack⟩ ∧ Holds site.live later signature.result w d := by
  have fits := ready.fits
  -- the same split as for the types of calls: one instruction, or the number of a function
  rcases callInstr_of_called fits.owner fits.plan fits.found hcalled leads span with
    ⟨b, i', rfl, hinline, hi'⟩ | ⟨k, hk, hspace⟩
  · cases hi.symm.trans hi'
    cases leads
    refine inline_follows hinline ?_ locals stack
    simpa [operands, Builtin.operands, apply_ite (map Ty.prim)] using holds
  cases hi.symm.trans hk
  have hfunction : site.loaded.functions[k]? = some (.ofCallee callee) := by
    rw [ready.functions, getElem?_map, hspace]
    rfl
  have htype := (fits.function hspace).trans (calleeType?_of_calls leads)
  rw [ready.types] at htype
  have hcount : ((if signature.isStatic then [] else [valType owner]) ++
      signature.params.map valType).length = ws.reverse.length := by
    rw [operands_length, length_reverse, holds.length_words]
  -- the operands are exactly what the machine takes for a function of this type
  have henough : ¬ (ws.reverse ++ stack).length < ws.reverse.length := by simp
  simp only [step, hfunction, htype, hcount]
  rw [if_neg henough, take_left, drop_left, reverse_reverse]
  exact (ready.function hspace leads kept holds).map (ready.grows _ _)
    fun later d w _ held => ⟨w, rfl, held⟩

end Calls

/-! ## Frames -/

/-- The locals of a frame stand for what a body refers to: the receiver, the parameters, and the
locals in scope. -/
structure Frames (site : Site) (scope : List LocalVar) (env : Env) (texts : Texts)
    (locals : List Word) : Prop where
  length : locals.length = site.types.locals.length
  receiver : site.typing.isStatic = false → ∃ w d, locals[0]? = some w ∧
    env.receiver? = some d ∧ Holds site.live texts site.typing.ownType w d
  params : ∀ (index : Nat) (p : Param), site.typing.params[index]? = some p →
    ∃ w d, locals[site.ctx.paramBase + index]? = some w ∧ env.params[index]? = some d ∧
      Holds site.live texts p.ty w d
  vars : ∀ v ∈ scope, ∃ w d, locals[site.ctx.localBase + v.id]? = some w ∧
    env.locals.lookup v.id = some d ∧ Holds site.live texts v.ty w d

namespace Frames

theorem later (frames : site.Frames scope env texts locals) (kept : Kept texts texts') :
    site.Frames scope env texts' locals where
  length := frames.length
  receiver present := by
    obtain ⟨w, d, hw, hd, held⟩ := frames.receiver present
    exact ⟨w, d, hw, hd, held.later kept⟩
  params index p hp := by
    obtain ⟨w, d, hw, hd, held⟩ := frames.params index p hp
    exact ⟨w, d, hw, hd, held.later kept⟩
  vars v hv := by
    obtain ⟨w, d, hw, hd, held⟩ := frames.vars v hv
    exact ⟨w, d, hw, hd, held.later kept⟩

/-- Storing the value of a declaration. Receiver and parameters lie before the locals, and the
locals in scope have other numbers. -/
theorem declare (ready : site.Ready) (frames : site.Frames scope env texts locals)
    (held : Holds site.live texts ty w d) (fresh : ∀ v ∈ scope, v.id ≠ id)
    (hid : site.ctx.localBase + id < locals.length) (span : Span) :
    site.Frames (⟨id, name, ty⟩ :: scope) (env.declare (.single span ty id name) d) texts
      (locals.set (site.ctx.localBase + id) w) where
  length := by
    rw [length_set]
    exact frames.length
  receiver present := by
    have hfirst := ready.receiverFirst present
    rw [getElem?_set_ne (by omega)]
    exact frames.receiver present
  params index p hp := by
    have hfirst := ready.paramsFirst index p hp
    rw [getElem?_set_ne (by omega)]
    exact frames.params index p hp
  vars v hv := by
    rcases mem_cons.1 hv with rfl | hold
    · refine ⟨w, d, getElem?_set_self hid, ?_, held⟩
      simp [Env.declare]
    have hne := fresh v hold
    rw [getElem?_set_ne (by omega)]
    obtain ⟨w', d', hw', hd', held'⟩ := frames.vars v hold
    refine ⟨w', d', hw', ?_, held'⟩
    simp only [Env.declare, lookup_cons, beq_eq_false_iff_ne.2 hne]
    exact hd'

/-- Behind the scope of a declaration, everything declared before it is still there. -/
theorem leave
    (frames : site.Frames (⟨id, name, ty⟩ :: scope) (env.declare (.single span ty id name) d)
      texts locals) (fresh : ∀ v ∈ scope, v.id ≠ id) : site.Frames scope env texts locals where
  length := frames.length
  receiver := frames.receiver
  params := frames.params
  vars v hv := by
    obtain ⟨w, d', hw, hd, held⟩ := frames.vars v (mem_cons_of_mem _ hv)
    refine ⟨w, d', hw, ?_, held⟩
    simpa only [Env.declare, lookup_cons, beq_eq_false_iff_ne.2 (fresh v hv)] using hd

end Frames

/-! ## Expressions -/

/-- Runs straight code of a body. -/
def run (site : Site) (code : List Instr) (f : Frame) : Run Frame :=
  code.foldlM (step site.store.memory site.loaded site.call) f

theorem run_append (site : Site) (a b : List Instr) (f : Frame) :
    site.run (a ++ b) f = site.run a f >>= site.run b :=
  foldlM_append

theorem run_one (site : Site) (i : Instr) (f : Frame) :
    site.run [i] f = step site.store.memory site.loaded site.call f i := by
  rw [run, foldlM_cons]
  exact bind_pure _

theorem Ready.run_grows (ready : site.Ready) (code : List Instr) (f : Frame) :
    (site.run code f).Grows :=
  .foldlM (fun f i => step_grows ready.grows f i) code f

/-- The frame after code that has pushed a word for a value. -/
def Pushed (site : Site) (scope : List LocalVar) (env : Env) (stack : List Word) (ty : Ty)
    (texts : Texts) (d : Datum) (f : Frame) : Prop :=
  ∃ w, f.stack = w :: stack ∧ Holds site.live texts ty w d ∧
    site.Frames scope env texts f.locals

/-- The code of an expression pushes a word for the value of the expression. -/
def Simulates (site : Site) (scope : List LocalVar) (e : Expr) : Prop :=
  ∀ pieces, emit site.ctx e = .ok pieces → ∀ texts env f, Kept site.store.texts texts →
    site.Frames scope env texts f.locals →
    Follows (site.run (instrsOf pieces) f) texts (eval site.store site.evalCall env e)
      (site.Pushed scope env f.stack e.ty)

theorem Ready.args_follow (ready : site.Ready) {args : List Expr}
    (h : ∀ arg ∈ args, site.Simulates scope arg) {pieces : List Piece}
    (hemit : emitList site.ctx args = .ok pieces) (kept : Kept site.store.texts texts)
    (frames : site.Frames scope env texts f.locals) :
    Follows (site.run (instrsOf pieces) f) texts
      (evalList site.store site.evalCall env args) fun later ds f' =>
        ∃ ws, f'.stack = ws.reverse ++ f.stack ∧
          HoldAll site.live later (args.map Expr.ty) ws ds ∧
          site.Frames scope env later f'.locals := by
  induction args generalizing pieces texts f with
  | nil =>
    cases hemit
    exact .pure ⟨[], rfl, .nil, frames⟩
  | cons e rest ih =>
    simp only [emitList, Except.bind_eq_ok, Except.pure_eq_ok] at hemit
    obtain ⟨first, hfirst, others, hothers, rfl⟩ := hemit
    obtain ⟨hsim, hrest⟩ := forall_mem_cons.1 h
    rw [instrsOf_append, run_append, evalList]
    refine (hsim first hfirst texts env f kept frames).bind (ready.run_grows _ _)
      (fun _ => ready.run_grows _ _) ?_
    rintro later d f' - kept' ⟨w, hstack, held, frames'⟩
    refine (ih hrest hothers (kept.trans kept') frames').mapValue (ready.run_grows _ _) ?_
    rintro last ds f'' kept'' ⟨ws, hstack', holds, frames''⟩
    refine ⟨w :: ws, ?_, .cons (held.later kept'') holds, frames''⟩
    rw [hstack', hstack, reverse_cons, append_assoc, singleton_append]

/-- The code of a call, behind that of its operands. -/
theorem Ready.call_follows (ready : site.Ready) {callee : Callee}
    (hcalled : callee ∈ called site.owner) {owner : Ty} {signature : Signature}
    (leads : site.typing.table.Calls callee owner signature)
    (hi : site.ctx.callInstr span callee = .ok i) (kept : Kept site.store.texts texts)
    (holds : HoldAll site.live texts (operands owner signature) ws ds)
    (frames : site.Frames scope env texts locals) :
    Follows (site.run [i] ⟨locals, ws.reverse ++ stack⟩) texts
      (applyCallee site.evalCall callee ds)
      (site.Pushed scope env stack signature.result) := by
  rw [run_one]
  refine (ready.callInstr hcalled leads hi kept holds locals stack).mono
    (step_grows ready.grows _ _) ?_
  rintro later d f kept' ⟨w, rfl, held⟩
  exact ⟨w, rfl, held, frames.later kept'⟩

/-- The code of a text pushes a handle for it. -/
theorem Ready.text_follows (ready : site.Ready) {text : String} (hmem : text ∈ site.ctx.texts)
    (kept : Kept site.store.texts texts) (frames : site.Frames scope env texts f.locals) :
    Follows (site.run (instrsOf (site.ctx.textCode text)) f) texts (.ok (.text text))
      (site.Pushed scope env f.stack .string) :=
  .pure ⟨_, rfl, .text fun enough =>
    kept.textOf? (ready.texts text hmem (mt kept.exhausted enough)), frames⟩

/-- Code that certainly pushes a text, before the rest of a run. -/
theorem Ready.text_andThen (ready : site.Ready) {code : List Instr} {text : String}
    (first : Follows (site.run code f) texts (.ok (.text text))
      (site.Pushed scope env stack .string)) {rest : Frame → Run Frame}
    (grows : ∀ f, (rest f).Grows) {β : Type} {e : Except Trap β} {rel : Texts → β → Frame → Prop}
    (second : ∀ later w locals, Kept texts later → Holds site.live later .string w (.text text) →
      site.Frames scope env later locals → Follows (rest ⟨locals, w :: stack⟩) later e rel) :
    Follows (site.run code f >>= rest) texts e rel := by
  change Follows (site.run code f >>= rest) texts
    ((Except.ok (.text text) : Except Trap Datum) >>= fun _ => e) rel
  refine first.bind (ready.run_grows _ _) grows ?_
  rintro later d ⟨locals, _⟩ hd kept ⟨w, rfl, held, frames⟩
  -- where texts are exhausted, the word may stand for any text, so also for this one
  refine second later w locals kept ?_ frames
  obtain ⟨handle, value, found, rfl, rfl⟩ := text_of_holds held
  refine .text fun enough => ?_
  cases Except.ok.inj (hd enough)
  exact found enough

/-- Joining two texts on top of the stack. -/
theorem Ready.concat_follows (ready : site.Ready)
    (hcalled : .builtin .stringConcat ∈ called site.owner)
    (hi : site.ctx.callInstr span (.builtin .stringConcat) = .ok i)
    (kept : Kept site.store.texts texts) {left right : Word} {a b : String}
    (heldLeft : Holds site.live texts .string left (.text a))
    (heldRight : Holds site.live texts .string right (.text b))
    (frames : site.Frames scope env texts locals) :
    Follows (site.run [i] ⟨locals, right :: left :: stack⟩) texts (.ok (.text (a ++ b)))
      (site.Pushed scope env stack .string) := by
  have holds : HoldAll site.live texts [.string, .string] [left, right] [.text a, .text b] :=
    .cons heldLeft (.cons heldRight .nil)
  exact ready.call_follows hcalled (.builtin .stringConcat) hi kept holds frames

/-- Joining the text behind a hole, for which there is no code when it is empty. -/
theorem Ready.behind_follows (ready : site.Ready)
    (hcalled : .builtin .stringConcat ∈ called site.owner)
    (hi : site.ctx.callInstr span (.builtin .stringConcat) = .ok i)
    (kept : Kept site.store.texts texts) {a behind : String}
    (hmem : behind.isEmpty = false → behind ∈ site.ctx.texts)
    (held : Holds site.live texts .string w (.text a))
    (frames : site.Frames scope env texts locals) :
    Follows (site.run (instrsOf (if behind.isEmpty then [] else
        site.ctx.textCode behind ++ [.op i])) ⟨locals, w :: stack⟩) texts
      (.ok (.text (a ++ behind))) (site.Pushed scope env stack .string) := by
  cases hempty : behind.isEmpty with
  | true =>
    rw [String.isEmpty_iff.1 hempty, String.append_empty]
    exact .pure ⟨w, rfl, held, frames⟩
  | false =>
    rw [if_neg (by simp), instrsOf_append, run_append]
    refine ready.text_andThen (ready.text_follows (hmem hempty) kept frames)
      (fun _ => ready.run_grows _ _) fun later right locals' kept' heldRight frames' => ?_
    exact ready.concat_follows hcalled hi (kept.trans kept') (held.later kept') heldRight frames'

/-- The code of the holes of a quote joins them, and the texts behind them, to the text before. -/
theorem Ready.holes_follow (ready : site.Ready)
    (hcalled : .builtin .stringConcat ∈ called site.owner) {holes : List (Expr × String)}
    (hstring : ∀ hole ∈ holes, hole.1.ty = .string)
    (htexts : ∀ hole ∈ holes, hole.2.isEmpty = false → hole.2 ∈ site.ctx.texts)
    (h : ∀ hole ∈ holes, site.Simulates scope hole.1) {pieces : List Piece}
    (hemit : emitHoles site.ctx holes = .ok pieces) (kept : Kept site.store.texts texts)
    {before : String} (held : Holds site.live texts .string w (.text before))
    (frames : site.Frames scope env texts locals) :
    Follows (site.run (instrsOf pieces) ⟨locals, w :: stack⟩) texts
      (evalHoles site.store site.evalCall env before holes)
      fun later text => site.Pushed scope env stack .string later (.text text) := by
  induction holes generalizing pieces texts w before locals with
  | nil =>
    cases hemit
    exact .pure ⟨w, rfl, held, frames⟩
  | cons hole rest ih =>
    obtain ⟨e, behind⟩ := hole
    simp only [emitHoles, Except.bind_eq_ok, Except.pure_eq_ok] at hemit
    obtain ⟨code, hcode, concat, hconcat, others, hothers, rfl⟩ := hemit
    obtain ⟨hsim, hrest⟩ := forall_mem_cons.1 h
    obtain ⟨hty, hstring⟩ := forall_mem_cons.1 hstring
    obtain ⟨htext, htexts⟩ := forall_mem_cons.1 htexts
    have grows := ready.run_grows
    simp only [instrsOf_append, run_append, evalHoles, bind_assoc]
    refine (hsim code hcode texts env ⟨locals, w :: stack⟩ kept frames).bind (grows _ _)
      (fun _ => (grows _ _).bind fun _ => (grows _ _).bind fun _ => grows _ _) ?_
    rintro later d ⟨locals', _⟩ - kept' ⟨right, rfl, heldRight, frames'⟩
    rw [hty] at heldRight
    obtain ⟨handle, a, -, -, rfl⟩ := text_of_holds heldRight
    refine ready.text_andThen (ready.concat_follows hcalled hconcat (kept.trans kept')
      (held.later kept') heldRight frames') (fun _ => (grows _ _).bind fun _ => grows _ _) ?_
    intro later₂ joined locals₂ kept'' heldJoined frames₂
    have kept₂ := (kept.trans kept').trans kept''
    refine ready.text_andThen
      (ready.behind_follows hcalled hconcat kept₂ htext heldJoined frames₂)
      (fun _ => grows _ _) ?_
    intro later₃ whole locals₃ kept₃ heldWhole frames₃
    exact ih hstring htexts hrest hothers (kept₂.trans kept₃) heldWhole frames₃

/-- What the class and the frame of a body have room for: the calls, texts and locals of an
expression. Locals are bound once, and not under the number of a local in scope. -/
structure Covers (site : Site) (scope : List LocalVar) (e : Expr) : Prop where
  calls : callees e ⊆ called site.owner
  texts : textsOf e ⊆ site.ctx.texts
  bound : ∀ b ∈ boundLocals e, site.types.locals[site.ctx.localBase + b.1]? = some b.2
  once : ((boundLocals e).map Prod.fst).Nodup
  fresh : ∀ v ∈ scope, v.id ∉ (boundLocals e).map Prod.fst

namespace Covers

theorem part {e part : Expr} (covers : site.Covers scope e) (hcalls : callees part ⊆ callees e)
    (htexts : textsOf part ⊆ textsOf e)
    (hbound : (boundLocals part).Sublist (boundLocals e)) : site.Covers scope part where
  calls := Subset.trans hcalls covers.calls
  texts := Subset.trans htexts covers.texts
  bound b hb := covers.bound b (hbound.subset hb)
  once := covers.once.sublist (hbound.map Prod.fst)
  fresh v hv hmem := covers.fresh v hv ((hbound.map Prod.fst).subset hmem)

theorem arg {e : Expr} {args : List Expr} (covers : site.Covers scope e)
    (hcalls : calleesList args ⊆ callees e) (htexts : textsList args ⊆ textsOf e)
    (hbound : (boundLocalsList args).Sublist (boundLocals e)) {arg : Expr}
    (harg : arg ∈ args) : site.Covers scope arg := by
  rw [calleesList_eq] at hcalls
  rw [textsList_eq] at htexts
  rw [boundLocalsList_eq] at hbound
  exact covers.part
    (Subset.trans (sublist_flatMap_of_mem callees harg).subset hcalls)
    (Subset.trans (sublist_flatMap_of_mem textsOf harg).subset htexts)
    ((sublist_flatMap_of_mem boundLocals harg).trans hbound)

theorem hole {span : Span} {head : String} {holes : List (Expr × String)}
    (covers : site.Covers scope (.quote span head holes)) {hole : Expr × String}
    (hhole : hole ∈ holes) :
    site.Covers scope hole.1 ∧ (hole.2.isEmpty = false → hole.2 ∈ site.ctx.texts) := by
  have htexts : textsOf hole.1 ++ (if hole.2.isEmpty then [] else [hole.2]) ⊆
      textsOf (.quote span head holes) := by
    rw [textsOf, textsHoles_eq]
    exact subset_cons_of_subset _ (sublist_flatMap_of_mem (fun hole : Expr × String =>
      textsOf hole.1 ++ (if hole.2.isEmpty then [] else [hole.2])) hhole).subset
  obtain ⟨hfirst, hbehind⟩ := append_subset.1 htexts
  refine ⟨covers.part ?_ hfirst ?_, ?_⟩
  · rw [callees, calleesHoles_eq]
    exact subset_cons_of_subset _
      (sublist_flatMap_of_mem (fun hole : Expr × String => callees hole.1) hhole).subset
  · rw [boundLocals, boundLocalsHoles_eq]
    exact sublist_flatMap_of_mem (fun hole : Expr × String => boundLocals hole.1) hhole
  · intro hempty
    exact covers.texts (hbehind (by simp [hempty]))

/-- The value of a declaration, and its body with the declared local in scope. -/
theorem declared {patternSpan : Span} {value body : Expr}
    (covers : site.Covers scope (.letIn span (.single patternSpan ty id name) value body)) :
    (∀ v ∈ scope, v.id ≠ id) ∧ site.Covers scope value ∧
      site.Covers (⟨id, name, ty⟩ :: scope) body := by
  have hbody : site.Covers scope body := by
    refine covers.part (subset_append_right _ _) (subset_append_right _ _) ?_
    rw [boundLocals]
    exact sublist_append_right _ _
  have hvalue : site.Covers scope value := by
    refine covers.part (subset_append_left _ _) (subset_append_left _ _) ?_
    rw [boundLocals]
    exact (sublist_cons_self _ _).trans (sublist_append_left _ _)
  have once := covers.once
  rw [boundLocals, map_append, map_cons, nodup_append] at once
  refine ⟨?_, hvalue, hbody.calls, hbody.texts, hbody.bound, hbody.once, ?_⟩
  · rintro v hv rfl
    exact covers.fresh v hv (by simp [boundLocals])
  · refine forall_mem_cons.2 ⟨?_, hbody.fresh⟩
    intro hmem
    exact once.2.2 id mem_cons_self id hmem rfl

end Covers

/-- Reading a slot from memory. -/
theorem Ready.load_follows (ready : site.Ready) {ref : SlotRef} {c : Typed.Class} {slot : Slot}
    (found : site.typing.table.get? ref.owner = some c) (hslot : c.slots[ref.index]? = some slot)
    (kept : Kept site.store.texts texts)
    (held : Holds site.live texts (.object ref.owner c.name) w d)
    (frames : site.Frames scope env texts locals) :
    Follows (site.run [.load (site.ctx.slotType ref) (ref.index * cellSize)] ⟨locals, w :: stack⟩)
      texts (site.store.slot slot.ty ref.index d) (site.Pushed scope env stack slot.ty) := by
  have htype : site.ctx.slotType ref = valType slot.ty := by
    simp [CodeContext.slotType, ready.fits.table, found, hslot]
  cases held with
  | @object _ _ handle alive =>
    obtain ⟨bytes, value, hbytes, heldValue⟩ := ready.cells _ _ _ _ _ alive found hslot
    rw [run_one, htype]
    simp only [step, hbytes, Store.slot]
    refine .value rfl (fun enough => ?_) ⟨_, rfl, heldValue.later kept, frames⟩
    exact heldValue.decode (mt kept.exhausted enough) _

/-- An expression whose value is dropped, before the body behind it. -/
theorem Ready.seq_follows (ready : site.Ready) {first body : Expr}
    (covers : site.Covers scope (.seq span first body))
    (hfirst : site.Covers scope first → site.Simulates scope first)
    (hbody : site.Covers scope body → site.Simulates scope body) :
    site.Simulates scope (.seq span first body) := by
  intro pieces hemit texts env f kept frames
  simp only [emit, Except.bind_eq_ok, Except.pure_eq_ok] at hemit
  obtain ⟨code, hcode, rest, hrest, rfl⟩ := hemit
  have coversFirst : site.Covers scope first := covers.part (subset_append_left _ _)
    (subset_append_left _ _) (sublist_append_left _ _)
  have coversBody : site.Covers scope body := covers.part (subset_append_right _ _)
    (subset_append_right _ _) (sublist_append_right _ _)
  rw [instrsOf_append, instrsOf_append, append_assoc, run_append, eval]
  refine (hfirst coversFirst code hcode texts env f kept frames).bind (ready.run_grows _ _)
    (fun _ => ready.run_grows _ _) ?_
  rintro later d ⟨locals, _⟩ - kept' ⟨w, rfl, held, frames'⟩
  exact hbody coversBody rest hrest later env ⟨locals, f.stack⟩ (kept.trans kept') frames'

/-- The code of a well-typed expression pushes a word for its value. -/
theorem Ready.emit_follows (ready : site.Ready) {e : Expr} (typed : WellTyped site.typing scope e)
    (covers : site.Covers scope e) : site.Simulates scope e := by
  -- answers the side conditions of every `bind`: no code takes a text away
  have grows := ready.run_grows
  induction typed with
  | @localVar scope span ty id name bound _ =>
    intro pieces hemit texts env f kept frames
    cases hemit
    obtain ⟨w, d, hw, hd, held⟩ := frames.vars _ bound
    change Follows (site.run [.localGet (site.ctx.localBase + id)] f) _ _ _
    simp only [run_one, step, hw, eval, hd, orTrap]
    exact .pure ⟨w, rfl, held, frames⟩
  | @param scope span index p declared _ =>
    intro pieces hemit texts env f kept frames
    cases hemit
    obtain ⟨w, d, hw, hd, held⟩ := frames.params _ _ declared
    change Follows (site.run [.localGet (site.ctx.paramBase + index)] f) _ _ _
    simp only [run_one, step, hw, eval, hd, orTrap]
    exact .pure ⟨w, rfl, held, frames⟩
  | @receiver scope span present _ =>
    intro pieces hemit texts env f kept frames
    cases hemit
    obtain ⟨w, d, hw, hd, held⟩ := frames.receiver present
    change Follows (site.run [.localGet 0] f) _ _ _
    simp only [run_one, step, hw, eval, hd, orTrap]
    exact .pure ⟨w, rfl, held, frames⟩
  | @slot scope span ref target c slot owner found _ hty _ _ ih =>
    intro pieces hemit texts env f kept frames
    obtain ⟨code, hcode, hemit⟩ := Except.bind_eq_ok.1 hemit
    cases hemit
    have covered : site.Covers scope target :=
      covers.part (Subset.refl _) (Subset.refl _) (Sublist.refl _)
    rw [instrsOf_append, run_append, eval]
    refine (ih covered code hcode texts env f kept frames).bind (grows _ _)
      (fun _ => grows _ _) ?_
    rintro later d ⟨locals, _⟩ - kept' ⟨w, rfl, held, frames'⟩
    rw [hty] at held
    exact ready.load_follows owner found (kept.trans kept') held frames'
  | @methodCall scope span callee target args signature leads hstatic hparams _ _ _ ih ihArgs =>
    intro pieces hemit texts env f kept frames
    simp only [emit, Except.bind_eq_ok, Except.pure_eq_ok] at hemit
    obtain ⟨code, hcode, argCode, hargCode, call, hcall, rfl⟩ := hemit
    have covered : site.Covers scope target := covers.part
      (Subset.trans (subset_cons_self _ _) (subset_append_left _ _))
      (subset_append_left _ _) (sublist_append_left _ _)
    have hargs : ∀ arg ∈ args, site.Simulates scope arg := fun arg harg =>
      ihArgs arg harg (covers.arg (subset_append_right _ _) (subset_append_right _ _)
        (sublist_append_right _ _) harg)
    have hcalled : callee ∈ called site.owner :=
      covers.calls (mem_append_left _ mem_cons_self)
    simp only [instrsOf_append, run_append, bind_assoc, eval]
    refine (ih covered code hcode texts env f kept frames).bind (grows _ _)
      (fun _ => (grows _ _).bind fun _ => grows _ _) ?_
    rintro later d ⟨locals, _⟩ - kept₁ ⟨w, rfl, held, frames₁⟩
    refine (ready.args_follow hargs hargCode (kept.trans kept₁) frames₁).bind (grows _ _)
      (fun _ => grows _ _) ?_
    rintro later' ds ⟨locals', _⟩ - kept₂ ⟨ws, rfl, holds, frames₂⟩
    have holdsAll : HoldAll site.live later' (operands target.ty signature) (w :: ws)
        (d :: ds) := by
      rw [operands, hstatic, ← hparams]
      exact .cons (held.later kept₂) holds
    -- the receiver lies below the arguments: it is the first of the operands
    have hstack : ws.reverse ++ w :: f.stack = (w :: ws).reverse ++ f.stack := by simp
    change Follows (site.run [call] ⟨locals', ws.reverse ++ w :: f.stack⟩) _ _ _
    rw [hstack]
    exact ready.call_follows hcalled leads hcall ((kept.trans kept₁).trans kept₂) holdsAll frames₂
  | @staticCall scope span callee args owner signature leads hstatic hparams _ _ ihArgs =>
    intro pieces hemit texts env f kept frames
    simp only [emit, Except.bind_eq_ok, Except.pure_eq_ok] at hemit
    obtain ⟨argCode, hargCode, call, hcall, rfl⟩ := hemit
    have hargs : ∀ arg ∈ args, site.Simulates scope arg := fun arg harg =>
      ihArgs arg harg (covers.arg (subset_cons_self _ _) (Subset.refl _)
        (Sublist.refl _) harg)
    have hcalled : callee ∈ called site.owner := covers.calls mem_cons_self
    rw [instrsOf_append, run_append, eval]
    refine (ready.args_follow hargs hargCode kept frames).bind (grows _ _) (fun _ => grows _ _) ?_
    rintro later ds ⟨locals, _⟩ - kept' ⟨ws, rfl, holds, frames'⟩
    have holdsAll : HoldAll site.live later (operands owner signature) ws ds := by
      rw [operands, hstatic, ← hparams]
      exact holds
    exact ready.call_follows hcalled leads hcall (kept.trans kept') holdsAll frames'
  | @letSingle scope span patternSpan id name value body _ _ _ ih ihBody =>
    intro pieces hemit texts env f kept frames
    simp only [emit, Except.bind_eq_ok, Except.pure_eq_ok] at hemit
    obtain ⟨code, hcode, rest, hrest, rfl⟩ := hemit
    obtain ⟨fresh, coversValue, coversBody⟩ := covers.declared
    have hid := covers.bound (id, valType value.ty) (by simp [boundLocals])
    simp only [instrsOf_append, run_append, bind_assoc, eval]
    refine (ih coversValue code hcode texts env f kept frames).bind (grows _ _)
      (fun _ => (grows _ _).bind fun _ => grows _ _) ?_
    rintro later d ⟨locals, _⟩ - kept' ⟨w, rfl, held, frames'⟩
    have hlt : site.ctx.localBase + id < locals.length := by
      rw [frames'.length]
      exact (List.getElem?_eq_some_iff.1 hid).1
    -- the mark of a line is no instruction, so this is one step
    have hstore : site.run (instrsOf [.op (.localSet (site.ctx.localBase + id)),
        site.ctx.mark body.span]) ⟨locals, w :: f.stack⟩ =
        pure ⟨locals.set (site.ctx.localBase + id) w, f.stack⟩ := by
      change site.run [.localSet (site.ctx.localBase + id)] _ = _
      rw [run_one]
      exact if_pos hlt
    rw [hstore, pure_bind]
    -- behind the body, the local is out of scope again
    refine (ihBody coversBody rest hrest later _ _ (kept.trans kept')
      (frames'.declare ready held fresh hlt patternSpan)).mono (grows _ _) ?_
    rintro later' d' f' _ ⟨w', hstack, held', frames''⟩
    exact ⟨w', hstack, held', frames''.leave fresh⟩
  | @letIgnore scope span patternSpan value body _ _ ih ihBody =>
    -- the value is dropped, as that of an expression is
    have covers : site.Covers scope (.seq span value body) :=
      ⟨covers.calls, covers.texts, covers.bound, covers.once, covers.fresh⟩
    exact ready.seq_follows covers ih ihBody
  | seq _ _ ih ihBody => exact ready.seq_follows covers ih ihBody
  | @literal scope span value =>
    intro pieces hemit texts env f kept frames
    cases value with
    | int v =>
      cases hemit
      exact .pure ⟨_, rfl, .int v, frames⟩
    | float v =>
      cases hemit
      exact .pure ⟨_, rfl, .float v, frames⟩
    | str text =>
      cases hemit
      exact ready.text_follows (covers.texts mem_cons_self) kept frames
  | @quote scope span head holes hstring _ ih =>
    intro pieces hemit texts env f kept frames
    obtain ⟨code, hcode, hemit⟩ := Except.bind_eq_ok.1 hemit
    cases hemit
    rw [instrsOf_append, run_append, eval]
    refine ready.text_andThen (ready.text_follows (covers.texts mem_cons_self) kept frames)
      (fun _ => grows _ _) fun later w locals kept' held frames' => ?_
    refine (ready.holes_follow (covers.calls mem_cons_self) hstring
      (fun hole hhole => (covers.hole hhole).2)
      (fun hole hhole => ih hole hhole (covers.hole hhole).1) hcode (kept.trans kept') held
      frames').mapValue (grows _ _) ?_
    intro later' text f' _ pushed
    exact pushed

end Site

/-! ## Methods -/

/-- A loaded class of the table: its code was generated in a table that has at most grown since, its
functions are those that their numbers stand for, and its texts are in place, as long as they have
handles. -/
structure Linked (table : ClassTable) (id : ClassId) (c : Typed.Class) (loaded : Loaded)
    (texts : Texts) : Prop where
  generated : ∃ (small : ClassTable) (source : String), small.Extends table ∧
    small.get? id = some c ∧ ClassTyped small id c ∧
    generateClass small c source = .ok loaded.artifact
  functions : loaded.functions = (functionSpace c).map FuncRef.ofCallee
  texts : ∀ (k : Nat) (text : String), loaded.artifact.texts[k]? = some text →
    ¬ Exhausted texts → textOf? texts (loaded.textsBase + UInt32.ofNat k) = some text

/-- The classes of the table are loaded at their positions, and the fields of every object that
lives hold values of their types. -/
structure Image (table : ClassTable) (classes : List Loaded) (store : Store)
    (live : UInt32 → ClassId → Prop) : Prop where
  linked : ∀ (id : ClassId) (c : Typed.Class), table.get? id = some c →
    ∃ loaded, classes[id]? = some loaded ∧ Linked table id c loaded store.texts
  cells : CellsHold live store table

section Methods

variable {table : ClassTable} {classes : List Loaded} {store : Store}
  {live : UInt32 → ClassId → Prop}

/-- Where the body of a method runs. -/
def methodSite (table : ClassTable) (classes : List Loaded) (store : Store)
    (live : UInt32 → ClassId → Prop) (depth : Nat) (small : ClassTable) (source : String)
    (c : Typed.Class) (m : Method) (body : Expr) (loaded : Loaded) : Site where
  live := live
  store := store
  ctx := methodContext small c (.ofClass c) (classTexts c) (.ofText source) m
  typing := ⟨small, c.ty, m.isStatic, m.params⟩
  owner := c
  types := ⟨loaded.artifact.functionTypes,
    operandTypes m.isStatic m.paramTypes ++ localTypes body⟩
  loaded := loaded
  call := callFunc store.memory classes depth
  evalCall := evalMethod table store depth

variable {depth : Nat} {c : Typed.Class} {small : ClassTable} {source : String} {loaded : Loaded}
  {m : Method}

theorem methodSite_ready (image : Image table classes store live)
    (methods : MethodsFollow live store.texts table (callFunc store.memory classes depth)
      (evalMethod table store depth)) (grown : small.Extends table)
    (hc : small.get? c.id = some c) (typed : ClassTyped small c.id c)
    (generated : generateClass small c source = .ok loaded.artifact)
    (linked : Linked table c.id c loaded store.texts) (m : Method) (body : Expr) :
    (methodSite table classes store live depth small source c m body loaded).Ready where
  fits := methodContext_fits hc (functionTypes_eq typed hc generated) _ _ m
  types := rfl
  functions := linked.functions
  texts text hmem := by
    refine linked.texts _ text ?_
    rw [(generateClass_eq_ok generated).2]
    exact getElem?_idxOf hmem
  cells handle id d index slot alive hd hslot := by
    -- the class has its slots in the larger table as well
    obtain ⟨d', hd', same⟩ := grown id d hd
    rw [← same.slots] at hslot
    exact image.cells handle id d' index slot alive hd' hslot
  receiverFirst hstatic := by
    change m.isStatic = false at hstatic
    simp [methodSite, methodContext, operandTypes_eq, hstatic]
  paramsFirst index p hp := by
    change m.params[index]? = some p at hp
    have hlt := (List.getElem?_eq_some_iff.1 hp).1
    simp only [methodSite, methodContext, operandTypes_eq, length_append,
      length_map, Method.paramTypes]
    split
    · simpa using hlt
    · simpa using hlt
  host b args := by cases depth <;> rfl
  grows := callFunc_grows _ _ _
  methods ref owner signature leads := methods ref owner signature (grown.calls leads)

theorem methodSite_covers (hm : m ∈ c.methods) {body : Expr} (hbody : m.body = some body)
    (once : ((boundLocals body).map Prod.fst).Nodup) (loaded : Loaded) :
    (methodSite table classes store live depth small source c m body loaded).Covers [] body where
  calls _ hcallee := mem_called hm hbody hcallee
  texts _ htext :=
    mem_firsts.2 (mem_flatMap.2 ⟨body, mem_filterMap.2 ⟨m, hm, hbody⟩, htext⟩)
  bound _ hb := localTypes_behind_operands once hb
  once := once
  fresh _ hv := nomatch hv

theorem HoldAll.param {texts : Texts} {m : Method} (holds : HoldAll live texts m.paramTypes ws ds)
    {index : Nat} {p : Param} (hp : m.params[index]? = some p) (behind : List Word) :
    ∃ w d, (ws ++ behind)[index]? = some w ∧ ds[index]? = some d ∧ Holds live texts p.ty w d := by
  have hty : m.paramTypes[index]? = some p.ty := by simp [Method.paramTypes, hp]
  obtain ⟨w, d, hw, hd, held⟩ := holds.getElem? hty
  refine ⟨w, d, ?_, hd, held⟩
  rw [getElem?_append_left (List.getElem?_eq_some_iff.1 hw).1]
  exact hw

/-- The frame with which a method starts. -/
theorem methodSite_frames {body : Expr} {texts : Texts}
    (holds : HoldAll live texts (operands c.ty m.signature) ws ds) :
    (methodSite table classes store live depth small source c m body loaded).Frames []
      (.ofArgs m.isStatic ds) texts (ws ++ (localTypes body).map Word.zero) := by
  have hlength : (ws ++ (localTypes body).map Word.zero).length =
      (operandTypes m.isStatic m.paramTypes ++ localTypes body).length := by
    have hoperands := operands_length c.ty m.signature
    rw [length_append, length_append, length_map, holds.length_words,
      ← hoperands, operandTypes_eq]
    rfl
  cases hstatic : m.isStatic with
  | true =>
    -- the parameters come first
    have hoperands : operands c.ty m.signature = m.paramTypes := by
      simp [operands, Method.signature, hstatic]
    rw [hoperands] at holds
    refine ⟨hlength, ?_, ?_, fun _ hv => nomatch hv⟩
    · intro present
      exact nomatch hstatic.symm.trans present
    · intro index p hp
      have hbase : (methodSite table classes store live depth small source c m body
          loaded).ctx.paramBase = 0 := by
        simp [methodSite, methodContext, hstatic]
      rw [hbase, Nat.zero_add]
      exact holds.param hp _
  | false =>
    -- the parameters come behind the receiver
    have hoperands : operands c.ty m.signature = c.ty :: m.paramTypes := by
      simp [operands, Method.signature, hstatic]
    rw [hoperands] at holds
    cases holds with
    | cons first rest =>
      refine ⟨hlength, fun _ => ⟨_, _, rfl, rfl, first⟩, ?_, fun _ hv => nomatch hv⟩
      intro index p hp
      have hbase : (methodSite table classes store live depth small source c m body
          loaded).ctx.paramBase = 1 := by
        simp [methodSite, methodContext, hstatic]
      rw [hbase, Nat.add_comm, cons_append, getElem?_cons_succ]
      exact rest.param hp _

theorem straight_of_ne_end {code : List Instr} (h : ∀ i ∈ code, i ≠ .ret ∧ i ≠ .finish) :
    straight (code ++ [.ret, .finish]) = code := by
  unfold straight
  rw [takeWhile_append_of_pos]
  · simp
  · intro i hi
    exact decide_eq_true (h i hi)

/-- The code of a method follows its body when the methods that it calls follow theirs. -/
theorem exec_follows (image : Image table classes store live)
    (methods : MethodsFollow live store.texts table (callFunc store.memory classes depth)
      (evalMethod table store depth)) (linked : Linked table c.id c loaded store.texts)
    {index : Nat} (hm : c.methods[index]? = some m) :
    ∃ code body, loaded.artifact.methods[index]? = some code ∧ m.body = some body ∧
      ∀ texts ws ds, Kept store.texts texts →
      HoldAll live texts (operands c.ty m.signature) ws ds →
      Follows (exec store.memory loaded (callFunc store.memory classes depth) code.code
        (MethodCode.start code ws)) texts
        (eval store (evalMethod table store depth) (.ofArgs m.isStatic ds) body)
        fun later d w => Holds live later m.returnType w d := by
  obtain ⟨small, source, grown, hsmall, typed, generated⟩ := linked.generated
  obtain ⟨code, hcode, hmethod⟩ :=
    forall₂_getElem?_left (generateClass_eq_ok generated).1 hm
  have hmem := mem_of_getElem? hm
  obtain ⟨body, pieces, hbody, once, hpieces, typedCode⟩ := emit_method typed hsmall
    (functionTypes_eq typed hsmall generated) (.ofText source) hmem
  obtain ⟨body', pieces', hbody', hpieces', -, -, -, -, hlocals, hinstrs⟩ :=
    generateMethod_eq_ok hmethod
  cases hbody.symm.trans hbody'
  cases hpieces.symm.trans hpieces'
  refine ⟨code, body, hcode, hbody, ?_⟩
  intro texts ws ds kept holds
  obtain ⟨body', hbody', hty, hwell, -⟩ := (typed.methods m hmem).body
  cases hbody.symm.trans hbody'
  have ready := methodSite_ready image methods grown hsmall typed generated linked m body
  have hfollows := ready.emit_follows hwell (methodSite_covers hmem hbody once loaded) pieces
    hpieces texts (.ofArgs m.isStatic ds) (MethodCode.start code ws) kept
    (by rw [MethodCode.start, hlocals]; exact methodSite_frames holds)
  rw [exec, hinstrs, straight_of_ne_end (ne_end_of_stackStep (typedCode.stack [])),
    ← bind_pure (eval _ _ _ _)]
  refine hfollows.bind (ready.run_grows _ _) result_grows ?_
  rintro later d f - kept' ⟨w, hstack, held, -⟩
  rw [Frame.result, hstack]
  rw [hty] at held
  exact .pure held

/-- Methods follow their evaluations, at every depth of calls. -/
theorem callFunc_follows (image : Image table classes store live) (depth : Nat) :
    MethodsFollow live store.texts table (callFunc store.memory classes depth)
      (evalMethod table store depth) := by
  induction depth with
  | zero =>
    -- no call is left, so both sides stop
    intro ref owner signature leads texts ws ds kept holds
    exact .throw rfl
  | succ depth ih =>
    rintro ⟨id, index, name⟩ owner signature leads texts ws ds kept holds
    cases leads with
    | @method _ c m hc hfound hname =>
      obtain ⟨loaded, hloaded, linked⟩ := image.linked id c hc
      obtain ⟨small, source, -, -, typed, -⟩ := linked.generated
      obtain rfl : c.id = id := typed.id_eq
      obtain ⟨code, body, hcode, hbody, hexec⟩ := exec_follows image ih linked hfound
      simp only [callFunc, hloaded, hcode, evalMethod, hc, Option.bind_some, hfound,
        hbody]
      exact hexec texts ws ds kept holds

end Methods

end ClassLang.Machine
