import ClassLang.Proofs.CheckerSoundness

/-!
# Validity of generated code

The stack typing rules of the machine, and the proof that generated code obeys them. `stackStep` is
the rule for one instruction. The code of a well-typed expression pushes one value of its type and
touches nothing below (`emit_typed`), so every method of a checked class leads from the empty stack
to its result. The main statement is `generateClass_valid`.
-/

set_option autoImplicit false

namespace ClassLang.Code

open List Typed
open Typed (Expr Callee MethodRef ClassTable Method TypingContext LocalVar WellTyped)

/-! ## Stack typing -/

/-- The types that the code of a method refers to by number: those of the functions, and those of
its parameters and locals. -/
structure CodeTypes where
  functions : List FuncType
  locals : List ValType

/-- A function takes its parameters from the stack, the last one from the top, and leaves its
result. -/
def FuncType.onStack? (type : FuncType) (stack : List ValType) : Option (List ValType) :=
  if type.params.reverse.isPrefixOf stack then some (type.result :: stack.drop type.params.length)
  else none

/-- The type of an instruction whose operands depend on neither the stack nor a number. -/
def Instr.type? : Instr → Option FuncType
  | .globalGet index => if index = 0 then some ⟨[], .i32⟩ else none
  | .i32Const _ => some ⟨[], .i32⟩
  | .i64Const _ => some ⟨[], .i64⟩
  | .f64Const _ => some ⟨[], .f64⟩
  | .load ty _ => some ⟨[.i32], ty⟩
  | .i32Add => some ⟨[.i32, .i32], .i32⟩
  | .i64Add | .i64Sub | .i64Mul | .i64Div => some ⟨[.i64, .i64], .i64⟩
  | .i64OfF64 => some ⟨[.f64], .i64⟩
  | .f64Add | .f64Sub | .f64Mul | .f64Div => some ⟨[.f64, .f64], .f64⟩
  | .f64OfI64 => some ⟨[.i64], .f64⟩
  | .localGet _ | .localSet _ | .call _ | .drop | .ret | .finish => none

/-- The types on the stack after an instruction; none where the instruction does not fit. -/
def stackStep (types : CodeTypes) (stack : List ValType) (instr : Instr) : Option (List ValType) :=
  match instr with
  | .localGet index => types.locals[index]?.map (· :: stack)
  | .localSet index =>
    match stack with
    | ty :: rest => if types.locals[index]? = some ty then some rest else none
    | [] => none
  | .call index => types.functions[index]?.bind (·.onStack? stack)
  | .drop => stack.tail?
  | instr => instr.type?.bind (·.onStack? stack)

/-- The instructions of a method before the two that end it. -/
def MethodCode.body (m : MethodCode) : List Instr := m.code.take (m.code.length - 2)

/-- The code of a method leads from the empty stack to one value of its result type, and ends
there. -/
def MethodCode.Valid (functions : List FuncType) (m : MethodCode) : Prop :=
  m.code = m.body ++ [.ret, .finish] ∧
    m.body.foldlM (stackStep ⟨functions, m.type.params ++ m.locals⟩) [] = some [m.type.result]

instance (functions : List FuncType) (m : MethodCode) : Decidable (m.Valid functions) :=
  inferInstanceAs (Decidable (_ ∧ _))

theorem FuncType.onStack?_append (type : FuncType) (rest : List ValType) :
    type.onStack? (type.params.reverse ++ rest) = some (type.result :: rest) := by
  have hprefix : type.params.reverse.isPrefixOf (type.params.reverse ++ rest) = true :=
    isPrefixOf_iff_prefix.2 (prefix_append _ _)
  have hdrop : (type.params.reverse ++ rest).drop type.params.length = rest := by
    rw [← length_reverse, drop_left]
  rw [onStack?, if_pos hprefix, hdrop]

/-- Code that fits the stack does not end the method. -/
theorem ne_end_of_stackStep {types : CodeTypes} {code : List Instr} {stack after : List ValType}
    (h : code.foldlM (stackStep types) stack = some after) :
    ∀ i ∈ code, i ≠ .ret ∧ i ≠ .finish := by
  induction code generalizing stack with
  | nil => exact fun _ hi => nomatch hi
  | cons first rest ih =>
    rw [foldlM_cons] at h
    obtain ⟨next, hnext, hrest⟩ := Option.bind_eq_some_iff.1 h
    refine forall_mem_cons.2 ⟨⟨?_, ?_⟩, ih hrest⟩
    · rintro rfl
      exact nomatch hnext
    · rintro rfl
      exact nomatch hnext

/-- Code that replaces the types `taken` on the stack by `left`, whatever lies below, and calls only
functions that stand for one of `callees`. -/
structure CodeTyped (types : CodeTypes) (space callees : List Callee) (code : List Instr)
    (taken left : List ValType) : Prop where
  stack : ∀ rest, code.foldlM (stackStep types) (taken ++ rest) = some (left ++ rest)
  calls : ∀ k, .call k ∈ code → ∃ callee ∈ callees, space[k]? = some callee

variable {i : Instr} {table : ClassTable} {functions : List FuncType} {c : Typed.Class}

namespace CodeTyped

variable {types : CodeTypes} {space callees : List Callee} {a b : List Instr}
  {taken between left : List ValType}

theorem nil : CodeTyped types space callees [] [] [] :=
  ⟨fun _ => rfl, fun _ h => nomatch h⟩

theorem append (first : CodeTyped types space callees a taken between)
    (second : CodeTyped types space callees b between left) :
    CodeTyped types space callees (a ++ b) taken left where
  stack rest := by
    rw [foldlM_append, first.stack]
    exact second.stack rest
  calls k hk := (mem_append.1 hk).elim (first.calls k) (second.calls k)

/-- Code does not see what lies below the values that it takes. -/
theorem above (h : CodeTyped types space callees a taken left) (below : List ValType) :
    CodeTyped types space callees a (taken ++ below) (left ++ below) where
  stack rest := by
    rw [append_assoc, append_assoc]
    exact h.stack (below ++ rest)
  calls := h.calls

/-- An instruction that calls nothing. -/
theorem instr (hcall : ∀ k, i ≠ .call k)
    (h : ∀ rest, stackStep types (taken ++ rest) i = some (left ++ rest)) :
    CodeTyped types space callees [i] taken left where
  stack rest := by
    rw [foldlM_cons, h rest]
    rfl
  calls k hk := absurd (mem_singleton.1 hk).symm (hcall k)

/-- An instruction with a type of its own. -/
theorem ofType {type : FuncType} (h : i.type? = some type) :
    CodeTyped types space callees [i] type.params.reverse [type.result] := by
  refine instr ?_ ?_
  · rintro k rfl
    exact nomatch h
  · intro rest
    have hstep : ∀ stack, stackStep types stack i = type.onStack? stack := by
      intro stack
      cases i <;> first | exact congrArg (fun t => t.bind (·.onStack? stack)) h | cases h
    rw [hstep, FuncType.onStack?_append]
    rfl

theorem const {ty : ValType} (h : i.type? = some ⟨[], ty⟩) :
    CodeTyped types space callees [i] [] [ty] :=
  ofType h

theorem drop (ty : ValType) : CodeTyped types space callees [.drop] [ty] [] :=
  instr (fun _ => nofun) fun _ => rfl

end CodeTyped

/-! ## Code of expressions -/

/-- The numbers that code generation uses for a body of class `c` fit the types: functions, receiver
and parameters are found under their numbers. -/
structure CodeContext.Fits (ctx : CodeContext) (typing : TypingContext) (c : Typed.Class)
    (types : CodeTypes) : Prop where
  table : ctx.table = typing.table
  owner : ctx.owner = c.id
  plan : ctx.plan = .ofClass c
  found : typing.table.get? c.id = some c
  functions : types.functions.map some = (functionSpace c).map (calleeType? typing.table)
  receiver : typing.isStatic = false → types.locals[0]? = some (valType typing.ownType)
  params : ∀ index p, typing.params[index]? = some p →
    types.locals[ctx.paramBase + index]? = some (valType p.ty)

section Expressions

-- `all` are the callees of the whole body.
variable {ctx : CodeContext} {typing : TypingContext} {types : CodeTypes} {all : List Callee}

theorem CodeContext.Fits.function (fits : ctx.Fits typing c types) {k : Nat} {callee : Callee}
    (h : (functionSpace c)[k]? = some callee) :
    types.functions[k]? = calleeType? typing.table callee := by
  have hk := congrArg (·[k]?) fits.functions
  simp only [getElem?_map, h, Option.map_some] at hk
  cases hf : types.functions[k]? with
  | none => simp [hf] at hk
  | some type =>
    simp only [hf, Option.map_some, Option.some.injEq] at hk
    exact hk

theorem type?_of_inlineInstr? {b : Builtin} (h : inlineInstr? b = some i) :
    i.type? = some (builtinType b) := by
  cases b <;> first | cases h; rfl | cases h

/-- A call takes its operands from the stack and leaves its result. -/
theorem CodeContext.Fits.call (fits : ctx.Fits typing c types) (hall : all ⊆ called c)
    {callee : Callee} (hmem : callee ∈ all) {owner : Ty} {signature : Signature}
    (leads : typing.table.Calls callee owner signature) (span : Span) :
    ∃ i, ctx.callInstr span callee = .ok i ∧
      CodeTyped types (functionSpace c) all [i]
        ((if signature.isStatic then [] else [valType owner]) ++
          signature.params.map valType).reverse
        [valType signature.result] := by
  have htype := calleeType?_of_calls leads
  -- an operator is one instruction, everything else is called by its number
  rcases callInstr_of_called fits.owner fits.plan fits.found (hall hmem) leads span with
    ⟨b, i, rfl, hinline, hi⟩ | ⟨k, hk, hspace⟩
  · exact ⟨i, hi, CodeTyped.ofType ((type?_of_inlineInstr? hinline).trans htype)⟩
  refine ⟨.call k, hk, ?_, ?_⟩
  · intro rest
    have hfunction := (fits.function hspace).trans htype
    rw [foldlM_cons, stackStep, hfunction, Option.bind_some, FuncType.onStack?_append]
    rfl
  · intro k' hk'
    cases mem_singleton.1 hk'
    exact ⟨callee, hmem, hspace⟩

theorem typed_textCode (types : CodeTypes) (space callees : List Callee) (ctx : CodeContext)
    (text : String) : CodeTyped types space callees (instrsOf (ctx.textCode text)) [] [.i32] := by
  have hsum : Instr.i32Add.type? = some ⟨[.i32, .i32], .i32⟩ := rfl
  have base : CodeTyped types space callees [.globalGet 0] [] [.i32] := .const rfl
  have position : CodeTyped types space callees
      [.i32Const (UInt32.ofNat (ctx.texts.idxOf text))] [] [.i32] := .const rfl
  exact (base.append (position.above [.i32])).append (.ofType hsum)

/-- The code of an expression pushes one value of its type. -/
def EmitsTyped (ctx : CodeContext) (c : Typed.Class) (types : CodeTypes) (all : List Callee)
    (e : Expr) :
    Prop :=
  ∃ pieces, emit ctx e = .ok pieces ∧
    CodeTyped types (functionSpace c) all (instrsOf pieces) [] [valType e.ty]

/-- A value that is dropped, before a body. -/
theorem EmitsTyped.seq {first body : Expr} (hfirst : EmitsTyped ctx c types all first)
    (hbody : EmitsTyped ctx c types all body) (span : Span) :
    EmitsTyped ctx c types all (.seq span first body) := by
  obtain ⟨code, hcode, typedCode⟩ := hfirst
  obtain ⟨rest, hrest, typedRest⟩ := hbody
  refine ⟨code ++ [.op .drop, ctx.mark body.span] ++ rest, ?_, ?_⟩
  · rw [emit, hcode, hrest]
    rfl
  · rw [instrsOf_append, instrsOf_append]
    exact (typedCode.append (.drop _)).append typedRest

variable {args : List Expr}

theorem emitList_typed (h : ∀ arg ∈ args, EmitsTyped ctx c types all arg) :
    ∃ pieces, emitList ctx args = .ok pieces ∧
      CodeTyped types (functionSpace c) all (instrsOf pieces) []
        ((args.map Expr.ty).map valType).reverse := by
  induction args with
  | nil => exact ⟨[], rfl, .nil⟩
  | cons e rest ih =>
    obtain ⟨⟨first, hfirst, typedFirst⟩, hrest⟩ := forall_mem_cons.1 h
    obtain ⟨others, hothers, typedOthers⟩ := ih hrest
    refine ⟨first ++ others, ?_, ?_⟩
    · rw [emitList, hfirst, hothers]
      rfl
    · simpa using typedFirst.append (typedOthers.above [valType e.ty])

/-- The code of the holes of a quote replaces the text before them by the whole text. -/
theorem emitHoles_typed (fits : ctx.Fits typing c types) (hall : all ⊆ called c)
    (hmem : .builtin .stringConcat ∈ all) {holes : List (Expr × String)}
    (hstring : ∀ hole ∈ holes, hole.1.ty = .string)
    (h : ∀ hole ∈ holes, EmitsTyped ctx c types all hole.1) :
    ∃ pieces, emitHoles ctx holes = .ok pieces ∧
      CodeTyped types (functionSpace c) all (instrsOf pieces) [.i32] [.i32] := by
  induction holes with
  | nil => exact ⟨[], rfl, .above .nil [.i32]⟩
  | cons hole rest ih =>
    obtain ⟨e, text⟩ := hole
    obtain ⟨⟨code, hcode, typedCode⟩, hrest⟩ := forall_mem_cons.1 h
    obtain ⟨hty, hstring⟩ := forall_mem_cons.1 hstring
    obtain ⟨others, hothers, typedOthers⟩ := ih hstring hrest
    obtain ⟨concat, hok, typedConcat⟩ := fits.call hall hmem (.builtin .stringConcat) e.span
    refine ⟨code ++ [.op concat] ++ (if text.isEmpty then [] else ctx.textCode text ++
      [.op concat]) ++ others, ?_, ?_⟩
    · rw [emitHoles, hcode, hok, hothers]
      rfl
    · rw [hty] at typedCode
      have typedHole := (typedCode.above [.i32]).append typedConcat
      have typedText := ((typed_textCode types _ all ctx text).above [.i32]).append typedConcat
      split
      · simpa using typedHole.append typedOthers
      · simpa using (typedHole.append typedText).append typedOthers

theorem callees_subset_of_mem (h : calleesList args ⊆ all) {arg : Expr} (harg : arg ∈ args) :
    callees arg ⊆ all := by
  intro callee hcallee
  rw [calleesList_eq] at h
  exact h (mem_flatMap.2 ⟨arg, harg, hcallee⟩)

theorem bound_of_mem {P : Nat × ValType → Prop} (h : ∀ b ∈ boundLocalsList args, P b) {arg : Expr}
    (harg : arg ∈ args) : ∀ b ∈ boundLocals arg, P b := by
  intro b hb
  rw [boundLocalsList_eq] at h
  exact h b (mem_flatMap.2 ⟨arg, harg, hb⟩)

/-- The code of a well-typed expression exists and pushes one value of its type. -/
theorem emit_typed (fits : ctx.Fits typing c types) (hall : all ⊆ called c)
    {scope : List LocalVar} {e : Expr} (typed : WellTyped typing scope e) (hsub : callees e ⊆ all)
    (hscope : ∀ v ∈ scope, types.locals[ctx.localBase + v.id]? = some (valType v.ty))
    (hbound : ∀ b ∈ boundLocals e, types.locals[ctx.localBase + b.1]? = some b.2) :
    EmitsTyped ctx c types all e := by
  -- the induction follows the rules; at a declaration the scope grows by a local with a known type
  induction typed with
  | localVar bound _ =>
    refine ⟨_, rfl, .instr (fun _ => nofun) fun rest => ?_⟩
    rw [stackStep, hscope _ bound]
    rfl
  | param declared _ =>
    refine ⟨_, rfl, .instr (fun _ => nofun) fun rest => ?_⟩
    rw [stackStep, fits.params _ _ declared]
    rfl
  | receiver present _ =>
    refine ⟨_, rfl, .instr (fun _ => nofun) fun rest => ?_⟩
    rw [stackStep, fits.receiver present]
    rfl
  | @slot scope span ref target d slot owner found _ hty _ _ ih =>
    obtain ⟨code, hcode, typedCode⟩ := ih hsub hscope hbound
    refine ⟨code ++ [.op (.load (ctx.slotType ref) (ref.index * cellSize))], ?_, ?_⟩
    · rw [emit, hcode]
      rfl
    · have htype : ctx.slotType ref = valType slot.ty := by
        simp [CodeContext.slotType, fits.table, owner, found]
      have hload : (Instr.load (valType slot.ty) (ref.index * cellSize)).type? =
        some ⟨[.i32], valType slot.ty⟩ := rfl
      rw [hty] at typedCode
      rw [htype, instrsOf_append]
      exact typedCode.append (.ofType hload)
  | @methodCall scope span callee target args signature leads hstatic hparams _ _ _ ih ihArgs =>
    obtain ⟨hparts, hargs⟩ := append_subset.1 hsub
    obtain ⟨hcallee, htarget⟩ := cons_subset.1 hparts
    rw [boundLocals, forall_mem_append] at hbound
    obtain ⟨code, hcode, typedCode⟩ := ih htarget hscope hbound.1
    obtain ⟨argCode, hargCode, typedArgs⟩ := emitList_typed fun arg harg =>
      ihArgs arg harg (callees_subset_of_mem hargs harg) hscope (bound_of_mem hbound.2 harg)
    obtain ⟨call, hcall, typedCall⟩ := fits.call hall hcallee leads span
    refine ⟨code ++ argCode ++ [.op call], ?_, ?_⟩
    · rw [emit, hcode, hargCode, hcall]
      rfl
    · -- the arguments are pushed above the receiver, and the call takes all of them
      have typedOperands := typedCode.append (typedArgs.above [valType target.ty])
      rw [hstatic, ← hparams] at typedCall
      rw [instrsOf_append, instrsOf_append]
      refine typedOperands.append ?_
      simpa [Expr.ty] using typedCall
  | @staticCall scope span callee args owner signature leads hstatic hparams _ _ ihArgs =>
    obtain ⟨hcallee, hargs⟩ := cons_subset.1 hsub
    obtain ⟨argCode, hargCode, typedArgs⟩ := emitList_typed fun arg harg =>
      ihArgs arg harg (callees_subset_of_mem hargs harg) hscope (bound_of_mem hbound harg)
    obtain ⟨call, hcall, typedCall⟩ := fits.call hall hcallee leads span
    refine ⟨argCode ++ [.op call], ?_, ?_⟩
    · rw [emit, hargCode, hcall]
      rfl
    · rw [hstatic, ← hparams] at typedCall
      rw [instrsOf_append]
      exact typedArgs.append typedCall
  | @letSingle scope span patternSpan id name value body _ _ _ ih ihBody =>
    obtain ⟨hvalue, hbody⟩ := append_subset.1 hsub
    rw [boundLocals, forall_mem_append, forall_mem_cons] at hbound
    obtain ⟨⟨hlocal, hboundValue⟩, hboundBody⟩ := hbound
    obtain ⟨code, hcode, typedCode⟩ := ih hvalue hscope hboundValue
    obtain ⟨rest, hrest, typedRest⟩ :=
      ihBody hbody (forall_mem_cons.2 ⟨hlocal, hscope⟩) hboundBody
    refine ⟨code ++ [.op (.localSet (ctx.localBase + id)), ctx.mark body.span] ++ rest, ?_, ?_⟩
    · rw [emit, hcode, hrest]
      rfl
    · have typedStore : CodeTyped types (functionSpace c) all [.localSet (ctx.localBase + id)]
          [valType value.ty] [] := by
        refine .instr (fun _ => nofun) fun rest => ?_
        exact if_pos hlocal
      rw [instrsOf_append, instrsOf_append]
      exact (typedCode.append typedStore).append typedRest
  | @letIgnore scope span patternSpan value body _ _ ih ihBody =>
    obtain ⟨hvalue, hbody⟩ := append_subset.1 hsub
    rw [boundLocals, forall_mem_append] at hbound
    -- a declaration that binds nothing drops its value as a sequence does
    exact (ih hvalue hscope hbound.1).seq (ihBody hbody hscope hbound.2) span
  | @seq scope span first body _ _ ih ihBody =>
    obtain ⟨hfirst, hbody⟩ := append_subset.1 hsub
    rw [boundLocals, forall_mem_append] at hbound
    exact (ih hfirst hscope hbound.1).seq (ihBody hbody hscope hbound.2) span
  | @literal scope span value =>
    cases value with
    | int v | float v => exact ⟨_, rfl, .const rfl⟩
    | str text => exact ⟨_, rfl, typed_textCode types _ _ ctx text⟩
  | @quote scope span head holes hstring _ ih =>
    obtain ⟨hconcat, hholes⟩ := cons_subset.1 hsub
    rw [boundLocals, boundLocalsHoles_eq] at hbound
    rw [calleesHoles_eq] at hholes
    obtain ⟨pieces, hpieces, typedHoles⟩ := emitHoles_typed fits hall hconcat hstring
      fun hole hhole => ih hole hhole
        (fun callee hcallee => hholes (mem_flatMap.2 ⟨hole, hhole, hcallee⟩)) hscope
        (fun b hb => hbound b (mem_flatMap.2 ⟨hole, hhole, hb⟩))
    refine ⟨ctx.textCode head ++ pieces, ?_, ?_⟩
    · rw [emit, hpieces]
      rfl
    · rw [instrsOf_append]
      exact (typed_textCode types _ all ctx head).append typedHoles

end Expressions

/-! ## Classes -/

/-- What the code of a method promises: it is valid, its locals have the types with which they are
bound, and each of its calls is the call of a callee of the body, under a number that has exactly
the type of that callee. -/
structure MethodValid (table : ClassTable) (c : Typed.Class) (a : Artifact) (m : Method)
    (code : MethodCode) : Prop where
  name : code.name = m.name
  type : code.type = methodType m
  valid : code.Valid a.functionTypes
  bound : ∃ body, m.body = some body ∧
    (∀ b ∈ boundLocals body, code.locals[b.1]? = some b.2) ∧
    ∀ k, .call k ∈ code.code → ∃ callee ∈ callees body, (functionSpace c)[k]? = some callee ∧
      ∃ type, a.functionTypes[k]? = some type ∧ calleeType? table callee = some type

/-- What a generated class promises: every method has valid code, and no two methods are exported
under one name. -/
structure ArtifactValid (table : ClassTable) (c : Typed.Class) (a : Artifact) : Prop where
  methods : Forall₂ (MethodValid table c a) c.methods a.methods
  exports : (a.methods.map MethodCode.name).Nodup

theorem exists_functionTypes (typed : ClassTyped table c.id c) (hc : table.get? c.id = some c) :
    ∃ functions : List FuncType,
      functions.map some = (functionSpace c).map (calleeType? table) := by
  have hsome : ∀ callee ∈ functionSpace c, ∃ type, calleeType? table callee = some type := by
    intro callee hcallee
    rw [functionSpace, mem_append, mem_append, mem_map, mem_map,
      mem_map] at hcallee
    rcases hcallee with (⟨b, -, rfl⟩ | ⟨ref, href, rfl⟩) | ⟨⟨m, index⟩, hm, rfl⟩
    · exact ⟨_, rfl⟩
    · obtain ⟨owner, signature, leads⟩ := calls_of_mem_called typed (mem_plan_foreign.1 href).1
      exact ⟨_, calleeType?_of_calls leads⟩
    · have hfound : c.methods[index]? = some m := mem_zipIdx_iff_getElem?.1 hm
      exact ⟨methodType m, by simp [calleeType?, hc, hfound]⟩
  refine ⟨(functionSpace c).map fun callee => (calleeType? table callee).getD default, ?_⟩
  rw [map_map]
  refine map_congr_left fun callee hcallee => ?_
  obtain ⟨type, htype⟩ := hsome callee hcallee
  simp [htype]

theorem methodContext_fits (hc : table.get? c.id = some c)
    (hfunctions : functions.map some = (functionSpace c).map (calleeType? table))
    (locals : List ValType) (lines : LineIndex) (m : Method) :
    (methodContext table c (.ofClass c) (classTexts c) lines m).Fits
      ⟨table, c.ty, m.isStatic, m.params⟩ c
      ⟨functions, operandTypes m.isStatic m.paramTypes ++ locals⟩ where
  table := rfl
  owner := rfl
  plan := rfl
  found := hc
  functions := hfunctions
  receiver hstatic := by
    change m.isStatic = false at hstatic
    rw [hstatic]
    rfl
  params index p hp := by
    change m.params[index]? = some p at hp
    have htypes : (m.paramTypes.map valType)[index]? = some (valType p.ty) := by
      simp [Method.paramTypes, hp]
    have hlt := (List.getElem?_eq_some_iff.1 htypes).1
    simp only [methodContext, operandTypes_eq]
    split
    · rw [Nat.zero_add, nil_append, getElem?_append_left hlt, htypes]
    · rw [Nat.add_comm, singleton_append, cons_append, getElem?_cons_succ,
        getElem?_append_left hlt, htypes]

/-- The code of a method of a checked class. -/
theorem emit_method (typed : ClassTyped table c.id c) (hc : table.get? c.id = some c)
    (hfunctions : functions.map some = (functionSpace c).map (calleeType? table))
    (lines : LineIndex) {m : Method} (hm : m ∈ c.methods) :
    ∃ body pieces, m.body = some body ∧ ((boundLocals body).map Prod.fst).Nodup ∧
      emit (methodContext table c (.ofClass c) (classTexts c) lines m) body = .ok pieces ∧
      CodeTyped ⟨functions, operandTypes m.isStatic m.paramTypes ++ localTypes body⟩
        (functionSpace c) (callees body) (instrsOf pieces) [] [valType m.returnType] := by
  obtain ⟨body, hbody, hty, hwell, once⟩ := (typed.methods m hm).body
  have fits := methodContext_fits hc hfunctions (localTypes body) lines m
  have hcalled : callees body ⊆ called c := fun _ hcallee => mem_called hm hbody hcallee
  obtain ⟨pieces, hpieces, typedCode⟩ :=
    emit_typed fits hcalled hwell (Subset.refl _) (fun _ hv => nomatch hv)
      fun b hb => localTypes_behind_operands once hb
  rw [hty] at typedCode
  exact ⟨body, pieces, hbody, once, hpieces, typedCode⟩

theorem MethodCode.valid_of_code {m : MethodCode} {instrs : List Instr}
    (hcode : m.code = instrs ++ [.ret, .finish])
    (h : instrs.foldlM (stackStep ⟨functions, m.type.params ++ m.locals⟩) [] =
      some [m.type.result]) : m.Valid functions := by
  have hbody : m.body = instrs := by
    rw [MethodCode.body, hcode]
    simp
  exact ⟨by rw [hbody, hcode], by rw [hbody, h]⟩

theorem generateClass_succeeds (typed : ClassTyped table c.id c) (hc : table.get? c.id = some c)
    (source : String) : ∃ a, generateClass table c source = .ok a := by
  obtain ⟨functions, hfunctions⟩ := exists_functionTypes typed hc
  have hmethods : ∀ m ∈ c.methods, ∃ code, generateMethod table c (.ofClass c) (classTexts c)
      (.ofText source) m = .ok code := by
    intro m hm
    obtain ⟨body, pieces, hbody, -, hpieces, -⟩ :=
      emit_method typed hc hfunctions (.ofText source) hm
    rw [generateMethod, hbody]
    exact ⟨_, Except.bind_eq_ok.2 ⟨pieces, hpieces, rfl⟩⟩
  obtain ⟨methods, hok⟩ := Except.mapM_succeeds hmethods
  exact ⟨_, Except.bind_eq_ok.2 ⟨methods, hok, rfl⟩⟩

theorem methodValid_of_generateMethod (typed : ClassTyped table c.id c)
    (hc : table.get? c.id = some c) {source : String} {a : Artifact}
    (ha : generateClass table c source = .ok a) {m : Method} (hm : m ∈ c.methods)
    {code : MethodCode}
    (h : generateMethod table c (.ofClass c) (classTexts c) (.ofText source) m = .ok code) :
    MethodValid table c a m code := by
  have hfunctions := functionTypes_eq typed hc ha
  obtain ⟨body, pieces, hbody, once, hpieces, typedCode⟩ :=
    emit_method typed hc hfunctions (.ofText source) hm
  obtain ⟨body', pieces', hbody', hpieces', hname, hstatic, hparams, hresult, hlocals, hcode⟩ :=
    generateMethod_eq_ok h
  cases hbody.symm.trans hbody'
  cases hpieces.symm.trans hpieces'
  have htype : code.type = methodType m := by
    rw [MethodCode.type, hstatic, hparams, hresult, methodType]
  refine ⟨hname, htype, ?_, body, hbody, ?_, ?_⟩
  · refine MethodCode.valid_of_code hcode ?_
    rw [htype, hlocals]
    exact typedCode.stack []
  · intro b hb
    rw [hlocals]
    exact localTypes_of_mem once hb
  · intro k hk
    rw [hcode, mem_append] at hk
    -- neither of the two instructions at the end is a call
    have hk' : .call k ∈ instrsOf pieces := hk.resolve_right (by simp)
    obtain ⟨callee, hcallee, hspace⟩ := typedCode.calls k hk'
    have fits := methodContext_fits hc hfunctions (localTypes body) (.ofText source) m
    have hfunction := fits.function hspace
    refine ⟨callee, hcallee, hspace, ?_⟩
    obtain ⟨owner, signature, leads⟩ := calls_of_mem_called typed (mem_called hm hbody hcallee)
    exact ⟨_, hfunction.trans (calleeType?_of_calls leads), calleeType?_of_calls leads⟩

/-- Every checked class generates valid code. -/
theorem generateClass_valid {table : ClassTable} (reached : table.Reached) {id : ClassId}
    {c : Typed.Class} (hc : table.get? id = some c) (source : String) :
    ∃ a, generateClass table c source = .ok a ∧ ArtifactValid table c a := by
  have typed := reached.typed id c hc
  obtain rfl := typed.id_eq
  obtain ⟨a, ha⟩ := generateClass_succeeds typed hc source
  have hgenerated := (forall₂_and_left _ _).2
    ⟨fun m (hm : m ∈ c.methods) => hm, (generateClass_eq_ok ha).1⟩
  have hmethods : List.Forall₂ (MethodValid table c a) c.methods a.methods :=
    hgenerated.imp fun m code h => methodValid_of_generateMethod typed hc ha h.1 h.2
  refine ⟨a, ha, hmethods, ?_⟩
  rw [methodNames_eq ha]
  exact typed.names

/-- The code of the class of the example is valid. -/
theorem generateClass_valid_pointClass :
    ∃ a, generateClass Typed.pointTable Typed.pointClass Typed.pointText = .ok a ∧
      ArtifactValid Typed.pointTable Typed.pointClass a :=
  generateClass_valid Typed.reached_pointTable Typed.get?_pointTable Typed.pointText

end ClassLang.Code
