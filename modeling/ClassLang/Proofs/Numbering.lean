import ClassLang.Proofs.Steps
import ClassLang.Proofs.Typing
import Mathlib.Data.List.Nodup

/-!
# Numbers of functions, locals and texts

Generated code refers to functions, locals and texts by numbers. `functionSpace` lists what the
function numbers of a class stand for. The code of a call is an instruction of its own or carries
the number of its callee (`callInstr_of_called`), and the types that an artifact declares for its
functions are those of the callees, by number (`functionTypes_eq`).
-/

set_option autoImplicit false

namespace ClassLang.Code

open List ImportPlan
open Typed (Expr Callee MethodRef ClassTable Method TypingContext LocalVar WellTyped)

/-! ## First places -/

section Firsts

variable {α : Type} [DecidableEq α]

theorem mem_firsts {items : List α} {item : α} : item ∈ firsts items ↔ item ∈ items := by
  -- `known` is what the fold has collected so far
  have general : ∀ known : List α, item ∈ items.foldl
      (fun known item => if item ∈ known then known else known ++ [item]) known ↔
      item ∈ known ∨ item ∈ items := by
    induction items with
    | nil => simp
    | cons first rest ih =>
      intro known
      rw [foldl_cons, ih]
      split
      · next hmem =>
        constructor
        · rintro (h | h)
          · exact Or.inl h
          · exact Or.inr (mem_cons_of_mem _ h)
        · rintro (h | h)
          · exact Or.inl h
          · rcases mem_cons.1 h with rfl | h
            · exact Or.inl hmem
            · exact Or.inr h
      · simp only [mem_append, mem_cons, not_mem_nil, or_false, or_assoc]
  rw [firsts, general []]
  simp

theorem nodup_firsts (items : List α) : (firsts items).Nodup := by
  have general : ∀ known : List α, known.Nodup → (items.foldl
      (fun known item => if item ∈ known then known else known ++ [item]) known).Nodup := by
    induction items with
    | nil => exact fun _ h => h
    | cons first rest ih =>
      intro known h
      rw [foldl_cons]
      apply ih
      split
      · exact h
      · next hnew =>
        rw [← concat_eq_append]
        exact h.concat hnew
  exact general [] nodup_nil

theorem idxOf?_of_mem {items : List α} {item : α} (h : item ∈ items) :
    items.idxOf? item = some (items.idxOf item) := by
  cases hk : items.idxOf? item with
  | none => exact absurd h (idxOf?_eq_none_iff.1 hk)
  | some k => rw [idxOf_eq_getD_idxOf?, hk, Option.getD_some]

end Firsts

/-! ## What a body needs -/

theorem sublist_flatMap_of_mem {α β : Type} (f : α → List β) {items : List α} {item : α}
    (h : item ∈ items) : (f item).Sublist (items.flatMap f) := by
  obtain ⟨before, behind, rfl⟩ := append_of_mem h
  rw [flatMap_append, flatMap_cons]
  exact (sublist_append_left _ _).trans (sublist_append_right _ _)

theorem calleesList_eq (args : List Expr) : calleesList args = args.flatMap callees := by
  induction args with
  | nil => rfl
  | cons e rest ih => rw [calleesList, ih, flatMap_cons]

theorem calleesHoles_eq (holes : List (Expr × String)) :
    calleesHoles holes = holes.flatMap fun hole => callees hole.1 := by
  induction holes with
  | nil => rfl
  | cons hole rest ih => rw [calleesHoles, ih, flatMap_cons]

theorem boundLocalsList_eq (args : List Expr) :
    boundLocalsList args = args.flatMap boundLocals := by
  induction args with
  | nil => rfl
  | cons e rest ih => rw [boundLocalsList, ih, flatMap_cons]

theorem boundLocalsHoles_eq (holes : List (Expr × String)) :
    boundLocalsHoles holes = holes.flatMap fun hole => boundLocals hole.1 := by
  induction holes with
  | nil => rfl
  | cons hole rest ih => rw [boundLocalsHoles, ih, flatMap_cons]

theorem textsList_eq (args : List Expr) : textsList args = args.flatMap textsOf := by
  induction args with
  | nil => rfl
  | cons e rest ih => rw [textsList, ih, flatMap_cons]

theorem textsHoles_eq (holes : List (Expr × String)) :
    textsHoles holes = holes.flatMap fun hole =>
      textsOf hole.1 ++ (if hole.2.isEmpty then [] else [hole.2]) := by
  induction holes with
  | nil => rfl
  | cons hole rest ih => rw [textsHoles, ih, flatMap_cons]

variable {callee : Callee} {c : Typed.Class} {m : Method} {body : Expr} {table : ClassTable}
  {b : Nat × ValType} {source : String} {a : Artifact}

/-- Everything that a well-typed expression calls exists. -/
theorem calls_of_mem_callees {ctx : TypingContext} {scope : List LocalVar} {e : Expr}
    (typed : WellTyped ctx scope e) (h : callee ∈ callees e) :
    ∃ owner signature, ctx.table.Calls callee owner signature := by
  induction typed with
  | localVar _ _ | param _ _ | receiver _ _ | literal => exact nomatch h
  | slot _ _ _ _ _ _ ih => exact ih h
  | methodCall leads _ _ _ _ _ ih ihArgs =>
    rw [callees, calleesList_eq, mem_append, mem_cons, mem_flatMap] at h
    rcases h with (rfl | h) | ⟨arg, harg, h⟩
    · exact ⟨_, _, leads⟩
    · exact ih h
    · exact ihArgs arg harg h
  | staticCall leads _ _ _ _ ihArgs =>
    rw [callees, calleesList_eq, mem_cons, mem_flatMap] at h
    rcases h with rfl | ⟨arg, harg, h⟩
    · exact ⟨_, _, leads⟩
    · exact ihArgs arg harg h
  | letSingle _ _ _ ih ihBody => exact (mem_append.1 h).elim ih ihBody
  | letIgnore _ _ ih ihBody | seq _ _ ih ihBody => exact (mem_append.1 h).elim ih ihBody
  | quote _ _ ih =>
    rw [callees, calleesHoles_eq, mem_cons, mem_flatMap] at h
    rcases h with rfl | ⟨hole, hhole, h⟩
    · exact ⟨_, _, .builtin .stringConcat⟩
    · exact ih hole hhole h

/-- Everything that the bodies of a class call. -/
def called (c : Typed.Class) : List Callee := (c.methods.filterMap Method.body).flatMap callees

theorem mem_called (hm : m ∈ c.methods) (hbody : m.body = some body) (h : callee ∈ callees body) :
    callee ∈ called c :=
  mem_flatMap.2 ⟨body, mem_filterMap.2 ⟨m, hm, hbody⟩, h⟩

theorem calls_of_mem_called {id : Nat} (typed : Typed.ClassTyped table id c)
    (h : callee ∈ called c) : ∃ owner signature, table.Calls callee owner signature := by
  obtain ⟨body, hbody, hcallee⟩ := mem_flatMap.1 h
  obtain ⟨m, hm, hsome⟩ := mem_filterMap.1 hbody
  obtain ⟨body', hbody', -, hwell, -⟩ := (typed.methods m hm).body
  cases hsome.symm.trans hbody'
  exact calls_of_mem_callees hwell hcallee

/-! ## Numbers of locals -/

theorem lt_count_of_mem {bound : List (Nat × ValType)} (h : b ∈ bound) :
    b.1 < bound.foldl (fun count b => max count (b.1 + 1)) 0 := by
  have grows : ∀ (items : List (Nat × ValType)) (n : Nat),
      n ≤ items.foldl (fun count b => max count (b.1 + 1)) n := by
    intro items
    induction items with
    | nil => exact fun n => Nat.le_refl n
    | cons first rest ih => exact fun n => Nat.le_trans (Nat.le_max_left n _) (ih _)
  have general : ∀ n, b.1 < bound.foldl (fun count b => max count (b.1 + 1)) n := by
    induction bound with
    | nil => exact nomatch h
    | cons first rest ih =>
      intro n
      rcases mem_cons.1 h with rfl | hrest
      · exact Nat.lt_of_lt_of_le (Nat.le_max_right n (b.1 + 1)) (grows rest _)
      · exact ih hrest _
  exact general 0

/-- What is listed under a key that occurs once is what the key stands for. -/
theorem lookup_of_mem {α β : Type} [BEq α] [LawfulBEq α] {bound : List (α × β)}
    (once : (bound.map Prod.fst).Nodup) {b : α × β} (h : b ∈ bound) :
    bound.lookup b.1 = some b.2 := by
  obtain ⟨before, behind, rfl⟩ := append_of_mem h
  refine lookup_eq_some_iff.2 ⟨before, behind, rfl, ?_⟩
  intro p hp
  rw [map_append, nodup_append] at once
  have hne := once.2.2 p.1 (mem_map_of_mem hp) b.1 (by simp)
  exact bne_iff_ne.2 hne.symm

/-- A local that a body binds once has its own type among the locals of the body. -/
theorem localTypes_of_mem (once : ((boundLocals body).map Prod.fst).Nodup)
    (h : b ∈ boundLocals body) : (localTypes body)[b.1]? = some b.2 := by
  -- the types are looked up from the last binding on; with one binding each that is the same
  have hreverse : ((boundLocals body).reverse.map Prod.fst).Nodup := by
    rw [map_reverse]
    exact nodup_reverse.2 once
  simp only [localTypes, getElem?_map, getElem?_range (lt_count_of_mem h),
    Option.map_some, lookup_of_mem hreverse (mem_reverse.2 h), Option.getD_some]

/-- The locals of a method come behind its operands. -/
theorem localTypes_behind_operands (once : ((boundLocals body).map Prod.fst).Nodup)
    {operands : List ValType} (h : b ∈ boundLocals body) :
    (operands ++ localTypes body)[operands.length + b.1]? = some b.2 := by
  rw [getElem?_append_right (Nat.le_add_right _ _), Nat.add_sub_cancel_left]
  exact localTypes_of_mem once h

/-! ## Numbers of functions -/

/-- What the function numbers of a class stand for: builtins of the host, methods of other classes,
and the methods of the class itself. -/
def functionSpace (c : Typed.Class) : List Callee :=
  (ofClass c).host.map .builtin ++ (ofClass c).foreign.map .method ++
    c.methods.zipIdx.map fun (m, index) => .method ⟨c.id, index, m.name⟩

theorem mem_plan_host {b : Builtin} :
    b ∈ (ofClass c).host ↔ .builtin b ∈ called c ∧ b.isInline = false := by
  rw [ofClass, mem_firsts, mem_filterMap]
  constructor
  · rintro ⟨callee, hcallee, h⟩
    cases callee with
    | method ref => exact nomatch h
    | builtin b' =>
      simp only [hostBuiltin?] at h
      split at h
      · exact nomatch h
      · next hinline =>
        cases h
        exact ⟨hcallee, Bool.eq_false_iff.2 hinline⟩
  · rintro ⟨hcallee, hinline⟩
    exact ⟨.builtin b, hcallee, by rw [hostBuiltin?, hinline]; rfl⟩

theorem mem_plan_foreign {ref : MethodRef} :
    ref ∈ (ofClass c).foreign ↔ .method ref ∈ called c ∧ ref.owner ≠ c.id := by
  rw [ofClass, mem_firsts, mem_filterMap]
  constructor
  · rintro ⟨callee, hcallee, h⟩
    cases callee with
    | builtin b => exact nomatch h
    | method ref' =>
      simp only [foreignMethod?] at h
      split at h
      · exact nomatch h
      · next howner =>
        cases h
        exact ⟨hcallee, howner⟩
  · rintro ⟨hcallee, howner⟩
    exact ⟨.method ref, hcallee, if_neg howner⟩

theorem isInline_eq_false {b : Builtin} (h : inlineInstr? b = none) : b.isInline = false := by
  cases b <;> first | rfl | exact nomatch h

/-- The code of a call is an instruction of its own, or the number of the callee. -/
theorem callInstr_of_called {ctx : CodeContext} (howner : ctx.owner = c.id)
    (hplan : ctx.plan = .ofClass c) (hc : table.get? c.id = some c) (hcalled : callee ∈ called c)
    {owner : Ty} {signature : Typed.Signature} (leads : table.Calls callee owner signature)
    (span : Span) :
    (∃ b instr, callee = .builtin b ∧ inlineInstr? b = some instr ∧
        ctx.callInstr span callee = .ok instr) ∨
      ∃ k, ctx.callInstr span callee = .ok (.call k) ∧ (functionSpace c)[k]? = some callee := by
  cases leads with
  | builtin b =>
    cases hinline : inlineInstr? b with
    | some instr =>
      refine Or.inl ⟨b, instr, rfl, hinline, ?_⟩
      simp only [CodeContext.callInstr, hinline]
    | none =>
      -- the host functions have the first numbers
      have hmem := mem_plan_host.2 ⟨hcalled, isInline_eq_false hinline⟩
      refine Or.inr ⟨(ofClass c).host.idxOf b, ?_, ?_⟩
      · simp only [CodeContext.callInstr, hinline, hplan, idxOf?_of_mem hmem]
      · have hlt := idxOf_lt_length_of_mem hmem
        rw [functionSpace, append_assoc, getElem?_append_left (by simpa using hlt),
          getElem?_map, getElem?_idxOf hmem]
        rfl
  | @method ref d m hd hfound hname =>
    by_cases hown : ref.owner = c.id
    · -- the methods of the class itself come behind all imports
      refine Or.inr ⟨(ofClass c).ownBase + ref.index, ?_, ?_⟩
      · simp only [CodeContext.callInstr, hplan, howner, if_pos hown]
      · rw [hown] at hd
        cases hc.symm.trans hd
        rw [functionSpace, getElem?_append_right (by simp [ownBase])]
        simp [ownBase, hfound, hname, ← hown]
    -- methods of other classes come between the two
    have hmem := mem_plan_foreign.2 ⟨hcalled, hown⟩
    refine Or.inr ⟨(ofClass c).host.length +
      (ofClass c).foreign.idxOf ref, ?_, ?_⟩
    · simp only [CodeContext.callInstr, hplan, howner, if_neg hown, idxOf?_of_mem hmem]
      rfl
    · have hlt := idxOf_lt_length_of_mem hmem
      rw [functionSpace, append_assoc, getElem?_append_right (by simp)]
      rw [getElem?_append_left (by simpa using hlt)]
      simp [getElem?_idxOf hmem]

/-! ## Types of functions -/

/-- The type of a method as a function of the machine. -/
def methodType (m : Method) : FuncType :=
  ⟨operandTypes m.isStatic m.paramTypes, valType m.returnType⟩

theorem operandTypes_eq (isStatic : Bool) (params : List Ty) :
    operandTypes isStatic params = (if isStatic then [] else [.i32]) ++ params.map valType := by
  cases isStatic <;> rfl

/-- The type of a callee as a function of the machine. -/
def calleeType? (table : ClassTable) : Callee → Option FuncType
  | .builtin b => some (builtinType b)
  | .method ref => ((table.get? ref.owner).bind fun c => c.methods[ref.index]?).map methodType

/-- A function takes the receiver, if there is one, and the parameters. -/
theorem calleeType?_of_calls {owner : Ty} {signature : Typed.Signature}
    (leads : table.Calls callee owner signature) :
    calleeType? table callee = some
      ⟨(if signature.isStatic then [] else [valType owner]) ++ signature.params.map valType,
        valType signature.result⟩ := by
  cases leads with
  | builtin b => cases b <;> rfl
  | @method ref c m hc hfound hname =>
    rw [calleeType?, hc, Option.bind_some, hfound, Option.map_some]
    rw [methodType, operandTypes_eq]
    rfl

@[simp] theorem instrsOf_nil : instrsOf [] = [] := rfl

@[simp] theorem instrsOf_op (instr : Instr) (rest : List Piece) :
    instrsOf (.op instr :: rest) = instr :: instrsOf rest := rfl

@[simp] theorem instrsOf_mark (line : Nat) (rest : List Piece) :
    instrsOf (.mark line :: rest) = instrsOf rest := rfl

@[simp] theorem instrsOf_append (a b : List Piece) :
    instrsOf (a ++ b) = instrsOf a ++ instrsOf b := by
  induction a with
  | nil => rfl
  | cons piece a ih =>
    cases piece with
    | op instr => exact congrArg (instr :: ·) ih
    | mark line => exact ih

theorem generateMethod_eq_ok {plan : ImportPlan} {texts : List String} {lines : LineIndex}
    {code : MethodCode} (h : generateMethod table c plan texts lines m = .ok code) :
    ∃ body pieces, m.body = some body ∧
      emit (methodContext table c plan texts lines m) body = .ok pieces ∧
      code.name = m.name ∧ code.isStatic = m.isStatic ∧ code.params = m.paramTypes ∧
      code.result = m.returnType ∧ code.locals = localTypes body ∧
      code.code = instrsOf pieces ++ [.ret, .finish] := by
  unfold generateMethod at h
  split at h
  · exact nomatch h
  · next body hbody =>
    obtain ⟨pieces, hpieces, h⟩ := Except.bind_eq_ok.1 h
    cases h
    refine ⟨body, pieces, hbody, hpieces, rfl, rfl, rfl, rfl, rfl, ?_⟩
    exact instrsOf_append pieces _

theorem generateClass_eq_ok (h : generateClass table c source = .ok a) :
    Forall₂ (fun m code => generateMethod table c (.ofClass c) (classTexts c)
        (.ofText source) m = .ok code) c.methods a.methods ∧
      a = ⟨c.id, c.name, c.path.text, classFields c, a.methods, classTexts c,
        (ofClass c).host, (ofClass c).foreign.map (foreignImport table)⟩ := by
  obtain ⟨methods, hmethods, h⟩ := Except.bind_eq_ok.1 h
  cases h
  exact ⟨Except.forall₂_of_mapM hmethods, rfl⟩

theorem methodTypes_eq (h : generateClass table c source = .ok a) :
    a.methods.map MethodCode.type = c.methods.map methodType := by
  rw [eq_comm, ← forall₂_eq_eq_eq, forall₂_map_left_iff, forall₂_map_right_iff]
  refine (generateClass_eq_ok h).1.imp ?_
  intro m code hcode
  obtain ⟨-, -, -, -, -, hstatic, hparams, hresult, -, -⟩ := generateMethod_eq_ok hcode
  rw [MethodCode.type, hstatic, hparams, hresult, methodType]

theorem methodNames_eq (h : generateClass table c source = .ok a) :
    a.methods.map MethodCode.name = c.methods.map Method.name := by
  rw [eq_comm, ← forall₂_eq_eq_eq, forall₂_map_left_iff, forall₂_map_right_iff]
  refine (generateClass_eq_ok h).1.imp ?_
  intro m code hcode
  obtain ⟨-, -, -, -, hname, -⟩ := generateMethod_eq_ok hcode
  exact hname.symm

/-- The code of a method has its name and type. -/
theorem methodCode_of_method (h : generateClass table c source = .ok a) {index : Nat}
    (hm : c.methods[index]? = some m) :
    ∃ code, a.methods[index]? = some code ∧ code.name = m.name ∧ code.type = methodType m := by
  obtain ⟨code, hcode, hgenerated⟩ := forall₂_getElem?_left (generateClass_eq_ok h).1 hm
  obtain ⟨-, -, -, -, hname, hstatic, hparams, hresult, -, -⟩ := generateMethod_eq_ok hgenerated
  refine ⟨code, hcode, hname, ?_⟩
  rw [MethodCode.type, hstatic, hparams, hresult, methodType]

/-- The declared types of the functions are those of the callees, by number. -/
theorem functionTypes_eq (typed : Typed.ClassTyped table c.id c) (hc : table.get? c.id = some c)
    (h : generateClass table c source = .ok a) :
    a.functionTypes.map some = (functionSpace c).map (calleeType? table) := by
  have hforeign : ∀ ref ∈ (ofClass c).foreign,
      (some ∘ ForeignImport.type ∘ foreignImport table) ref =
        (calleeType? table ∘ Callee.method) ref := by
    intro ref href
    obtain ⟨owner, signature, leads⟩ := calls_of_mem_called typed (mem_plan_foreign.1 href).1
    cases leads with
    | method hd hfound hname =>
      simp [foreignImport, foreignImport?, calleeType?, hd, hfound, methodType]
  have hown : a.methods.map (some ∘ MethodCode.type) = c.methods.zipIdx.map
      (calleeType? table ∘ fun (m, index) => Callee.method ⟨c.id, index, m.name⟩) := by
    rw [← map_map, methodTypes_eq h]
    refine ext_getElem? fun i => ?_
    simp only [getElem?_map, getElem?_zipIdx, Nat.zero_add, Option.map_map]
    cases hm : c.methods[i]? with
    | none => rfl
    | some m => simp [calleeType?, hc, hm]
  rw [(generateClass_eq_ok h).2]
  simp only [Artifact.functionTypes, functionSpace, map_append, map_map]
  rw [hown, map_congr_left hforeign]
  rfl

/-- A foreign method of a new class is one of an earlier class, and imported under its names and with
its type. -/
theorem foreignImport_of_plan (typed : (table.push c).Typed) {ref : MethodRef}
    (h : ref ∈ (ofClass c).foreign) :
    ∃ d m, table.get? ref.owner = some d ∧ d.methods[ref.index]? = some m ∧
      foreignImport (table.push c) ref = ⟨d.path.text, m.name, methodType m⟩ := by
  have typedClass := typed table.size c ClassTable.get?_push_size
  obtain ⟨hcalled, hother⟩ := mem_plan_foreign.1 h
  obtain ⟨owner, signature, hcalls⟩ := calls_of_mem_called typedClass hcalled
  cases hcalls with
  | @method _ d m hd hm _ =>
    rcases ClassTable.get?_push_eq_some hd with hold | ⟨hlast, -⟩
    · refine ⟨d, m, hold, hm, ?_⟩
      simp [foreignImport, foreignImport?, hd, hm, methodType]
    · exact absurd (hlast.trans typedClass.id_eq.symm) hother

end ClassLang.Code
