import ClassLang.Code.Binary
import ClassLang.Proofs.MatchingChecks
import ClassLang.Typed.Printer

/-!
# Generating and printing what matches

Code refers to the classes that it calls by the texts of their paths, so their numbers leave no trace
in it. From classes that match at equal places, `generateClass` makes artifacts that differ in the
numbers within their types at most (`generateClass_agree`), and these have the same bytes
(`Artifact.Matches.bytes_eq`). The listing of a class names classes by their names
(`Class.MatchesWhole.text_eq`).
-/

set_option autoImplicit false

namespace ClassLang

open List Code.ImportPlan

variable {M : Matching} {t t' : List String}

theorem Ty.Matches.valType_eq {ty ty' : Ty} (h : ty.Matches M ty') :
    Code.valType ty' = Code.valType ty := by
  cases h <;> rfl

namespace Typed

theorem Expr.Matches.span_matches {e e' : Expr} (h : e.Matches M e') :
    M.places e.span e'.span := by
  cases h <;> assumption

theorem MethodRef.biUnique_matches (unique : Relator.BiUnique M.ids) :
    Relator.BiUnique (MethodRef.Matches M) := by
  constructor
  · rintro _ _ _ ⟨hij, index, name⟩ ⟨hij', _, _⟩
    rw [unique.1 hij hij']
  · rintro _ _ _ ⟨hij, index, name⟩ ⟨hij', _, _⟩
    rw [unique.2 hij hij']

theorem ClassTable.Matches.className_eq {table table' : ClassTable} (h : table.Matches M table')
    {i j : ClassId} (hij : M.ids i j) : table'.className j = table.className i := by
  have hget := h i j hij
  unfold ClassTable.className
  generalize table.get? i = found at hget
  generalize table'.get? j = found' at hget
  cases hget with
  | none => rfl
  | some hc => exact hc.name

end Typed

namespace Code

open Typed (Expr Callee MethodRef ClassTable Method ExprsMatch HolesMatch Agree)

/-! ## What a body needs -/

/-- Two bodies that call methods that match, hold the same texts and bind the same locals. -/
structure SameNeeds (M : Matching) (called called' : List Callee) (texts texts' : List String)
    (locals locals' : List (Nat × ValType)) : Prop where
  called : Forall₂ (Callee.Matches M) called called'
  texts : texts' = texts
  locals : locals' = locals

variable {c c' : List Callee} {l l' : List (Nat × ValType)} {callee callee' : Callee}
  {ctx ctx' : CodeContext}

namespace SameNeeds

theorem nil : SameNeeds M [] [] [] [] [] [] := ⟨.nil, rfl, rfl⟩

theorem append {c₁ c₁' c₂ c₂' : List Callee} {t₁ t₁' t₂ t₂' : List String}
    {l₁ l₁' l₂ l₂' : List (Nat × ValType)} (h₁ : SameNeeds M c₁ c₁' t₁ t₁' l₁ l₁')
    (h₂ : SameNeeds M c₂ c₂' t₂ t₂' l₂ l₂') :
    SameNeeds M (c₁ ++ c₂) (c₁' ++ c₂') (t₁ ++ t₂) (t₁' ++ t₂') (l₁ ++ l₂) (l₁' ++ l₂') :=
  ⟨rel_append h₁.called h₂.called, by rw [h₁.texts, h₂.texts], by rw [h₁.locals, h₂.locals]⟩

theorem call (h : SameNeeds M c c' t t' l l') (hcallee : callee.Matches M callee') :
    SameNeeds M (callee :: c) (callee' :: c') t t' l l' :=
  ⟨.cons hcallee h.called, h.texts, h.locals⟩

theorem text (h : SameNeeds M c c' t t' l l') (head : List String) :
    SameNeeds M c c' (head ++ t) (head ++ t') l l' :=
  ⟨h.called, by rw [h.texts], h.locals⟩

theorem binds (h : SameNeeds M c c' t t' l l') (id : Nat) {ty ty' : Ty} (hty : ty.Matches M ty') :
    SameNeeds M c c' t t' ((id, valType ty) :: l) ((id, valType ty') :: l') :=
  ⟨h.called, h.texts, by rw [h.locals, hty.valType_eq]⟩

end SameNeeds

mutual

theorem sameNeeds {e e' : Expr} : e.Matches M e' →
    SameNeeds M (callees e) (callees e') (textsOf e) (textsOf e') (boundLocals e) (boundLocals e')
  | .localVar .. => .nil
  | .param .. => .nil
  | .receiver .. => .nil
  | .slot _ _ _ htarget => by
    have hneeds := sameNeeds htarget
    exact hneeds
  | .methodCall _ _ hcallee htarget hargs =>
    ((sameNeeds htarget).append (sameNeedsList hargs)).call hcallee
  | .staticCall _ _ hcallee hargs => (sameNeedsList hargs).call hcallee
  | .letIn _ hpattern hvalue hbody => by
    have hneeds := (sameNeeds hvalue).append (sameNeeds hbody)
    cases hpattern with
    | ignore _ => exact hneeds
    | single _ hty id _ => exact hneeds.binds id hty
  | .seq _ hfirst hbody => (sameNeeds hfirst).append (sameNeeds hbody)
  | .literal _ value => by
    cases value with
    | int _ => exact .nil
    | float _ => exact .nil
    | str text => exact SameNeeds.nil.text [text]
  | .quote _ head hholes => ((sameNeedsHoles hholes).text [head]).call (.builtin .stringConcat)

theorem sameNeedsList {es es' : List Expr} : ExprsMatch M es es' →
    SameNeeds M (calleesList es) (calleesList es') (textsList es) (textsList es')
      (boundLocalsList es) (boundLocalsList es')
  | .nil => .nil
  | .cons hfirst hrest => (sameNeeds hfirst).append (sameNeedsList hrest)

theorem sameNeedsHoles {holes holes' : List (Expr × String)} : HolesMatch M holes holes' →
    SameNeeds M (calleesHoles holes) (calleesHoles holes') (textsHoles holes) (textsHoles holes')
      (boundLocalsHoles holes) (boundLocalsHoles holes')
  | .nil => .nil
  | .cons hfirst _ hrest => by
    rw [textsHoles, textsHoles, append_assoc, append_assoc]
    exact (sameNeeds hfirst).append ((sameNeedsHoles hrest).text _)

end

/-! ## What a class imports -/

section Lists

variable {α β : Type} {R : α → β → Prop} [DecidableEq α] [DecidableEq β]

theorem forall₂_firsts (unique : Relator.BiUnique R) {as : List α} {bs : List β}
    (h : Forall₂ R as bs) : Forall₂ R (firsts as) (firsts bs) := by
  refine rel_foldl ?_ Forall₂.nil h
  intro known known' hknown a b hab
  have hmem : a ∈ known ↔ b ∈ known' := rel_mem unique hab hknown
  simp only [hmem]
  split
  · exact hknown
  · exact rel_append hknown (.cons hab .nil)

theorem forall₂_idxOf? (unique : Relator.BiUnique R) {as : List α} {bs : List β}
    (h : Forall₂ R as bs) {a : α} {b : β} (hab : R a b) : bs.idxOf? b = as.idxOf? a := by
  induction h with
  | nil => rfl
  | @cons c d _ _ hcd _ ih =>
    have heq : c = a ↔ d = b := Relator.rel_eq unique hcd hab
    simp only [idxOf?_cons, beq_iff_eq, heq, ih]

end Lists

/-- Two plans with the same functions of the host and with methods that match. -/
structure ImportPlan.Matches (M : Matching) (plan plan' : ImportPlan) : Prop where
  host : plan'.host = plan.host
  foreign : Forall₂ (MethodRef.Matches M) plan.foreign plan'.foreign

theorem hostBuiltin?_eq (h : callee.Matches M callee') :
    Option.Rel Eq (hostBuiltin? callee) (hostBuiltin? callee') := by
  cases h with
  | method _ => exact .none
  | builtin b =>
    cases hostBuiltin? (.builtin b) with
    | none => exact .none
    | some b' => exact .some rfl

theorem foreignMethod?_matches (unique : Relator.BiUnique M.ids) {owner owner' : ClassId}
    (howner : M.ids owner owner') (h : callee.Matches M callee') :
    Option.Rel (MethodRef.Matches M) (foreignMethod? owner callee)
      (foreignMethod? owner' callee') := by
  cases h with
  | builtin b => exact .none
  | method href =>
    cases href with
    | @«at» i j hij index name =>
      have hown : i = owner ↔ j = owner' := Relator.rel_eq unique hij howner
      simp only [foreignMethod?, hown]
      split
      · exact .none
      · exact .some (.at hij index name)

section Classes

variable {c c' : Typed.Class}

theorem bodies_match (h : c.MatchesWhole M c') :
    Forall₂ (Expr.Matches M) (c.methods.filterMap Method.body)
      (c'.methods.filterMap Method.body) :=
  rel_filterMap (fun _ _ hm => hm.body) h.bodies

theorem ofClass_matches (unique : Relator.BiUnique M.ids) (h : c.MatchesWhole M c') :
    (ofClass c).Matches M (ofClass c') := by
  have hcalled := rel_flatMap (bodies_match h) fun _ _ he => (sameNeeds he).called
  constructor
  · have hhost := rel_filterMap (fun _ _ hcallee => hostBuiltin?_eq hcallee) hcalled
    rw [forall₂_eq_eq_eq] at hhost
    exact congrArg firsts hhost.symm
  · have hforeign := rel_filterMap
      (fun _ _ hcallee => foreignMethod?_matches unique h.id hcallee) hcalled
    exact forall₂_firsts (Typed.MethodRef.biUnique_matches unique) hforeign

theorem classTexts_eq (h : c.MatchesWhole M c') : classTexts c' = classTexts c := by
  have htexts := map_eq_of_forall₂ (R := Expr.Matches M) (fun _ _ he => (sameNeeds he).texts)
    (bodies_match h)
  rw [classTexts, classTexts, flatMap_def, flatMap_def, htexts]

end Classes

/-! ## Code of expressions -/

/-- Two contexts of code from which nothing but the numbers of classes is told apart. -/
structure CodeContext.Matches (M : Matching) (ctx ctx' : CodeContext) : Prop where
  unique : Relator.BiUnique M.ids
  places : ∀ span span', M.places span span' → span = span'
  table : ctx.table.Matches M ctx'.table
  owner : M.ids ctx.owner ctx'.owner
  plan : ctx.plan.Matches M ctx'.plan
  texts : ctx'.texts = ctx.texts
  lines : ctx'.lines = ctx.lines
  paramBase : ctx'.paramBase = ctx.paramBase
  localBase : ctx'.localBase = ctx.localBase

section Emit

variable (hctx : ctx.Matches M ctx')

include hctx

theorem callInstr_agree (span span' : Span) (h : callee.Matches M callee') :
    Agree Eq (ctx.callInstr span callee) (ctx'.callInstr span' callee') := by
  unfold CodeContext.callInstr
  cases h with
  | builtin b =>
    dsimp only
    rw [hctx.plan.host]
    split
    · exact .ok rfl
    · exact .ok rfl
    · exact .error _ _
  | method href =>
    have hindex := forall₂_idxOf? (Typed.MethodRef.biUnique_matches hctx.unique)
      hctx.plan.foreign href
    cases href with
    | @«at» i j hij index name =>
      have hown : i = ctx.owner ↔ j = ctx'.owner := Relator.rel_eq hctx.unique hij hctx.owner
      have hbase : ctx'.plan.ownBase = ctx.plan.ownBase := by
        rw [ownBase, ownBase, hctx.plan.host,
          hctx.plan.foreign.length_eq]
      simp only [hown, hbase, hindex, hctx.plan.host]
      split
      · exact .ok rfl
      · exact .ok rfl
      · exact .error _ _

theorem slotType_eq {ref ref' : Typed.SlotRef} (h : ref.Matches M ref') :
    ctx'.slotType ref' = ctx.slotType ref := by
  cases h with
  | @«at» i j hij index name =>
    have hget := hctx.table i j hij
    unfold CodeContext.slotType
    dsimp only
    generalize ctx.table.get? i = found at hget
    generalize ctx'.table.get? j = found' at hget
    cases hget with
    | none => rfl
    | @some c c' hc =>
      have hslot := Typed.forall₂_getElem? hc.slots index
      rw [Option.bind_some, Option.bind_some]
      generalize c.slots[index]? = slot at hslot
      generalize c'.slots[index]? = slot' at hslot
      cases hslot with
      | none => rfl
      | some hslot => exact hslot.ty.valType_eq

theorem textCode_eq (text : String) : ctx'.textCode text = ctx.textCode text := by
  rw [CodeContext.textCode, CodeContext.textCode, hctx.texts]

theorem mark_eq {e e' : Expr} (h : e.Matches M e') : ctx'.mark e'.span = ctx.mark e.span := by
  rw [CodeContext.mark, CodeContext.mark, hctx.lines, hctx.places _ _ h.span_matches]

end Emit

mutual

/-- Expressions that match have the same code. -/
theorem emit_agree (hctx : ctx.Matches M ctx') {e e' : Expr} :
    e.Matches M e' → Agree Eq (emit ctx e) (emit ctx' e')
  | .localVar .. => by
    rw [emit, emit, hctx.localBase]
    exact .ok rfl
  | .param .. => by
    rw [emit, emit, hctx.paramBase]
    exact .ok rfl
  | .receiver .. => by
    rw [emit, emit]
    exact .ok rfl
  | .slot _ _ href htarget => by
    rw [emit, emit, slotType_eq hctx href]
    refine (emit_agree hctx htarget).bind_eq fun target => ?_
    cases href
    exact .ok rfl
  | .methodCall _ _ hcallee htarget hargs => by
    rw [emit, emit]
    refine (emit_agree hctx htarget).bind_eq fun target => ?_
    refine (emitList_agree hctx hargs).bind_eq fun args => ?_
    refine (callInstr_agree hctx _ _ hcallee).bind_eq fun call => ?_
    exact .ok rfl
  | .staticCall _ _ hcallee hargs => by
    rw [emit, emit]
    refine (emitList_agree hctx hargs).bind_eq fun args => ?_
    refine (callInstr_agree hctx _ _ hcallee).bind_eq fun call => ?_
    exact .ok rfl
  | .letIn _ hpattern hvalue hbody => by
    simp only [emit, mark_eq hctx hbody]
    refine (emit_agree hctx hvalue).bind_eq fun value => ?_
    refine (emit_agree hctx hbody).bind_eq fun body => ?_
    cases hpattern with
    | ignore _ => exact .ok rfl
    | single _ _ id _ =>
      dsimp only
      rw [hctx.localBase]
      exact .ok rfl
  | .seq _ hfirst hbody => by
    rw [emit, emit, mark_eq hctx hbody]
    refine (emit_agree hctx hfirst).bind_eq fun first => ?_
    refine (emit_agree hctx hbody).bind_eq fun body => ?_
    exact .ok rfl
  | .literal _ value => by
    cases value with
    | int _ | float _ =>
      rw [emit, emit]
      exact .ok rfl
    | str text =>
      rw [emit, emit, textCode_eq hctx]
      exact .ok rfl
  | .quote _ _ hholes => by
    rw [emit, emit, textCode_eq hctx]
    refine (emitHoles_agree hctx hholes).bind_eq fun holes => ?_
    exact .ok rfl

theorem emitList_agree (hctx : ctx.Matches M ctx') {es es' : List Expr} :
    ExprsMatch M es es' → Agree Eq (emitList ctx es) (emitList ctx' es')
  | .nil => .ok rfl
  | .cons hfirst hrest => by
    rw [emitList, emitList]
    refine (emit_agree hctx hfirst).bind_eq fun first => ?_
    refine (emitList_agree hctx hrest).bind_eq fun rest => ?_
    exact .ok rfl

theorem emitHoles_agree (hctx : ctx.Matches M ctx') {holes holes' : List (Expr × String)} :
    HolesMatch M holes holes' →
      Agree Eq (emitHoles ctx holes) (emitHoles ctx' holes')
  | .nil => .ok rfl
  | .cons hfirst _ hrest => by
    rw [emitHoles, emitHoles, textCode_eq hctx]
    refine (emit_agree hctx hfirst).bind_eq fun code => ?_
    refine (callInstr_agree hctx _ _ (.builtin .stringConcat)).bind_eq fun concat => ?_
    refine (emitHoles_agree hctx hrest).bind_eq fun others => ?_
    exact .ok rfl

end

/-! ## Artifacts -/

structure MethodCode.Matches (M : Matching) (m m' : MethodCode) : Prop where
  name : m'.name = m.name
  isStatic : m'.isStatic = m.isStatic
  params : Forall₂ (Ty.Matches M) m.params m'.params
  result : m.result.Matches M m'.result
  locals : m'.locals = m.locals
  code : m'.code = m.code
  lines : m'.lines = m.lines

structure Field.Matches (M : Matching) (field field' : Field) : Prop where
  name : field'.name = field.name
  ty : field.ty.Matches M field'.ty
  offset : field'.offset = field.offset

/-- Two artifacts that differ in the numbers of classes at most: their own, and those in the types of
their fields and methods. -/
structure Artifact.Matches (M : Matching) (a a' : Artifact) : Prop where
  className : a'.className = a.className
  moduleName : a'.moduleName = a.moduleName
  fields : Forall₂ (Field.Matches M) a.fields a'.fields
  methods : Forall₂ (MethodCode.Matches M) a.methods a'.methods
  texts : a'.texts = a.texts
  hostImports : a'.hostImports = a.hostImports
  foreignImports : a'.foreignImports = a.foreignImports

theorem operandTypes_match (isStatic : Bool) {params params' : List Ty}
    (h : Forall₂ (Ty.Matches M) params params') :
    operandTypes isStatic params' = operandTypes isStatic params := by
  rw [operandTypes, operandTypes, map_eq_of_forall₂ (R := Ty.Matches M) (f := valType)
    (fun _ _ hty => hty.valType_eq) h]

theorem paramTypes_match {m m' : Method} (h : m.Matches M m') :
    Forall₂ (Ty.Matches M) m.paramTypes m'.paramTypes := h.signature.params

theorem localTypes_eq {e e' : Expr} (h : e.Matches M e') : localTypes e' = localTypes e := by
  rw [localTypes, localTypes, (sameNeeds h).locals]

section Classes

variable {table table' : ClassTable} {c c' : Typed.Class} {m m' : Method}

theorem generateMethod_agree (unique : Relator.BiUnique M.ids)
    (places : ∀ span span', M.places span span' → span = span') (htable : table.Matches M table')
    (hid : M.ids c.id c'.id) {plan plan' : ImportPlan} (hplan : plan.Matches M plan')
    (texts : List String) (lines : LineIndex) (hm : m.MatchesWhole M m') :
    Agree (MethodCode.Matches M) (generateMethod table c plan texts lines m)
      (generateMethod table' c' plan' texts lines m') := by
  have hparams := paramTypes_match hm.toMatches
  have hctx : (methodContext table c plan texts lines m).Matches M
      (methodContext table' c' plan' texts lines m') := by
    refine ⟨unique, places, htable, hid, hplan, rfl, rfl, ?_, ?_⟩
    · rw [methodContext, methodContext, hm.isStatic]
    · rw [methodContext, methodContext, hm.isStatic, operandTypes_match _ hparams]
  have hbody := hm.body
  unfold generateMethod
  generalize m.body = body at hbody
  generalize m'.body = body' at hbody
  cases hbody with
  | none => exact .error _ _
  | some he =>
    refine (emit_agree hctx he).bind_eq fun pieces => ?_
    rw [mark_eq hctx he]
    exact .ok ⟨hm.name, hm.isStatic, hparams, hm.returnType, localTypes_eq he, rfl, rfl⟩

theorem foreignImport_eq (htable : table.Matches M table') {ref ref' : MethodRef}
    (h : ref.Matches M ref') : foreignImport table' ref' = foreignImport table ref := by
  cases h with
  | @«at» i j hij index name =>
    have hget := htable i j hij
    rw [foreignImport, foreignImport, foreignImport?, foreignImport?]
    dsimp only
    generalize table.get? i = found at hget
    generalize table'.get? j = found' at hget
    cases hget with
    | none => rfl
    | @some c c' hc =>
      have hmethod := Typed.forall₂_getElem? hc.methods index
      simp only [Option.bind_eq_bind, Option.bind_some]
      generalize c.methods[index]? = m at hmethod
      generalize c'.methods[index]? = m' at hmethod
      cases hmethod with
      | none => rfl
      | some hm =>
        simp only [Option.bind_some]
        rw [hc.path, hm.name, hm.isStatic, operandTypes_match _ (paramTypes_match hm),
          hm.returnType.valType_eq]

theorem classFields_match (h : c.Matches M c') :
    Forall₂ (Field.Matches M) (classFields c) (classFields c') := by
  refine rel_map ?_ (Typed.forall₂_zipIdx h.slots 0)
  rintro ⟨slot, index⟩ ⟨slot', index'⟩ ⟨hslot, hindex⟩
  obtain rfl : index = index' := hindex
  exact ⟨hslot.name, hslot.ty, rfl⟩

/-- **Generating a class does not depend on how the classes are numbered.** -/
theorem generateClass_agree (unique : Relator.BiUnique M.ids)
    (places : ∀ span span', M.places span span' → span = span') (htable : table.Matches M table')
    (h : c.MatchesWhole M c') (source : String) :
    Agree (Artifact.Matches M) (generateClass table c source) (generateClass table' c' source) := by
  have hplan := ofClass_matches unique h
  have hforeign := map_eq_of_forall₂ (fun _ _ href => foreignImport_eq htable href) hplan.foreign
  unfold generateClass
  rw [classTexts_eq h]
  refine (Agree.mapM (fun _ _ hm => generateMethod_agree unique places htable h.id hplan _ _ hm)
    h.bodies).bind ?_
  intro methods methods' hmethods
  exact .ok ⟨h.name, congrArg ModulePath.text h.path, classFields_match h.toMatches, hmethods, rfl,
    hplan.host, hforeign⟩

end Classes

theorem MethodCode.Matches.type_eq {m m' : MethodCode} (h : m.Matches M m') : m'.type = m.type := by
  rw [MethodCode.type, MethodCode.type, h.isStatic, operandTypes_match _ h.params, h.result.valType_eq]

/-- The numbers of classes are not in the bytes. -/
theorem Artifact.Matches.bytes_eq {a a' : Artifact} (h : a.Matches M a') : a'.bytes = a.bytes := by
  have htypes : a'.functionTypes = a.functionTypes := by
    rw [functionTypes, functionTypes, h.hostImports, h.foreignImports,
      map_eq_of_forall₂ (fun _ _ hm => hm.type_eq) h.methods]
  have hbase : a'.ownBase = a.ownBase := by
    rw [ownBase, ownBase, h.hostImports, h.foreignImports]
  have himports : Binary.imports a' = Binary.imports a := by
    rw [Binary.imports, Binary.imports, h.hostImports, h.foreignImports, h.moduleName]
  have hexports : Binary.exports a' = Binary.exports a := by
    refine map_eq_of_forall₂ ?_ (Typed.forall₂_zipIdx h.methods 0)
    rintro ⟨m, index⟩ ⟨m', index'⟩ ⟨hm, hindex⟩
    obtain rfl : index = index' := hindex
    dsimp only
    rw [hm.name, hbase]
  have hbodies : a'.methods.map Binary.body = a.methods.map Binary.body := by
    refine map_eq_of_forall₂ ?_ h.methods
    intro m m' hm
    rw [Binary.body, Binary.body, hm.locals, hm.code]
  rw [bytes, bytes, htypes, himports, hexports, hbodies, hbase, ← h.methods.length_eq]

end Code

/-! ## Listings -/

namespace Typed

section Texts

variable {table table' : ClassTable} (htable : table.Matches M table')

include htable

theorem Callee.Matches.text_eq {callee callee' : Callee} (h : callee.Matches M callee') :
    callee'.text table' = callee.text table := by
  cases h with
  | builtin b => rfl
  | method href =>
    cases href with
    | «at» hij index name => rw [Callee.text, Callee.text, htable.className_eq hij]

omit htable in
theorem Pattern.Matches.text_eq {pattern pattern' : Pattern} (h : pattern.Matches M pattern') :
    pattern'.text = pattern.text := by
  cases h with
  | ignore _ => rfl
  | single _ hty id name => rw [Pattern.text, Pattern.text, hty.name_eq]

end Texts

variable {table table' : ClassTable}

mutual

theorem Expr.Matches.text_eq (htable : table.Matches M table') {e e' : Expr} :
    e.Matches M e' → e'.text table' = e.text table
  | .localVar _ hty _ _ => by rw [Expr.text, Expr.text, hty.name_eq]
  | .param _ hty _ _ => by rw [Expr.text, Expr.text, hty.name_eq]
  | .receiver _ hty => by rw [Expr.text, Expr.text, hty.name_eq]
  | .slot _ hty href htarget => by
    cases href
    rw [Expr.text, Expr.text, hty.name_eq, htarget.text_eq htable]
  | .methodCall _ hty hcallee htarget hargs => by
    rw [Expr.text, Expr.text, hty.name_eq, hcallee.text_eq htable, htarget.text_eq htable,
      hargs.texts_eq htable]
  | .staticCall _ hty hcallee hargs => by
    rw [Expr.text, Expr.text, hty.name_eq, hcallee.text_eq htable, hargs.texts_eq htable]
  | .letIn _ hpattern hvalue hbody => by
    rw [Expr.text, Expr.text, hpattern.text_eq, hvalue.text_eq htable, hbody.text_eq htable]
  | .seq _ hfirst hbody => by
    rw [Expr.text, Expr.text, hfirst.text_eq htable, hbody.text_eq htable]
  | .literal _ _ => by rw [Expr.text, Expr.text]
  | .quote _ _ hholes => by rw [Expr.text, Expr.text, hholes.texts_eq htable]

theorem ExprsMatch.texts_eq (htable : table.Matches M table') {es es' : List Expr} :
    ExprsMatch M es es' → exprTexts table' es' = exprTexts table es
  | .nil => by rw [exprTexts, exprTexts]
  | .cons hfirst hrest => by
    rw [exprTexts, exprTexts, hfirst.text_eq htable, hrest.texts_eq htable]

theorem HolesMatch.texts_eq (htable : table.Matches M table')
    {holes holes' : List (Expr × String)} : HolesMatch M holes holes' →
      holeTexts table' holes' = holeTexts table holes
  | .nil => by rw [holeTexts, holeTexts]
  | .cons hfirst _ hrest => by
    rw [holeTexts, holeTexts, hfirst.text_eq htable, hrest.texts_eq htable]

end

theorem Slot.Matches.text_eq {slot slot' : Slot} (h : slot.Matches M slot') :
    slot'.text = slot.text := by
  rw [Slot.text, Slot.text, h.mutable, h.ty.name_eq, h.name]

theorem Method.MatchesWhole.text_eq (htable : table.Matches M table') {m m' : Method}
    (h : m.MatchesWhole M m') : m'.text table' = m.text table := by
  have hparams : m'.params.map (fun param => ClassLang.Tree.listText [param.ty.name, param.name]) =
      m.params.map (fun param => ClassLang.Tree.listText [param.ty.name, param.name]) := by
    refine map_eq_of_forall₂ ?_ h.params
    intro param param' hparam
    rw [hparam.ty.name_eq, hparam.name]
  have hbody : m'.body.map (Expr.text table') = m.body.map (Expr.text table) := by
    have hbody := h.body
    generalize m.body = body at hbody
    generalize m'.body = body' at hbody
    cases hbody with
    | none => rw [Option.map_none, Option.map_none]
    | some he => rw [Option.map_some, Option.map_some, he.text_eq htable]
  rw [Method.text, Method.text, hparams, hbody, h.isStatic, h.returnType.name_eq, h.name]

/-- Classes that match are listed alike. -/
theorem Class.MatchesWhole.text_eq (htable : table.Matches M table') {c c' : Class}
    (h : c.MatchesWhole M c') : c'.text table' = c.text table := by
  have hslots := map_eq_of_forall₂ (fun _ _ hslot => Slot.Matches.text_eq hslot) h.slots
  have hmethods := map_eq_of_forall₂ (fun _ _ hm => Method.MatchesWhole.text_eq htable hm) h.bodies
  rw [Class.text, Class.text, h.path, h.name, hslots, hmethods]

end Typed

end ClassLang
