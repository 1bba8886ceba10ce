import ClassLang.Proofs.Elaboration
import ClassLang.Proofs.Numbering

/-!
# Soundness of the checker

What the checker accepts obeys the typing rules. A body is checked while the table holds only the
outline of its class, so `Elaborates.sound` speaks about that table, and `checkModule_typed` carries
the result over to the table with the bodies filled in. The main statement is
`wellTyped_of_reached`: every body in a table that any sequence of checks reaches is well typed.
-/

set_option autoImplicit false

namespace ClassLang.Typed

open List Class TypeScope

/-! ## Members that are found -/

variable {α : Type} {index : Nat} {c outline : Class} {name : String} {ty : Ty} {scope : Scope}
  {steps : Nat → Nat} {types : TypeScope} {path : ModulePath} {imports : List (Span × ClassId)}
  {wanted : String} {items : List α} {item : α} {slot : Slot} {m : Method}
  {table table' : ClassTable} {c' start owner : Class} {tree : Tree.Method}
  {trees : List Tree.Method} {id : ClassId}

theorem Class.getElem?_of_indexed? {name : α → String}
    (h : indexed? name wanted items = some (index, item)) :
    items[index]? = some item ∧ name item = wanted := by
  obtain ⟨⟨found, place⟩, hfind, heq⟩ := Option.map_eq_some_iff.1 h
  cases heq
  have hmem := mem_of_find?_eq_some hfind
  have hname := find?_some hfind
  exact ⟨mem_zipIdx_iff_getElem?.1 hmem, of_decide_eq_true hname⟩

theorem Class.slot_of_member? (h : c.member? name = some (.slot index slot)) :
    c.slots[index]? = some slot ∧ slot.name = name := by
  unfold member? at h
  split at h
  · next i s hs =>
    cases Option.some.inj h
    exact getElem?_of_indexed? hs
  · obtain ⟨⟨i, m⟩, _, heq⟩ := Option.map_eq_some_iff.1 h
    exact nomatch heq

theorem Class.method_of_member? (h : c.member? name = some (.method index m)) :
    c.methods[index]? = some m ∧ m.name = name := by
  unfold member? at h
  split at h
  · exact nomatch Option.some.inj h
  · obtain ⟨⟨i, m'⟩, hm, heq⟩ := Option.map_eq_some_iff.1 h
    cases heq
    exact getElem?_of_indexed? hm

/-- The table knows every type that its classes declare; their bodies do not matter. -/
def ClassTable.Outlined (table : ClassTable) : Prop :=
  ∀ id c, table.get? id = some c →
    (∀ slot ∈ c.slots, table.Knows slot.ty) ∧
    ∀ m ∈ c.methods, table.Knows m.returnType ∧ ∀ p ∈ m.params, table.Knows p.ty

theorem calls_of_find? (outlined : table.Outlined) (known : table.Knows ty) {callee : Callee}
    {signature : Signature} (h : find? table ty name = some (.method callee signature)) :
    table.Calls callee ty signature ∧ table.Knows signature.result := by
  rcases find?_method_inv h with
    ⟨b, rfl, rfl, -, rfl⟩ | ⟨ref, className, c, m, rfl, rfl, rfl, hc, hm, rfl⟩
  · exact ⟨.builtin b, trivial⟩
  obtain ⟨_, hc', rfl⟩ := known
  cases hc.symm.trans hc'
  obtain ⟨hfound, hname⟩ := method_of_member? hm
  have hmem := mem_of_getElem? hfound
  exact ⟨.method hc hfound hname, ((outlined _ c hc).2 m hmem).1⟩

theorem slot_of_find? (outlined : table.Outlined) (known : table.Knows ty) {ref : SlotRef}
    {slotTy : Ty} (h : find? table ty name = some (.slot ref slotTy)) :
    ∃ c slot, table.get? ref.owner = some c ∧ c.slots[ref.index]? = some slot ∧
      slot.name = ref.name ∧ slotTy = slot.ty ∧ ty = .object ref.owner c.name ∧
      table.Knows slotTy := by
  obtain ⟨className, c, slot, rfl, rfl, hc, hm, rfl⟩ := find?_slot_inv h
  obtain ⟨_, hc', rfl⟩ := known
  cases hc.symm.trans hc'
  obtain ⟨hfound, hname⟩ := slot_of_member? hm
  have hmem := mem_of_getElem? hfound
  exact ⟨c, slot, hc, hfound, hname, rfl, rfl, (outlined _ c hc).1 slot hmem⟩

/-! ## Bodies -/

/-- The context in which the rules judge what is checked in `ctx`. -/
def BodyContext.typing (ctx : BodyContext) : TypingContext :=
  ⟨ctx.table, ctx.owner.ty, ctx.method.isStatic, ctx.method.params⟩

/-- What a body can rely on while it is checked: the class is in the table, and the table knows all
types that are declared in it or can be written. -/
structure BodyContext.Sound (ctx : BodyContext) : Prop where
  outlined : ctx.table.Outlined
  owner : ctx.table.get? ctx.owner.id = some ctx.owner
  types : ∀ name ty, ctx.types.lookup? name = some ty → ctx.table.Knows ty

theorem Scope.mem_of_lookup? {entry : ScopeEntry} (bound : scope.lookup? name = some entry) :
    entry ∈ scope ∧ entry.name = name := by
  unfold Scope.lookup? at bound
  have hname := find?_some bound
  exact ⟨mem_of_find?_eq_some bound, of_decide_eq_true hname⟩

/-- Every name in scope is a parameter of the method or one of the locals `vars`. -/
structure ScopeFits (ctx : TypingContext) (scope : Scope) (vars : List LocalVar) : Prop where
  params : ∀ entry ∈ scope, ∀ index, entry.binding = .param index →
    ∃ p, ctx.params[index]? = some p ∧ p.name = entry.name ∧ p.ty = entry.ty
  locals : ∀ entry ∈ scope, ∀ id, entry.binding = .localVar id → ⟨id, entry.name, entry.ty⟩ ∈ vars
  known : ∀ entry ∈ scope, ctx.table.Knows entry.ty

theorem ScopeFits.cons_local {ctx : TypingContext} {vars : List LocalVar}
    (fits : ScopeFits ctx scope vars) (known : ctx.table.Knows ty) (id : Nat) (name : String) :
    ScopeFits ctx (⟨name, .localVar id, ty⟩ :: scope) (⟨id, name, ty⟩ :: vars) where
  params entry hentry index hbinding := by
    rcases mem_cons.1 hentry with rfl | hold
    · exact nomatch hbinding
    · exact fits.params entry hold index hbinding
  locals entry hentry i hbinding := by
    rcases mem_cons.1 hentry with rfl | hold
    · cases hbinding
      exact mem_cons_self
    · exact mem_cons_of_mem _ (fits.locals entry hold i hbinding)
  known entry hentry := by
    rcases mem_cons.1 hentry with rfl | hold
    · exact known
    · exact fits.known entry hold

theorem ScopeFits.ofParams {ctx : TypingContext}
    (known : ∀ p ∈ ctx.params, ctx.table.Knows p.ty) :
    ScopeFits ctx (Scope.ofParams ctx.params) [] := by
  have origin : ∀ entry ∈ Scope.ofParams ctx.params, ∃ p index, ctx.params[index]? = some p ∧
      entry = ⟨p.name, .param index, p.ty⟩ := by
    intro entry hentry
    obtain ⟨⟨p, index⟩, hp, rfl⟩ := mem_map.1 (mem_reverse.1 hentry)
    exact ⟨p, index, mem_zipIdx_iff_getElem?.1 hp, rfl⟩
  refine ⟨?_, ?_, ?_⟩
  · intro entry hentry index hbinding
    obtain ⟨p, i, hp, rfl⟩ := origin entry hentry
    cases hbinding
    exact ⟨p, hp, rfl, rfl⟩
  · intro entry hentry id hbinding
    obtain ⟨p, i, hp, rfl⟩ := origin entry hentry
    exact nomatch hbinding
  · intro entry hentry
    obtain ⟨p, i, hp, rfl⟩ := origin entry hentry
    exact known p (mem_of_getElem? hp)

/-- The locals that a part of a body binds: each once, and all numbered from `n` on and below
`k`. -/
structure FreshLocals (n k : Nat) (bound : List (Nat × Code.ValType)) : Prop where
  le : n ≤ k
  within : ∀ b ∈ bound, n ≤ b.1 ∧ b.1 < k
  once : (bound.map Prod.fst).Nodup

namespace FreshLocals

variable {n m k : Nat} {a b : List (Nat × Code.ValType)}

theorem nil (n : Nat) : FreshLocals n n [] :=
  ⟨Nat.le_refl n, by simp, nodup_nil⟩

theorem append (ha : FreshLocals n m a) (hb : FreshLocals m k b) : FreshLocals n k (a ++ b) where
  le := Nat.le_trans ha.le hb.le
  within x hx := by
    rcases mem_append.1 hx with h | h
    · exact ⟨(ha.within x h).1, Nat.lt_of_lt_of_le (ha.within x h).2 hb.le⟩
    · exact ⟨Nat.le_trans ha.le (hb.within x h).1, (hb.within x h).2⟩
  once := by
    rw [map_append]
    refine nodup_append.2 ⟨ha.once, hb.once, ?_⟩
    rintro i hi j hj rfl
    obtain ⟨x, hx, rfl⟩ := mem_map.1 hi
    obtain ⟨y, hy, hxy⟩ := mem_map.1 hj
    have hlow := (ha.within x hx).2
    have hhigh := (hb.within y hy).1
    omega

/-- A declaration numbers its local between those of its value and those of its body. -/
theorem declare (ha : FreshLocals n m a) (hb : FreshLocals (m + 1) k b) (ty : Code.ValType) :
    FreshLocals n k ((m, ty) :: a ++ b) := by
  have hone : FreshLocals m (m + 1) [(m, ty)] :=
    ⟨Nat.le_succ m, by simp, by simp⟩
  have hall := (ha.append hone).append hb
  refine ⟨hall.le, ?_, ?_⟩
  · intro x hx
    refine hall.within x ?_
    simp only [cons_append, mem_cons, mem_append, not_mem_nil, or_false] at hx ⊢
    tauto
  · -- the declared local is listed first, but numbered between its value and its body
    refine (Perm.nodup_iff (Perm.map Prod.fst ?_)).1 hall.once
    exact Perm.append_right b perm_append_comm

end FreshLocals

/-- Parts that are numbered one after the other. -/
theorem FreshLocals.of_each {f : α → List (Nat × Code.ValType)}
    (each : ∀ i item, items[i]? = some item → FreshLocals (steps i) (steps (i + 1)) (f item)) :
    FreshLocals (steps 0) (steps items.length) (items.flatMap f) := by
  induction items generalizing steps with
  | nil => exact .nil _
  | cons item items ih =>
    have hrest := @ih (fun i => steps (i + 1)) fun i item' hitem => each (i + 1) item' hitem
    exact (each 0 item rfl).append hrest

section Bodies

variable {ctx : BodyContext}

theorem BodyContext.Sound.knows_owner (sound : ctx.Sound) : ctx.table.Knows ctx.owner.ty :=
  ⟨ctx.owner, sound.owner, rfl⟩

/-- A method of the class itself is called through its type. -/
theorem BodyContext.Sound.ownMethod (sound : ctx.Sound)
    (found : ctx.owner.member? name = some (.method index m)) :
    ctx.table.Calls (.method ⟨ctx.owner.id, index, name⟩) ctx.owner.ty m.signature ∧
      ctx.table.Knows m.returnType := by
  obtain ⟨hfound, hname⟩ := method_of_member? found
  have hmem := mem_of_getElem? hfound
  exact ⟨.method sound.owner hfound hname, ((sound.outlined _ _ sound.owner).2 m hmem).1⟩

/-- What the checker promises about an expression: it obeys the typing rules and binds its locals
under fresh numbers. -/
structure Accepted (ctx : TypingContext) (vars : List LocalVar) (n k : Nat) (e : Expr) : Prop where
  typed : WellTyped ctx vars e
  fresh : FreshLocals n k (Code.boundLocals e)

variable {vars : List LocalVar}

/-- The promise for arguments and holes, which are elaborated one after the other. -/
theorem accepted_each {ctx : TypingContext} {β : Type} {trees : List α} {items : List β}
    {g : β → Expr} (count : items.length = trees.length)
    (each : ∀ i tree item, trees[i]? = some tree → items[i]? = some item →
      Accepted ctx vars (steps i) (steps (i + 1)) (g item)) :
    (∀ item ∈ items, WellTyped ctx vars (g item)) ∧
      FreshLocals (steps 0) (steps items.length)
        (items.flatMap fun item => Code.boundLocals (g item)) := by
  refine ⟨?_, .of_each fun i item hitem => (forall_of_each count each hitem).fresh⟩
  intro item hitem
  obtain ⟨i, hi⟩ := mem_iff_getElem?.1 hitem
  exact (forall_of_each count each hi).typed

theorem accepted_args {ctx : TypingContext} {trees : List Tree.Expr} {args : List Expr}
    (count : args.length = trees.length)
    (each : ∀ i tree arg, trees[i]? = some tree → args[i]? = some arg →
      Accepted ctx vars (steps i) (steps (i + 1)) arg) :
    (∀ arg ∈ args, WellTyped ctx vars arg) ∧
      FreshLocals (steps 0) (steps args.length) (Code.boundLocalsList args) := by
  rw [Code.boundLocalsList_eq]
  exact accepted_each (g := fun arg => arg) count each

/-- Every expression that the checker gives obeys the typing rules and binds its locals under fresh
numbers. The scope grows at declarations. -/
theorem Elaborates.sound (sound : ctx.Sound) {tree : Tree.Expr} {n k : Nat} {e : Expr}
    (h : Elaborates ctx scope tree n e k) (fits : ScopeFits ctx.typing scope vars) :
    Accepted ctx.typing vars n k e := by
  induction h generalizing vars with
  | ignore _ _ ihValue ihBody =>
    have value := ihValue fits
    have body := ihBody fits
    exact ⟨.letIgnore value.typed body.typed, value.fresh.append body.fresh⟩
  | @declare _ _ _ name _ _ _ _ _ m _ _ _ _ ihValue ihBody =>
    -- the name takes the first number behind those of the value, and is in scope in the body only
    have value := ihValue fits
    have body := ihBody (fits.cons_local value.typed.knows m name)
    exact ⟨.letSingle value.typed.knows value.typed body.typed, value.fresh.declare body.fresh _⟩
  | seq _ _ ihFirst ihBody =>
    have first := ihFirst fits
    have body := ihBody fits
    exact ⟨.seq first.typed body.typed, first.fresh.append body.fresh⟩
  | @param _ _ _ entry index _ bound hbinding =>
    obtain ⟨hmem, rfl⟩ := Scope.mem_of_lookup? bound
    obtain ⟨p, hp, hname, hty⟩ := fits.params entry hmem index hbinding
    have known := fits.known entry hmem
    rw [← hty] at known
    rw [← hname, ← hty]
    exact ⟨.param hp known, .nil _⟩
  | @localVar _ _ _ entry id _ bound hbinding =>
    obtain ⟨hmem, rfl⟩ := Scope.mem_of_lookup? bound
    exact ⟨.localVar (fits.locals entry hmem id hbinding) (fits.known entry hmem), .nil _⟩
  | @ownSlot _ _ _ _ _ slot _ found present =>
    obtain ⟨hfound, hslot⟩ := slot_of_member? found
    have known := (sound.outlined _ _ sound.owner).1 slot (mem_of_getElem? hfound)
    exact ⟨.slot sound.owner hfound hslot rfl known (.receiver present sound.knows_owner), .nil _⟩
  | ownStatic _ _ found static argsFit count _ ih =>
    obtain ⟨leads, known⟩ := sound.ownMethod found
    obtain ⟨typed, fresh⟩ := accepted_args count fun i tree arg htree harg =>
      ih i tree arg htree harg fits
    exact ⟨.staticCall leads static argsFit known typed, fresh⟩
  | ownInstance _ _ found notStatic present argsFit count _ ih =>
    obtain ⟨leads, known⟩ := sound.ownMethod found
    obtain ⟨typed, fresh⟩ := accepted_args count fun i tree arg htree harg =>
      ih i tree arg htree harg fits
    exact ⟨.methodCall leads notStatic argsFit known
      (.receiver present sound.knows_owner) typed, fresh⟩
  | classCall _ found argsFit count _ ih =>
    obtain ⟨ty, known, hfound, static⟩ := staticMethod_inv found
    obtain ⟨leads, known⟩ := calls_of_find? sound.outlined (sound.types _ _ known) hfound
    obtain ⟨typed, fresh⟩ := accepted_args count fun i tree arg htree harg =>
      ih i tree arg htree harg fits
    exact ⟨.staticCall leads static argsFit known typed, fresh⟩
  | memberCall _ _ found argsFit count _ ihTarget ih =>
    have target := ihTarget fits
    obtain ⟨hfound, notStatic⟩ := instanceMethod_inv found
    obtain ⟨leads, known⟩ := calls_of_find? sound.outlined target.typed.knows hfound
    obtain ⟨typed, fresh⟩ := accepted_args count fun i tree arg htree harg =>
      ih i tree arg htree harg fits
    exact ⟨.methodCall leads notStatic argsFit known target.typed typed,
      target.fresh.append fresh⟩
  | slot _ found ih =>
    have target := ih fits
    obtain ⟨c, slot, hc, hslot, hname, rfl, hty, known⟩ :=
      slot_of_find? sound.outlined target.typed.knows found
    exact ⟨.slot hc hslot hname hty known target.typed, target.fresh⟩
  | literal => exact ⟨.literal, .nil _⟩
  | quote strings texts _ ih =>
    have count := congrArg length texts
    rw [length_map, length_map] at count
    obtain ⟨typed, fresh⟩ := accepted_each count fun i tree hole htree hhole =>
      ih i tree hole htree hhole fits
    rw [← Code.boundLocalsHoles_eq] at fresh
    exact ⟨.quote strings typed, fresh⟩

end Bodies

/-! ## Shapes -/

/-- The types that a module can write. -/
def TypeScope.Offers (types : TypeScope) (ty : Ty) : Prop := ∃ name, types.lookup? name = some ty

theorem TypeScope.offers_of_resolve {tree : Tree.TypeExpr} (h : types.resolve tree = .ok ty) :
    types.Offers ty := by
  cases tree with
  | named span name =>
    simp only [resolve] at h
    split at h
    · next ty' hty =>
      cases h
      exact ⟨name, hty⟩
    · exact nomatch h
  | generic span name args => exact nomatch h

theorem shapeParams_offers {known params : List Param} {trees : List Tree.Param}
    (start : ∀ p ∈ known, types.Offers p.ty) (h : shapeParams types known trees = .ok params) :
    ∀ p ∈ params, types.Offers p.ty := by
  induction trees generalizing known with
  | nil =>
    cases h
    exact start
  | cons tree trees ih =>
    unfold shapeParams at h
    split at h
    · exact nomatch h
    obtain ⟨ty, hty, h⟩ := Except.bind_eq_ok.1 h
    refine ih ?_ h
    intro p hp
    rcases mem_append.1 hp with hold | hnew
    · exact start p hold
    · obtain rfl := mem_singleton.1 hnew
      exact offers_of_resolve hty

theorem Class.ne_of_indexed?_eq_none {name : α → String} (h : indexed? name wanted items = none) :
    ∀ item ∈ items, name item ≠ wanted := by
  intro item hitem heq
  obtain ⟨index, hindex⟩ := mem_iff_getElem?.1 hitem
  have hnone := find?_eq_none.1 (Option.map_eq_none_iff.1 h) (item, index)
    (mem_zipIdx_iff_getElem?.2 hindex)
  exact hnone (decide_eq_true heq)

theorem Class.ne_of_member?_eq_none (h : c.member? name = none) :
    (∀ slot ∈ c.slots, slot.name ≠ name) ∧ ∀ m ∈ c.methods, m.name ≠ name := by
  unfold member? at h
  split at h
  · exact nomatch h
  · next hslots =>
    exact ⟨ne_of_indexed?_eq_none hslots,
      ne_of_indexed?_eq_none (Option.map_eq_none_iff.1 h)⟩

/-- A name behind others that are different. -/
theorem nodup_concat {name : α → String} (names : (items.map name).Nodup)
    (fresh : ∀ other ∈ items, name other ≠ name item) : ((items ++ [item]).map name).Nodup := by
  rw [map_append]
  refine nodup_append.2 ⟨names, nodup_singleton _, ?_⟩
  rintro text htext text' htext' rfl
  obtain ⟨other, hother, rfl⟩ := mem_map.1 htext
  exact fresh other hother (mem_singleton.1 htext')

/-- What holds of a class while its members are added: it keeps its place, name and path, the types
that it declares can be written, and its slots and methods have distinct names. -/
structure Class.Drafted (types : TypeScope) (start c : Class) : Prop where
  id_eq : c.id = start.id
  name_eq : c.name = start.name
  path_eq : c.path = start.path
  slots : ∀ slot ∈ c.slots, types.Offers slot.ty
  methods : ∀ m ∈ c.methods, types.Offers m.returnType ∧ ∀ p ∈ m.params, types.Offers p.ty
  slotNames : (c.slots.map Slot.name).Nodup
  names : (c.methods.map Method.name).Nodup

theorem Class.addSlot_eq_ok (h : c.addSlot slot = .ok c') :
    c' = { c with slots := c.slots ++ [slot] } ∧ ∀ other ∈ c.slots, other.name ≠ slot.name := by
  unfold addSlot at h
  split at h
  · exact nomatch h
  · next hfree =>
    refine ⟨(Except.ok.inj h).symm, ?_⟩
    exact (ne_of_member?_eq_none (Option.not_isSome_iff_eq_none.1 hfree)).1

theorem shapeSlot_drafted {tree : Tree.Slot} (draft : start.Drafted types c)
    (h : shapeSlot types c tree = .ok c') : start.Drafted types c' := by
  obtain ⟨ty, hty, h⟩ := Except.bind_eq_ok.1 h
  obtain ⟨rfl, hfree⟩ := addSlot_eq_ok h
  refine { draft with slots := ?_, slotNames := nodup_concat draft.slotNames hfree }
  intro slot hslot
  rcases mem_append.1 hslot with hold | hnew
  · exact draft.slots slot hold
  · obtain rfl := mem_singleton.1 hnew
    exact offers_of_resolve hty

theorem Class.addMethod_eq_ok (h : c.addMethod m = .ok c') :
    c' = { c with methods := c.methods ++ [m] } ∧ ∀ other ∈ c.methods, other.name ≠ m.name := by
  unfold addMethod at h
  split at h
  · exact nomatch h
  · next hfree =>
    refine ⟨(Except.ok.inj h).symm, ?_⟩
    exact (ne_of_member?_eq_none (Option.not_isSome_iff_eq_none.1 hfree)).2

theorem shapeMethod_eq_ok (h : shapeMethod types c tree = .ok c') :
    ∃ m, c' = { c with methods := c.methods ++ [m] } ∧ m.name = tree.name ∧
      (∀ other ∈ c.methods, other.name ≠ m.name) ∧
      types.Offers m.returnType ∧ ∀ p ∈ m.params, types.Offers p.ty := by
  simp only [shapeMethod, Except.bind_eq_ok] at h
  obtain ⟨params, hparams, returnType, hreturn, h⟩ := h
  obtain ⟨hc, hfree⟩ := addMethod_eq_ok h
  exact ⟨_, hc, rfl, hfree, offers_of_resolve hreturn,
    shapeParams_offers (by simp) hparams⟩

theorem shapeMethod_drafted (draft : start.Drafted types c)
    (h : shapeMethod types c tree = .ok c') : start.Drafted types c' := by
  obtain ⟨m, rfl, -, hfree, hoffers⟩ := shapeMethod_eq_ok h
  refine { draft with methods := ?_, names := nodup_concat draft.names hfree }
  intro m' hm'
  rcases mem_append.1 hm' with hold | hnew
  · exact draft.methods m' hold
  · obtain rfl := mem_singleton.1 hnew
    exact hoffers

/-- The methods of a shape are those of the tree, in order. -/
theorem names_of_shapeMethods (h : trees.foldlM (shapeMethod types) c = .ok c') :
    c'.methods.map Method.name = c.methods.map Method.name ++ trees.map Tree.Method.name := by
  induction trees generalizing c with
  | nil =>
    cases h
    simp
  | cons tree trees ih =>
    rw [foldlM_cons, Except.bind_eq_ok] at h
    obtain ⟨next, hnext, h⟩ := h
    obtain ⟨m, rfl, hname, -⟩ := shapeMethod_eq_ok hnext
    rw [ih h]
    simp [hname]

/-- The outline of a class. -/
theorem shape_drafted {decl : Tree.ClassDecl} (h : shape types id path decl = .ok outline) :
    (empty id decl.name path decl.span).Drafted types outline ∧
      outline.methods.map Method.name = decl.methods.map Tree.Method.name := by
  obtain ⟨c, hslots, hmethods⟩ := Except.bind_eq_ok.1 h
  -- the first fold leaves the methods alone, so all of them come from the second
  have hempty : c.methods = [] := by
    refine foldlM_keeps (P := fun c => c.methods = []) ?_ rfl hslots
    intro b slot b' hb hstep
    obtain ⟨ty, -, hadd⟩ := Except.bind_eq_ok.1 hstep
    obtain ⟨rfl, -⟩ := addSlot_eq_ok hadd
    exact hb
  have start : (empty id decl.name path decl.span).Drafted types
      (empty id decl.name path decl.span) := by
    refine ⟨rfl, rfl, rfl, ?_, ?_, nodup_nil, nodup_nil⟩
    · simp [empty]
    · simp [empty]
  have slotsDraft := foldlM_keeps (fun _ _ _ hb hstep => shapeSlot_drafted hb hstep) start hslots
  refine ⟨foldlM_keeps (fun _ _ _ hb hstep => shapeMethod_drafted hb hstep) slotsDraft hmethods, ?_⟩
  rw [names_of_shapeMethods hmethods, hempty]
  rfl

/-! ## Modules -/

theorem checkBody_eq_ok {types : TypeScope} {checked : Method} {body : Tree.Expr} :
    checkBody table owner types m body = .ok checked ↔ ∃ e k, checked = { m with body := some e } ∧
      checkExpr ⟨table, owner, types, m⟩ (Scope.ofParams m.params) (.exactly m.returnType) body 0 =
        .ok (e, k) := by
  rw [checkBody_eq]
  constructor
  · intro h
    obtain ⟨e, hrun, h⟩ := Except.bind_eq_ok.1 h
    obtain ⟨⟨e', k⟩, hcheck, hrun⟩ := Except.bind_eq_ok.1 hrun
    cases hrun
    cases h
    exact ⟨e', k, rfl, hcheck⟩
  · rintro ⟨e, k, rfl, hcheck⟩
    exact Except.bind_eq_ok.2 ⟨e, Except.bind_eq_ok.2 ⟨(e, k), hcheck, rfl⟩, rfl⟩

/-- The checked methods are those of the outline with bodies that were accepted. -/
theorem checkBodies_eq_ok {methods checked : List Method} (hlen : methods.length = trees.length)
    (h : checkBodies table owner types methods trees = .ok checked) :
    Forall₂ (fun m m' => ∃ body tree k, m' = { m with body := some body } ∧
      checkExpr ⟨table, owner, types, m⟩ (Scope.ofParams m.params) (.exactly m.returnType) tree 0 =
        .ok (body, k)) methods checked := by
  induction methods generalizing trees checked with
  | nil =>
    rw [checkBodies] at h
    · cases h
      exact .nil
    · simp
  | cons m methods ih =>
    cases trees with
    | nil => exact nomatch hlen
    | cons tree trees =>
      simp only [checkBodies, Except.bind_eq_ok, Except.pure_eq_ok] at h
      obtain ⟨first, hfirst, rest, hrest, rfl⟩ := h
      obtain ⟨body, k, rfl, hcheck⟩ := checkBody_eq_ok.1 hfirst
      exact .cons ⟨body, tree.body, k, rfl, hcheck⟩ (ih (Nat.succ.inj hlen) hrest)

/-- Every imported name stands for a class of the table. -/
theorem importsFrom_knows (typed : table.Typed) {known found : List (String × Ty)}
    (start : ∀ item ∈ known, table.Knows item.2) (h : importsFrom table known imports = .ok found) :
    ∀ item ∈ found, table.Knows item.2 := by
  induction imports generalizing known with
  | nil =>
    cases h
    exact start
  | cons entry imports ih =>
    obtain ⟨span, id⟩ := entry
    simp only [importsFrom] at h
    split at h
    · exact ih start h
    · next c hc =>
      -- a new name, the same class once more, or another class of the same name
      split at h
      · refine ih (forall_mem_cons.2 ⟨?_, start⟩) h
        exact ⟨c, by rw [(typed id c hc).id_eq]; exact hc, rfl⟩
      · split at h
        · exact ih start h
        · exact nomatch h

/-- Every type that a module can write is known as soon as its outline is in the table. -/
theorem knows_of_offers (typed : table.Typed) {imported : List (String × Ty)}
    (h : importsFrom table [] imports = .ok imported)
    (offered : Offers ⟨outline.name, .object table.size outline.name, imported⟩ ty) :
    (table.push outline).Knows ty := by
  obtain ⟨name, hty⟩ := offered
  unfold lookup? at hty
  split at hty
  · -- an imported class, which is in the table already
    next found hfound =>
      obtain rfl := Option.some.inj hty
      obtain ⟨before, behind, rfl, -⟩ := lookup_eq_some_iff.1 hfound
      have known := importsFrom_knows typed (by simp) h (name, found) (by simp)
      exact (ClassTable.Extends.push table outline).knows known
  · split at hty
    · -- the class itself, of which the table has the outline
      cases hty
      exact ⟨outline, ClassTable.get?_push_size, rfl⟩
    · obtain ⟨p, -, rfl⟩ := Option.map_eq_some_iff.1 hty
      trivial

theorem outlined_push (typed : table.Typed) (draft : start.Drafted types outline)
    (known : ∀ ty, types.Offers ty → (table.push outline).Knows ty) :
    (table.push outline).Outlined := by
  intro id c hc
  rcases ClassTable.get?_push_eq_some hc with hold | ⟨rfl, rfl⟩
  · have old := (typed id c hold).extend (ClassTable.Extends.push table outline)
    exact ⟨old.slotsKnown, fun m hm => ⟨(old.methods m hm).resultKnown,
      (old.methods m hm).paramsKnown⟩⟩
  · exact ⟨fun slot hslot => known _ (draft.slots slot hslot), fun m hm =>
      ⟨known _ (draft.methods m hm).1, fun p hp => known _ ((draft.methods m hm).2 p hp)⟩⟩

/-- A module that passes adds one class, of its path and name and with the methods of its tree, and
keeps the table typed. -/
theorem checkModule_typed (typed : table.Typed) {tree : Tree.Module}
    (h : checkModule table path tree imports = .ok table') :
    ∃ c, table' = table.push c ∧ c.path = path ∧ c.name = tree.classDecl.name ∧
      c.methods.map Method.name = tree.classDecl.methods.map Tree.Method.name ∧ table'.Typed := by
  simp only [checkModule, Except.bind_eq_ok, Except.pure_eq_ok] at h
  obtain ⟨imported, himported, outline, houtline, checked, hchecked, rfl⟩ := h
  obtain ⟨draft, hnames⟩ := shape_drafted houtline
  have hlen : outline.methods.length = tree.classDecl.methods.length := by
    rw [← length_map (f := Method.name), hnames, length_map]
  have bodies := checkBodies_eq_ok hlen hchecked
  have hid : outline.id = table.size := draft.id_eq
  have hname : outline.name = tree.classDecl.name := draft.name_eq
  rw [← hname] at draft bodies
  have known : ∀ ty, Offers ⟨outline.name, .object table.size outline.name, imported⟩ ty →
      (table.push outline).Knows ty := fun _ offered => knows_of_offers typed himported offered
  have outlined := outlined_push typed draft known
  -- the filled class has the shape of the outline
  have same : SameShape outline { outline with methods := checked } := by
    refine ⟨rfl, rfl, ?_⟩
    intro i m hm
    obtain ⟨m', hm', body, tree, k, rfl, -⟩ := forall₂_getElem?_left bodies hm
    exact ⟨_, hm', rfl, rfl⟩
  have grows : (table.push outline).Extends (table.push { outline with methods := checked }) :=
    .push_same same
  have hsame : outline.methods.map Method.name = checked.map Method.name := by
    rw [← forall₂_eq_eq_eq, forall₂_map_left_iff, forall₂_map_right_iff]
    refine bodies.imp ?_
    rintro m m' ⟨body, tree, k, rfl, -⟩
    rfl
  refine ⟨_, rfl, draft.path_eq, hname, hsame.symm.trans hnames, ?_⟩
  intro id c hc
  rcases ClassTable.get?_push_eq_some hc with hold | ⟨rfl, rfl⟩
  · exact (typed id c hold).extend (.push table _)
  refine ⟨hid, ?_, ?_, ?_⟩
  · intro slot hslot
    exact grows.knows (known _ (draft.slots slot hslot))
  · rw [← hsame]
    exact draft.names
  · intro m' hm'
    obtain ⟨i, hi⟩ := mem_iff_getElem?.1 hm'
    obtain ⟨m, hm, body, tree', k, rfl, hbody⟩ := forall₂_getElem?_right bodies hi
    have hmem := mem_of_getElem? hm
    have params : ∀ p ∈ m.params, (table.push outline).Knows p.ty :=
      fun p hp => known _ ((draft.methods m hmem).2 p hp)
    have howner : (table.push outline).get? outline.id = some outline := by
      rw [hid]
      exact ClassTable.get?_push_size
    have sound : BodyContext.Sound ⟨table.push outline, outline, _, m⟩ :=
      ⟨outlined, howner, fun name ty hty => known ty ⟨name, hty⟩⟩
    -- the body was checked against the outline; the rules do not see the bodies of the others
    obtain ⟨elaborates, wanted⟩ := elaborates_of_checkExpr tree' hbody
    have accepted := elaborates.sound sound (.ofParams params)
    exact ⟨fun p hp => grows.knows (params p hp), grows.knows (known _ (draft.methods m hmem).1),
      body, rfl, wanted _ rfl, accepted.typed.extend grows, accepted.fresh.once⟩

/-- The class that is added has slots with distinct names. -/
theorem slotNames_of_checkModule {tree : Tree.Module}
    (h : checkModule table path tree imports = .ok table') :
    ∃ c, table' = table.push c ∧ (c.slots.map Slot.name).Nodup := by
  simp only [checkModule, Except.bind_eq_ok, Except.pure_eq_ok] at h
  obtain ⟨imported, -, outline, houtline, checked, -, rfl⟩ := h
  exact ⟨_, rfl, (shape_drafted houtline).1.slotNames⟩

/-! ## Tables that checks reach -/

namespace ClassTable

/-- The table after a module was checked; a module that is refused leaves it as it was. -/
def afterCheck (table : ClassTable) (path : ModulePath) (tree : Tree.Module)
    (imports : List (Span × ClassId)) : ClassTable :=
  match checkModule table path tree imports with
  | .ok table' => table'
  | .error _ => table

/-- The tables that some sequence of checks reaches, whatever the modules are and however many of
them are refused. -/
inductive Reached : ClassTable → Prop where
  | empty : Reached .empty
  | check {table : ClassTable} (path : ModulePath) (tree : Tree.Module)
      (imports : List (Span × ClassId)) (before : Reached table) :
      Reached (table.afterCheck path tree imports)

theorem typed_empty : ClassTable.empty.Typed := fun _ _ h => nomatch h

theorem typed_afterCheck (typed : table.Typed) (path : ModulePath) (tree : Tree.Module)
    (imports : List (Span × ClassId)) : (table.afterCheck path tree imports).Typed := by
  unfold afterCheck
  split
  · next table' h =>
    obtain ⟨c, -, -, -, -, typed'⟩ := checkModule_typed typed h
    exact typed'
  · exact typed

theorem Reached.typed (reached : table.Reached) : table.Typed := by
  induction reached with
  | empty => exact typed_empty
  | check path tree imports _ ih => exact typed_afterCheck ih path tree imports

/-- The slots of a class have distinct names. -/
theorem Reached.slotNames (reached : table.Reached) (hc : table.get? id = some c) :
    (c.slots.map Slot.name).Nodup := by
  induction reached with
  | empty => exact nomatch hc
  | @check table path tree imports _ ih =>
    unfold afterCheck at hc
    split at hc
    · next table' h =>
      obtain ⟨d, rfl, hnames⟩ := slotNames_of_checkModule h
      rcases get?_push_eq_some hc with hold | ⟨-, rfl⟩
      · exact ih hold
      · exact hnames
    · exact ih hc

end ClassTable

/-- The checker is sound: whatever was checked before, and with which outcome, every class of the
table declares only known types, and the body of each of its methods is there, has the declared
return type and obeys the typing rules relative to the table. -/
theorem wellTyped_of_reached {table : ClassTable} (reached : table.Reached) {id : ClassId}
    {c : Class} (hc : table.get? id = some c) :
    (∀ slot ∈ c.slots, table.Knows slot.ty) ∧
      ∀ m ∈ c.methods, (∀ p ∈ m.params, table.Knows p.ty) ∧ table.Knows m.returnType ∧
        ∃ body, m.body = some body ∧ body.ty = m.returnType ∧
          WellTyped ⟨table, .object id c.name, m.isStatic, m.params⟩ [] body := by
  have typed := reached.typed id c hc
  refine ⟨typed.slotsKnown, ?_⟩
  intro m hm
  obtain ⟨params, result, body, hbody, hty, hwell, -⟩ := typed.methods m hm
  rw [Class.ty, typed.id_eq] at hwell
  exact ⟨params, result, body, hbody, hty, hwell⟩

/-! ## An example -/

/-- A class with two slots, a static method and two instance methods. -/
def pointText : String :=
  "slots\n\tval Int x\n\tval String label\n" ++
  "fun Int twice(Int n)\n\tm = n + n\n\tm\n" ++
  "def Int shifted(Int by)\n\td = twice by\n\tx + d\n" ++
  "def String show()\n\t\"\x7blabel\x7d: \x7bString.fromInt (shifted 1)\x7d\"\n"

def pointPath : ModulePath := ⟨["Point"]⟩

/-- The table after the check of `pointText`. -/
def pointTable : ClassTable :=
  match Tree.parse pointText "Point" with
  | .ok tree => ClassTable.empty.afterCheck pointPath tree []
  | .error _ => .empty

theorem reached_pointTable : pointTable.Reached := by
  unfold pointTable
  split
  · exact .check _ _ _ .empty
  · exact .empty

/-- The class of the example. -/
def pointClass : Class := (pointTable.get? 0).getD default

theorem get?_pointTable : pointTable.get? 0 = some pointClass := by
  have hsome : (pointTable.get? 0).isSome = true := by decide +kernel
  obtain ⟨c, hc⟩ := Option.isSome_iff_exists.1 hsome
  rw [pointClass, hc]
  rfl

/-- The example module passes, as the only one. -/
theorem checked_pointText : ∃ tree, Tree.parse pointText "Point" = .ok tree ∧
    checkModule .empty pointPath tree [] = .ok pointTable := by
  have hclass := get?_pointTable
  unfold pointTable at hclass ⊢
  cases hparse : Tree.parse pointText "Point" with
  | error e =>
    rw [hparse] at hclass
    cases hclass
  | ok tree =>
    rw [hparse] at hclass
    refine ⟨tree, rfl, ?_⟩
    dsimp only [ClassTable.afterCheck] at hclass ⊢
    cases hcheck : checkModule .empty pointPath tree [] with
    | error e =>
      rw [hcheck] at hclass
      cases hclass
    | ok table => rfl

/-- The rules hold of the three bodies of the example. -/
theorem wellTyped_pointClass :
    pointClass.methods.length = 3 ∧ ∀ m ∈ pointClass.methods, ∃ body, m.body = some body ∧
      WellTyped ⟨pointTable, .object 0 pointClass.name, m.isStatic, m.params⟩ [] body := by
  refine ⟨by decide +kernel, ?_⟩
  intro m hm
  obtain ⟨-, -, body, hbody, -, hwell⟩ :=
    (wellTyped_of_reached reached_pointTable get?_pointTable).2 m hm
  exact ⟨body, hbody, hwell⟩

end ClassLang.Typed
