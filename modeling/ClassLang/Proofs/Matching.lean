import ClassLang.Proofs.CheckerSoundness
import ClassLang.Proofs.Grammar

/-!
# What differs in places and class numbers only

Two runs of the checker may differ in the places of what they read and in the numbers of the classes
that they know. A `Matching` says which places and which numbers stand for each other; trees, types,
classes and tables match when they differ in nothing else. The main statement is
`ClassTable.Matches.find?`: types that match have members that match.
-/

set_option autoImplicit false

namespace ClassLang

/-- Which classes of one table stand for which classes of another, and which places for which. -/
structure Matching where
  ids : ClassId → ClassId → Prop
  places : Span → Span → Prop

/-- Two types that differ in the numbers of classes at most. -/
inductive Ty.Matches (M : Matching) : Ty → Ty → Prop where
  | prim (p : Prim) : Matches M (.prim p) (.prim p)
  | object {i j : ClassId} (h : M.ids i j) (name : String) :
      Matches M (.object i name) (.object j name)

variable {M : Matching}

/-- Types that match are equal together. -/
theorem Ty.Matches.eq_iff (unique : Relator.BiUnique M.ids) {a a' b b' : Ty} (h : a.Matches M a')
    (h' : b.Matches M b') : a = b ↔ a' = b' := by
  cases h with
  | prim p => cases h' <;> simp
  | object hij name =>
    cases h' with
    | prim p => simp
    | object hij' name' =>
      have hids : _ = _ ↔ _ = _ := Relator.rel_eq unique hij hij'
      rw [Ty.object.injEq, Ty.object.injEq, hids]

theorem Ty.Matches.name_eq {ty ty' : Ty} (h : ty.Matches M ty') : ty'.name = ty.name := by
  cases h <;> rfl

theorem Ty.Matches.more {M' : Matching} (hids : ∀ i j, M.ids i j → M'.ids i j) {ty ty' : Ty}
    (h : ty.Matches M ty') : ty.Matches M' ty' := by
  cases h with
  | prim p => exact .prim p
  | object hij name => exact .object (hids _ _ hij) name

/-! ## Trees that match -/

namespace Tree

section Relations

variable (M)

inductive Pattern.Matches : Pattern → Pattern → Prop where
  | ignore {span span'} (place : M.places span span') : Matches (.ignore span) (.ignore span')
  | single {span span'} (place : M.places span span') (name : String) :
      Matches (.single span name) (.single span' name)
  | destruct (span span' : Span) (names names' : List (Span × String)) :
      Matches (.destruct span names) (.destruct span' names')

mutual

/-- Two expressions that differ in their places at most. -/
inductive Expr.Matches : Expr → Expr → Prop where
  | access {span span'} (place : M.places span span') (name : String) :
      Expr.Matches (.access span name) (.access span' name)
  | staticAccess {span span'} (place : M.places span span') (className name : String) :
      Expr.Matches (.staticAccess span className name) (.staticAccess span' className name)
  | operatorCall {span span' left left' right right'}
      (place : M.places span span') (hleft : Expr.Matches left left') (operator : String)
      (hright : Expr.Matches right right') :
      Expr.Matches (.operatorCall span left operator right)
        (.operatorCall span' left' operator right')
  | call {span span' target target' args args'}
      (place : M.places span span') (htarget : Expr.Matches target target')
      (hargs : ExprsMatch args args') :
      Expr.Matches (.call span target args) (.call span' target' args')
  | property {span span' target target'} (place : M.places span span')
      (htarget : Expr.Matches target target') (name : String) :
      Expr.Matches (.property span target name) (.property span' target' name)
  | letIn {span span'} {pattern pattern' : Pattern} {value value' body body'}
      (place : M.places span span') (hpattern : pattern.Matches M pattern')
      (hvalue : Expr.Matches value value') (hbody : Expr.Matches body body') :
      Expr.Matches (.letIn span pattern value body) (.letIn span' pattern' value' body')
  | seq {span span' first first' body body'} (place : M.places span span')
      (hfirst : Expr.Matches first first') (hbody : Expr.Matches body body') :
      Expr.Matches (.seq span first body) (.seq span' first' body')
  | literal {span span'} (place : M.places span span') (value : Literal) :
      Expr.Matches (.literal span value) (.literal span' value)
  | quote {span span' holes holes'} (place : M.places span span')
      (head : String) (hholes : HolesMatch holes holes') :
      Expr.Matches (.quote span head holes) (.quote span' head holes')

inductive ExprsMatch : List Expr → List Expr → Prop where
  | nil : ExprsMatch [] []
  | cons {e e' es es'} (hfirst : Expr.Matches e e')
      (hrest : ExprsMatch es es') : ExprsMatch (e :: es) (e' :: es')

inductive HolesMatch : List (Expr × String) → List (Expr × String) → Prop where
  | nil : HolesMatch [] []
  | cons {e e' holes holes'} (hfirst : Expr.Matches e e')
      (text : String) (hrest : HolesMatch holes holes') :
      HolesMatch ((e, text) :: holes) ((e', text) :: holes')

end

end Relations

theorem ExprsMatch.forall₂ : ∀ {es es' : List Expr}, ExprsMatch M es es' →
    List.Forall₂ (Expr.Matches M) es es'
  | [], _, .nil => .nil
  | _ :: _, _, .cons hfirst hrest => .cons hfirst hrest.forall₂

theorem HolesMatch.forall₂ : ∀ {holes holes' : List (Expr × String)}, HolesMatch M holes holes' →
    List.Forall₂ (fun a b => a.1.Matches M b.1 ∧ b.2 = a.2) holes holes'
  | [], _, .nil => .nil
  | _ :: _, _, .cons hfirst _ hrest => .cons ⟨hfirst, rfl⟩ hrest.forall₂

theorem Pattern.Matches.refl (places : ∀ span, M.places span span) (pattern : Pattern) :
    pattern.Matches M pattern := by
  cases pattern with
  | ignore span => exact .ignore (places span)
  | single span name => exact .single (places span) name
  | destruct span names => exact .destruct span span names names

mutual

/-- Where every place stands for itself, a tree matches itself. -/
theorem Expr.Matches.refl (places : ∀ span, M.places span span) : ∀ e : Expr, e.Matches M e
  | .access span name => .access (places span) name
  | .staticAccess span className name => .staticAccess (places span) className name
  | .operatorCall span left operator right =>
    .operatorCall (places span) (.refl places left) operator (.refl places right)
  | .call span target args => .call (places span) (.refl places target) (.refl places args)
  | .property span target name => .property (places span) (.refl places target) name
  | .letIn span pattern value body =>
    .letIn (places span) (.refl places pattern) (.refl places value) (.refl places body)
  | .seq span first body => .seq (places span) (.refl places first) (.refl places body)
  | .literal span value => .literal (places span) value
  | .quote span head holes => .quote (places span) head (.refl places holes)

theorem ExprsMatch.refl (places : ∀ span, M.places span span) : ∀ es : List Expr, ExprsMatch M es es
  | [] => .nil
  | e :: es => .cons (.refl places e) (.refl places es)

theorem HolesMatch.refl (places : ∀ span, M.places span span) :
    ∀ holes : List (Expr × String), HolesMatch M holes holes
  | [] => .nil
  | (e, text) :: holes => .cons (.refl places e) text (.refl places holes)

end

/-- Two methods that declare the same; their bodies may differ. -/
structure Method.Alike (m m' : Method) : Prop where
  isStatic : m'.isStatic = m.isStatic
  returnType : m.returnType.erase = m'.returnType.erase
  name : m'.name = m.name
  params : m.params.map Param.erase = m'.params.map Param.erase

end Tree

namespace Typed

/-! ## Typed trees that match -/

section Relations

variable (M)

inductive SlotRef.Matches : SlotRef → SlotRef → Prop where
  | at {i j : ClassId} (h : M.ids i j) (index : Nat) (name : String) :
      Matches ⟨i, index, name⟩ ⟨j, index, name⟩

inductive MethodRef.Matches : MethodRef → MethodRef → Prop where
  | at {i j : ClassId} (h : M.ids i j) (index : Nat) (name : String) :
      Matches ⟨i, index, name⟩ ⟨j, index, name⟩

inductive Callee.Matches : Callee → Callee → Prop where
  | method {ref ref' : MethodRef} (h : ref.Matches M ref') : Matches (.method ref) (.method ref')
  | builtin (b : Builtin) : Matches (.builtin b) (.builtin b)

inductive Pattern.Matches : Pattern → Pattern → Prop where
  | ignore {span span'} (place : M.places span span') : Matches (.ignore span) (.ignore span')
  | single {span span'} {ty ty' : Ty} (place : M.places span span') (hty : ty.Matches M ty')
      (id : Nat) (name : String) : Matches (.single span ty id name) (.single span' ty' id name)

mutual

/-- Two typed expressions that differ in places and in the numbers of classes at most. -/
inductive Expr.Matches : Expr → Expr → Prop where
  | localVar {span span'} {ty ty' : Ty} (place : M.places span span')
      (hty : ty.Matches M ty') (id : Nat) (name : String) :
      Expr.Matches (.localVar span ty id name) (.localVar span' ty' id name)
  | param {span span'} {ty ty' : Ty} (place : M.places span span') (hty : ty.Matches M ty')
      (index : Nat) (name : String) :
      Expr.Matches (.param span ty index name) (.param span' ty' index name)
  | receiver {span span'} {ty ty' : Ty} (place : M.places span span')
      (hty : ty.Matches M ty') : Expr.Matches (.receiver span ty) (.receiver span' ty')
  | slot {span span'} {ty ty' : Ty} {ref ref' : SlotRef} {target target'}
      (place : M.places span span') (hty : ty.Matches M ty') (href : ref.Matches M ref')
      (htarget : Expr.Matches target target') :
      Expr.Matches (.slot span ty ref target) (.slot span' ty' ref' target')
  | methodCall {span span'} {ty ty' : Ty} {callee callee' : Callee} {target target' args args'}
      (place : M.places span span') (hty : ty.Matches M ty')
      (hcallee : callee.Matches M callee') (htarget : Expr.Matches target target')
      (hargs : ExprsMatch args args') :
      Expr.Matches (.methodCall span ty callee target args)
        (.methodCall span' ty' callee' target' args')
  | staticCall {span span'} {ty ty' : Ty} {callee callee' : Callee} {args args'}
      (place : M.places span span') (hty : ty.Matches M ty') (hcallee : callee.Matches M callee')
      (hargs : ExprsMatch args args') :
      Expr.Matches (.staticCall span ty callee args) (.staticCall span' ty' callee' args')
  | letIn {span span'} {pattern pattern' : Pattern} {value value' body body'}
      (place : M.places span span') (hpattern : pattern.Matches M pattern')
      (hvalue : Expr.Matches value value') (hbody : Expr.Matches body body') :
      Expr.Matches (.letIn span pattern value body) (.letIn span' pattern' value' body')
  | seq {span span' first first' body body'} (place : M.places span span')
      (hfirst : Expr.Matches first first') (hbody : Expr.Matches body body') :
      Expr.Matches (.seq span first body) (.seq span' first' body')
  | literal {span span'} (place : M.places span span') (value : Literal) :
      Expr.Matches (.literal span value) (.literal span' value)
  | quote {span span' holes holes'} (place : M.places span span')
      (head : String) (hholes : HolesMatch holes holes') :
      Expr.Matches (.quote span head holes) (.quote span' head holes')

inductive ExprsMatch : List Expr → List Expr → Prop where
  | nil : ExprsMatch [] []
  | cons {e e' es es'} (hfirst : Expr.Matches e e')
      (hrest : ExprsMatch es es') : ExprsMatch (e :: es) (e' :: es')

inductive HolesMatch : List (Expr × String) → List (Expr × String) → Prop where
  | nil : HolesMatch [] []
  | cons {e e' holes holes'} (hfirst : Expr.Matches e e')
      (text : String) (hrest : HolesMatch holes holes') :
      HolesMatch ((e, text) :: holes) ((e', text) :: holes')

end

end Relations

theorem ExprsMatch.ofForall₂ {es es' : List Expr} :
    List.Forall₂ (Expr.Matches M) es es' → ExprsMatch M es es'
  | .nil => .nil
  | .cons hfirst hrest => .cons hfirst (.ofForall₂ hrest)

theorem HolesMatch.ofForall₂ {holes holes' : List (Expr × String)}
    (h : List.Forall₂ (fun a b => a.1.Matches M b.1 ∧ b.2 = a.2) holes holes') :
    HolesMatch M holes holes' := by
  induction h with
  | nil => exact .nil
  | @cons a b _ _ hab _ ih =>
    obtain ⟨e', text⟩ := b
    obtain ⟨hfirst, rfl⟩ := hab
    exact .cons hfirst _ ih

theorem Expr.Matches.ty_matches {e e' : Expr} : e.Matches M e' → e.ty.Matches M e'.ty
  | .localVar _ ty _ _ => ty
  | .param _ ty _ _ => ty
  | .receiver _ ty => ty
  | .slot _ ty _ _ => ty
  | .methodCall _ ty _ _ _ => ty
  | .staticCall _ ty _ _ => ty
  | .letIn _ _ _ body => body.ty_matches
  | .seq _ _ body => body.ty_matches
  | .literal _ value => by cases value <;> exact .prim _
  | .quote .. => .prim _

/-! ## Classes that match -/

structure Slot.Matches (M : Matching) (slot slot' : Slot) : Prop where
  mutable : slot'.mutable = slot.mutable
  ty : slot.ty.Matches M slot'.ty
  name : slot'.name = slot.name

structure Param.Matches (M : Matching) (param param' : Param) : Prop where
  ty : param.ty.Matches M param'.ty
  name : param'.name = param.name

/-- Two methods that declare the same; their bodies may differ. -/
structure Method.Matches (M : Matching) (m m' : Method) : Prop where
  isStatic : m'.isStatic = m.isStatic
  returnType : m.returnType.Matches M m'.returnType
  name : m'.name = m.name
  params : List.Forall₂ (Param.Matches M) m.params m'.params

/-- Two classes with the same outline. -/
structure Class.Matches (M : Matching) (c c' : Class) : Prop where
  id : M.ids c.id c'.id
  name : c'.name = c.name
  path : c'.path = c.path
  slots : List.Forall₂ (Slot.Matches M) c.slots c'.slots
  methods : List.Forall₂ (Method.Matches M) c.methods c'.methods

structure Signature.Matches (M : Matching) (signature signature' : Signature) : Prop where
  isStatic : signature'.isStatic = signature.isStatic
  params : List.Forall₂ (Ty.Matches M) signature.params signature'.params
  result : signature.result.Matches M signature'.result

inductive Found.Matches (M : Matching) : Found → Found → Prop where
  | slot {ref ref' : SlotRef} {ty ty' : Ty} (href : ref.Matches M ref') (hty : ty.Matches M ty') :
      Matches M (.slot ref ty) (.slot ref' ty')
  | method {callee callee' : Callee} {signature signature' : Signature}
      (hcallee : callee.Matches M callee') (hsignature : signature.Matches M signature') :
      Matches M (.method callee signature) (.method callee' signature')

inductive Member.Matches (M : Matching) : Member → Member → Prop where
  | slot (index : Nat) {slot slot' : Slot} (h : slot.Matches M slot') :
      Matches M (.slot index slot) (.slot index slot')
  | method (index : Nat) {m m' : Method} (h : m.Matches M m') :
      Matches M (.method index m) (.method index m')

variable {c c' : Class} {table : ClassTable}

section More

variable {M' : Matching} (hids : ∀ i j, M.ids i j → M'.ids i j)

include hids

theorem Method.Matches.more {m m' : Method} (h : m.Matches M m') : m.Matches M' m' where
  isStatic := h.isStatic
  returnType := h.returnType.more hids
  name := h.name
  params := h.params.imp fun _ _ hparam => ⟨hparam.ty.more hids, hparam.name⟩

/-- Outlines match still when more classes stand for each other. -/
theorem Class.Matches.more (h : c.Matches M c') : c.Matches M' c' where
  id := hids _ _ h.id
  name := h.name
  path := h.path
  slots := h.slots.imp fun _ _ hslot => ⟨hslot.mutable, hslot.ty.more hids, hslot.name⟩
  methods := h.methods.imp fun _ _ hm => hm.more hids

end More

theorem Method.Matches.signature {m m' : Method} (h : m.Matches M m') :
    m.signature.Matches M m'.signature :=
  ⟨h.isStatic, List.rel_map (fun _ _ hparam => hparam.ty) h.params, h.returnType⟩

theorem Class.Matches.ty (h : c.Matches M c') : c.ty.Matches M c'.ty := by
  rw [Class.ty, Class.ty, h.name]
  exact .object h.id _

section Lists

variable {α β : Type} {R : α → β → Prop} {xs : List α} {ys : List β}

/-- The first item with a property is found at the same place in lists that are related. -/
theorem forall₂_find? {p : α → Bool} {q : β → Bool} (hpq : ∀ a b, R a b → p a = q b)
    (h : List.Forall₂ R xs ys) : Option.Rel R (xs.find? p) (ys.find? q) := by
  induction h with
  | nil => exact .none
  | cons hab _ ih =>
    rw [List.find?_cons, List.find?_cons, ← hpq _ _ hab]
    split
    · exact .some hab
    · exact ih

theorem forall₂_getElem? (h : List.Forall₂ R xs ys) (i : Nat) : Option.Rel R xs[i]? ys[i]? := by
  induction h generalizing i with
  | nil => exact .none
  | cons hab _ ih =>
    cases i with
    | zero => exact .some hab
    | succ i => exact ih i

theorem forall₂_zipIdx (h : List.Forall₂ R xs ys) (n : Nat) :
    List.Forall₂ (fun a b => R a.1 b.1 ∧ a.2 = b.2) (xs.zipIdx n) (ys.zipIdx n) := by
  induction h generalizing n with
  | nil => exact .nil
  | cons hab _ ih => exact .cons ⟨hab, rfl⟩ (ih (n + 1))

theorem forall₂_indexed? {name : α → String} {name' : β → String}
    (hname : ∀ a b, R a b → name' b = name a) (h : List.Forall₂ R xs ys) (wanted : String) :
    Option.Rel (fun a b => a.1 = b.1 ∧ R a.2 b.2) (Class.indexed? name wanted xs)
      (Class.indexed? name' wanted ys) := by
  have hpq : ∀ (a : α × Nat) (b : β × Nat), R a.1 b.1 ∧ a.2 = b.2 →
      decide (name a.1 = wanted) = decide (name' b.1 = wanted) := by
    intro a b hab
    rw [hname _ _ hab.1]
  have hfound := forall₂_find? hpq (forall₂_zipIdx h 0)
  unfold Class.indexed?
  generalize (xs.zipIdx.find? _) = found at hfound
  generalize (ys.zipIdx.find? _) = found' at hfound
  cases hfound with
  | none => exact .none
  | some hab => exact .some ⟨hab.2, hab.1⟩

end Lists

theorem Class.Matches.member? (h : c.Matches M c') (name : String) :
    Option.Rel (Member.Matches M) (c.member? name) (c'.member? name) := by
  have hslot := forall₂_indexed? (fun _ _ hs => Slot.Matches.name hs) h.slots name
  have hmethod := forall₂_indexed? (fun _ _ hm => Method.Matches.name hm) h.methods name
  unfold Class.member?
  generalize Class.indexed? Slot.name name c.slots = slot at hslot
  generalize Class.indexed? Slot.name name c'.slots = slot' at hslot
  generalize Class.indexed? Method.name name c.methods = method at hmethod
  generalize Class.indexed? Method.name name c'.methods = method' at hmethod
  cases hslot with
  | @some a b hs =>
    obtain ⟨index, s⟩ := a
    obtain ⟨index', s'⟩ := b
    obtain ⟨rfl, hs⟩ := hs
    exact .some (.slot index hs)
  | none =>
    cases hmethod with
    | none => exact .none
    | @some a b hm =>
      obtain ⟨index, m⟩ := a
      obtain ⟨index', m'⟩ := b
      obtain ⟨rfl, hm⟩ := hm
      exact .some (.method index hm)

theorem Class.Matches.isSome_member? (h : c.Matches M c') (name : String) :
    (c'.member? name).isSome = (c.member? name).isSome := by
  have hmember := h.member? name
  generalize c.member? name = found at hmember
  generalize c'.member? name = found' at hmember
  cases hmember <;> rfl

theorem any_name_eq {params params' : List Param}
    (h : List.Forall₂ (Param.Matches M) params params') (name : String) :
    params'.any (·.name = name) = params.any (·.name = name) := by
  induction h with
  | nil => rfl
  | cons hparam _ ih => rw [List.any_cons, List.any_cons, hparam.name, ih]

/-- Two tables in which the classes that stand for each other have the same outlines. -/
def ClassTable.Matches (M : Matching) (table table' : ClassTable) : Prop :=
  ∀ i j, M.ids i j → Option.Rel (Class.Matches M) (table.get? i) (table'.get? j)

theorem ClassTable.get?_eq_none {id : ClassId} :
    table.get? id = none ↔ table.size ≤ id := List.getElem?_eq_none_iff

/-- Tables match further with one more class in each, if these stand for each other. -/
theorem ClassTable.Matches.push (unique : Relator.BiUnique M.ids) {table' : ClassTable}
    (h : table.Matches M table') (own : M.ids table.size table'.size) (hc : c.Matches M c') :
    (table.push c).Matches M (table'.push c') := by
  intro i j hij
  have hold := h i j hij
  cases hget : table.get? i with
  | some d =>
    cases hget' : table'.get? j with
    | some d' =>
      rw [get?_push_of_lt (lt_size_of_get? hget), get?_push_of_lt (lt_size_of_get? hget')]
      exact hold
    | none =>
      rw [hget, hget'] at hold
      cases hold
  | none =>
    cases hget' : table'.get? j with
    | some d' =>
      rw [hget, hget'] at hold
      cases hold
    | none =>
      -- neither was there before, so both are the new ones or neither is
      by_cases hi : i = table.size
      · obtain rfl := hi
        obtain rfl := unique.2 own hij
        rw [get?_push_size, get?_push_size]
        exact .some hc
      have hj : j ≠ table'.size := by
        rintro rfl
        exact hi (unique.1 hij own)
      have hlt := Nat.lt_of_le_of_ne (get?_eq_none.1 hget) (Ne.symm hi)
      have hlt' := Nat.lt_of_le_of_ne (get?_eq_none.1 hget') (Ne.symm hj)
      rw [get?_eq_none.2 (size_push.symm ▸ hlt), get?_eq_none.2 (size_push.symm ▸ hlt')]
      exact .none

theorem ClassTable.Matches.find? {table' : ClassTable} (h : table.Matches M table') {ty ty' : Ty}
    (hty : ty.Matches M ty') (name : String) :
    Option.Rel (Found.Matches M) (find? table ty name) (find? table' ty' name) := by
  cases hty with
  | prim p =>
    rw [Typed.find?, Typed.find?]
    cases Builtin.lookup? p name with
    | none => exact .none
    | some b =>
      refine .some (.method (.builtin b) ⟨rfl, ?_, .prim _⟩)
      refine List.forall₂_same.2 fun ty hty => ?_
      obtain ⟨p', -, rfl⟩ := List.mem_map.1 hty
      exact .prim p'
  | @object i j hij cname =>
    have hget := h i j hij
    rw [Typed.find?, Typed.find?]
    generalize table.get? i = owner at hget
    generalize table'.get? j = owner' at hget
    cases hget with
    | none => exact .none
    | @some c c' hclass =>
      have hmember := hclass.member? name
      rw [Option.bind_some, Option.bind_some]
      generalize c.member? name = found at hmember
      generalize c'.member? name = found' at hmember
      cases hmember with
      | none => exact .none
      | some hmember =>
        cases hmember with
        | slot index hslot => exact .some (.slot (.at hij index name) hslot.ty)
        | method index hmethod =>
          exact .some (.method (.method (.at hij index name)) hmethod.signature)

end Typed

end ClassLang
