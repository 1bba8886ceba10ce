import ClassLang.Code.Generate
import ClassLang.Typed.Checker

/-!
# Typing rules

The rules that the typed body of a method follows, stated about the finished tree and the class
table alone. `WellTyped` is the judgement for one expression, `ClassTable.Typed` says that every
body of every class of a table obeys it.

The rules read the table only through the shapes of its classes, so a body stays well typed when
bodies are filled in and when classes are added behind it (`WellTyped.extend`).
-/

set_option autoImplicit false

namespace ClassLang.Typed

/-! ## Lookup in the class table -/

namespace ClassTable

variable {table : ClassTable} {id : ClassId} {c d : Class}

theorem lt_size_of_get? (h : table.get? id = some c) : id < table.size :=
  (List.getElem?_eq_some_iff.1 h).1

@[simp] theorem size_push : (table.push c).size = table.size + 1 := by
  simp [push, size]

@[simp] theorem get?_push_size : (table.push c).get? table.size = some c := by
  simp [push, get?, size]

theorem get?_push_of_lt (h : id < table.size) : (table.push c).get? id = table.get? id :=
  List.getElem?_append_left h

/-- A class of a table with one more class is one of the old ones or the new one. -/
theorem get?_push_eq_some (h : (table.push c).get? id = some d) :
    table.get? id = some d ∨ (id = table.size ∧ d = c) := by
  have hlt : id < table.size + 1 := by
    rw [← size_push]
    exact lt_size_of_get? h
  rcases Nat.lt_succ_iff_lt_or_eq.1 hlt with hid | rfl
  · rw [get?_push_of_lt hid] at h
    exact Or.inl h
  · rw [get?_push_size] at h
    exact Or.inr ⟨rfl, (Option.some.inj h).symm⟩

/-- A class type is known when the table has a class of its name at its position. -/
def Knows (table : ClassTable) : Ty → Prop
  | .prim _ => True
  | .object id name => ∃ c, table.get? id = some c ∧ c.name = name

/-- What a call leads to: the type that the method belongs to, and how it is called. -/
inductive Calls (table : ClassTable) : Callee → Ty → Signature → Prop where
  | builtin (b : Builtin) :
      Calls table (.builtin b) (.prim b.owner) ⟨b.isStatic, b.params.map .prim, .prim b.result⟩
  | method {ref : MethodRef} {c : Class} {m : Method} (owner : table.get? ref.owner = some c)
      (found : c.methods[ref.index]? = some m) (named : m.name = ref.name) :
      Calls table (.method ref) (.object ref.owner c.name) m.signature

end ClassTable

/-! ## The judgement -/

/-- A local in scope. -/
structure LocalVar where
  id : Nat
  name : String
  ty : Ty
deriving DecidableEq

/-- What the rules for a body refer to: the table, the type of the class that the body belongs to,
and whether its method is static and which parameters it has. -/
structure TypingContext where
  table : ClassTable
  ownType : Ty
  isStatic : Bool
  params : List Param

/-- The typing rules. The list holds the locals in scope. -/
inductive WellTyped (ctx : TypingContext) : List LocalVar → Expr → Prop where
  | localVar {scope : List LocalVar} {span : Span} {ty : Ty} {id : Nat} {name : String}
      (bound : ⟨id, name, ty⟩ ∈ scope) (known : ctx.table.Knows ty) :
      WellTyped ctx scope (.localVar span ty id name)
  | param {scope : List LocalVar} {span : Span} {index : Nat} {p : Param}
      (declared : ctx.params[index]? = some p) (known : ctx.table.Knows p.ty) :
      WellTyped ctx scope (.param span p.ty index p.name)
  | receiver {scope : List LocalVar} {span : Span}
      (present : ctx.isStatic = false) (known : ctx.table.Knows ctx.ownType) :
      WellTyped ctx scope (.receiver span ctx.ownType)
  | slot {scope : List LocalVar} {span : Span} {ref : SlotRef} {target : Expr} {c : Class}
      {slot : Slot} (owner : ctx.table.get? ref.owner = some c)
      (found : c.slots[ref.index]? = some slot) (named : slot.name = ref.name)
      (fits : target.ty = .object ref.owner c.name) (known : ctx.table.Knows slot.ty)
      (typed : WellTyped ctx scope target) :
      WellTyped ctx scope (.slot span slot.ty ref target)
  | methodCall {scope : List LocalVar} {span : Span} {callee : Callee} {target : Expr}
      {args : List Expr} {signature : Signature}
      (leads : ctx.table.Calls callee target.ty signature) (called : signature.isStatic = false)
      (fits : args.map Expr.ty = signature.params) (known : ctx.table.Knows signature.result)
      (typed : WellTyped ctx scope target) (argsTyped : ∀ arg ∈ args, WellTyped ctx scope arg) :
      WellTyped ctx scope (.methodCall span signature.result callee target args)
  | staticCall {scope : List LocalVar} {span : Span} {callee : Callee} {args : List Expr}
      {owner : Ty} {signature : Signature}
      (leads : ctx.table.Calls callee owner signature) (called : signature.isStatic = true)
      (fits : args.map Expr.ty = signature.params) (known : ctx.table.Knows signature.result)
      (argsTyped : ∀ arg ∈ args, WellTyped ctx scope arg) :
      WellTyped ctx scope (.staticCall span signature.result callee args)
  | letSingle {scope : List LocalVar} {span patternSpan : Span} {id : Nat} {name : String}
      {value body : Expr} (known : ctx.table.Knows value.ty) (typed : WellTyped ctx scope value)
      (bodyTyped : WellTyped ctx (⟨id, name, value.ty⟩ :: scope) body) :
      WellTyped ctx scope (.letIn span (.single patternSpan value.ty id name) value body)
  | letIgnore {scope : List LocalVar} {span patternSpan : Span} {value body : Expr}
      (typed : WellTyped ctx scope value) (bodyTyped : WellTyped ctx scope body) :
      WellTyped ctx scope (.letIn span (.ignore patternSpan) value body)
  | seq {scope : List LocalVar} {span : Span} {first body : Expr}
      (typed : WellTyped ctx scope first) (bodyTyped : WellTyped ctx scope body) :
      WellTyped ctx scope (.seq span first body)
  | literal {scope : List LocalVar} {span : Span} {value : Literal} :
      WellTyped ctx scope (.literal span value)
  | quote {scope : List LocalVar} {span : Span} {head : String} {holes : List (Expr × String)}
      (fits : ∀ hole ∈ holes, hole.1.ty = .string)
      (typed : ∀ hole ∈ holes, WellTyped ctx scope hole.1) :
      WellTyped ctx scope (.quote span head holes)

/-! ## Classes and tables -/

/-- A method of a class of type `ownType`: the types that it declares are known, and its body is
there, has the declared return type and binds no local twice. -/
structure MethodTyped (table : ClassTable) (ownType : Ty) (m : Method) : Prop where
  paramsKnown : ∀ p ∈ m.params, table.Knows p.ty
  resultKnown : table.Knows m.returnType
  body : ∃ body, m.body = some body ∧ body.ty = m.returnType ∧
    WellTyped ⟨table, ownType, m.isStatic, m.params⟩ [] body ∧
    ((Code.boundLocals body).map Prod.fst).Nodup

/-- The class at position `id`: it knows its position, its slots have known types, and its methods
have distinct names and are typed. -/
structure ClassTyped (table : ClassTable) (id : ClassId) (c : Class) : Prop where
  id_eq : c.id = id
  slotsKnown : ∀ slot ∈ c.slots, table.Knows slot.ty
  names : (c.methods.map Method.name).Nodup
  methods : ∀ m ∈ c.methods, MethodTyped table c.ty m

/-- Every class of the table is typed. -/
def ClassTable.Typed (table : ClassTable) : Prop :=
  ∀ id c, table.get? id = some c → ClassTyped table id c

/-! ## Tables that grow -/

/-- Two classes that no typing rule tells apart: they differ in the bodies of their methods at
most. -/
structure SameShape (c d : Class) : Prop where
  name : d.name = c.name
  slots : d.slots = c.slots
  methods : ∀ (i : Nat) (m : Method), c.methods[i]? = some m →
    ∃ m' : Method, d.methods[i]? = some m' ∧ m'.name = m.name ∧ m'.signature = m.signature

theorem SameShape.refl (c : Class) : SameShape c c :=
  ⟨rfl, rfl, fun _ m hm => ⟨m, hm, rfl, rfl⟩⟩

theorem SameShape.trans {c d e : Class} (first : SameShape c d) (second : SameShape d e) :
    SameShape c e where
  name := second.name.trans first.name
  slots := second.slots.trans first.slots
  methods i m hm := by
    obtain ⟨m', hm', hname, hsig⟩ := first.methods i m hm
    obtain ⟨m'', hm'', hname', hsig'⟩ := second.methods i m' hm'
    exact ⟨m'', hm'', hname'.trans hname, hsig'.trans hsig⟩

/-- The second table has the classes of the first, in the same shape and place. -/
def ClassTable.Extends (small big : ClassTable) : Prop :=
  ∀ id c, small.get? id = some c → ∃ d, big.get? id = some d ∧ SameShape c d

namespace ClassTable.Extends

variable {small big : ClassTable}

theorem refl (table : ClassTable) : Extends table table :=
  fun _ c hc => ⟨c, hc, .refl c⟩

theorem trans {table : ClassTable} (first : Extends small table) (second : Extends table big) :
    Extends small big := by
  intro id c hc
  obtain ⟨d, hd, same⟩ := first id c hc
  obtain ⟨e, he, same'⟩ := second id d hd
  exact ⟨e, he, same.trans same'⟩

theorem push (table : ClassTable) (c : Class) : Extends table (table.push c) := by
  intro id d hd
  refine ⟨d, ?_, .refl d⟩
  rw [get?_push_of_lt (lt_size_of_get? hd)]
  exact hd

/-- Filling in bodies of the last class. -/
theorem push_same {table : ClassTable} {c d : Class} (h : SameShape c d) :
    Extends (table.push c) (table.push d) := by
  intro id e he
  rcases get?_push_eq_some he with hold | ⟨rfl, rfl⟩
  · exact push table d id e hold
  · exact ⟨d, get?_push_size, h⟩

theorem knows (h : Extends small big) {ty : Ty} (known : small.Knows ty) : big.Knows ty := by
  cases ty with
  | prim p => trivial
  | object id name =>
    obtain ⟨c, hc, rfl⟩ := known
    obtain ⟨d, hd, same⟩ := h id c hc
    exact ⟨d, hd, same.name⟩

theorem calls (h : Extends small big) {callee : Callee} {owner : Ty} {signature : Signature}
    (leads : small.Calls callee owner signature) : big.Calls callee owner signature := by
  cases leads with
  | builtin b => exact .builtin b
  | @method ref c m howner hfound hnamed =>
    obtain ⟨d, hd, same⟩ := h ref.owner c howner
    obtain ⟨m', hm', hname, hsig⟩ := same.methods ref.index m hfound
    rw [← same.name, ← hsig]
    exact .method hd hm' (hname.trans hnamed)

end ClassTable.Extends

/-- The rules do not see what a larger table adds. -/
theorem WellTyped.extend {small big : ClassTable} (h : small.Extends big) {ownType : Ty}
    {isStatic : Bool} {params : List Param} {scope : List LocalVar} {e : Expr}
    (typed : WellTyped ⟨small, ownType, isStatic, params⟩ scope e) :
    WellTyped ⟨big, ownType, isStatic, params⟩ scope e := by
  induction typed with
  | localVar bound known => exact .localVar bound (h.knows known)
  | param declared known => exact .param declared (h.knows known)
  | receiver present known => exact .receiver present (h.knows known)
  | slot owner found named fits known _ ih =>
    obtain ⟨d, hd, same⟩ := h _ _ owner
    rw [← same.slots] at found
    rw [← same.name] at fits
    exact .slot hd found named fits (h.knows known) ih
  | methodCall leads called fits known _ _ ih ihArgs =>
    exact .methodCall (h.calls leads) called fits (h.knows known) ih ihArgs
  | staticCall leads called fits known _ ihArgs =>
    exact .staticCall (h.calls leads) called fits (h.knows known) ihArgs
  | letSingle known _ _ ih ihBody => exact .letSingle (h.knows known) ih ihBody
  | letIgnore _ _ ih ihBody => exact .letIgnore ih ihBody
  | seq _ _ ih ihBody => exact .seq ih ihBody
  | literal => exact .literal
  | quote fits _ ih => exact .quote fits ih

theorem ClassTyped.extend {small big : ClassTable} (h : small.Extends big) {id : ClassId}
    {c : Class} (typed : ClassTyped small id c) : ClassTyped big id c where
  id_eq := typed.id_eq
  slotsKnown slot hslot := h.knows (typed.slotsKnown slot hslot)
  names := typed.names
  methods m hm := by
    obtain ⟨params, result, body, hbody, hty, hwell, honce⟩ := typed.methods m hm
    exact ⟨fun p hp => h.knows (params p hp), h.knows result, body, hbody, hty, hwell.extend h,
      honce⟩

/-- The type of a well-typed expression is known. -/
theorem WellTyped.knows {ctx : TypingContext} {scope : List LocalVar} {e : Expr}
    (typed : WellTyped ctx scope e) : ctx.table.Knows e.ty := by
  induction typed with
  | localVar _ known => exact known
  | param _ known => exact known
  | receiver _ known => exact known
  | slot _ _ _ _ known _ _ => exact known
  | methodCall _ _ _ known _ _ _ _ | staticCall _ _ _ known _ _ | letIgnore _ _ _ known
  | seq _ _ _ known => exact known
  | letSingle _ _ _ _ ihBody => exact ihBody
  | @literal _ _ value => cases value <;> trivial
  | quote _ _ _ => trivial

end ClassLang.Typed
