import ClassLang.Proofs.ScopedChecking

/-!
# Elaboration

`Elaborates` says once what the checker can make of a tree: which typed tree it gives in a scope, what
it has looked up for it, and how far it has numbered the locals. `elaborates_of_checkExpr` shows that
the checker gives nothing else, so what holds of every typed tree is proved by induction on
`Elaborates`; `Elaborates.checks` in `ElaborationCompleteness` is the other half. A call is the same
whether or not it has arguments, and whether it is written with an operator or with a name;
`BareCall`, `ClassCall` and `MemberCall` say what the two forms have in common.
-/

set_option autoImplicit false

namespace ClassLang

/-! ## Forms of calls -/

namespace Tree.Expr

/-- A call by the bare name of a method. -/
inductive BareCall : Expr → Span → String → List Expr → Prop where
  | access {span : Span} {name : String} : BareCall (.access span name) span name []
  | call {span nameSpan : Span} {name : String} {args : List Expr} :
      BareCall (.call span (.access nameSpan name) args) span name args

/-- A call through the name of a type. -/
inductive ClassCall : Expr → Span → String → String → List Expr → Prop where
  | access {span : Span} {className name : String} :
      ClassCall (.staticAccess span className name) span className name []
  | call {span nameSpan : Span} {className name : String} {args : List Expr} :
      ClassCall (.call span (.staticAccess nameSpan className name) args) span className name args

/-- A call on the value of an expression. -/
inductive MemberCall : Expr → Span → Expr → String → List Expr → Prop where
  | operator {span : Span} {left right : Expr} {name : String} :
      MemberCall (.operatorCall span left name right) span left name [right]
  | call {span nameSpan : Span} {receiver : Expr} {name : String} {args : List Expr} :
      MemberCall (.call span (.property nameSpan receiver name) args) span receiver name args

end Tree.Expr

variable {n k : Nat} {ty : Ty} {tree : Tree.Expr}

namespace Typed

/-! ## Steps that succeed -/

variable {e : Expr} {signature : Signature} {ctx : BodyContext}

section Steps

variable {α β : Type} {x : Except CompileError α}

theorem Check.bind_eq_ok {x : Check α} {f : α → Check β} {b : β} :
    (x >>= f) n = .ok (b, k) ↔ ∃ a m, x n = .ok (a, m) ∧ f a m = .ok (b, k) := by
  change (x n >>= fun p => f p.1 p.2) = .ok (b, k) ↔ _
  rw [Except.bind_eq_ok]
  constructor
  · rintro ⟨⟨a, m⟩, hx, hf⟩
    exact ⟨a, m, hx, hf⟩
  · rintro ⟨a, m, hx, hf⟩
    exact ⟨(a, m), hx, hf⟩

theorem Check.pure_eq_ok {a b : α} : (pure a : Check α) n = .ok (b, k) ↔ b = a ∧ k = n := by
  change (Except.ok (a, n) : Except CompileError (α × Nat)) = .ok (b, k) ↔ _
  simp only [Except.ok.injEq, Prod.mk.injEq]
  exact ⟨fun h => ⟨h.1.symm, h.2.symm⟩, fun h => ⟨h.1.symm, h.2.symm⟩⟩

/-- A step without state, made inside a check. -/
theorem Check.lift_eq_ok {b : α} : (liftM x : Check α) n = .ok (b, k) ↔ x = .ok b ∧ k = n := by
  change (x >>= fun a => .ok (a, n)) = .ok (b, k) ↔ _
  rw [Except.bind_eq_ok]
  constructor
  · rintro ⟨a, hx, ha⟩
    cases Except.ok.inj ha
    exact ⟨hx, rfl⟩
  · rintro ⟨hx, rfl⟩
    exact ⟨b, hx, rfl⟩

theorem Check.lift_bind_eq_ok {f : α → Check β} {r : β × Nat} :
    (liftM x >>= f) n = .ok r ↔ ∃ a, x = .ok a ∧ f a n = .ok r := by
  obtain ⟨b, k⟩ := r
  rw [Check.bind_eq_ok]
  constructor
  · rintro ⟨a, m, hx, hf⟩
    obtain ⟨hx', rfl⟩ := Check.lift_eq_ok.1 hx
    exact ⟨a, hx', hf⟩
  · rintro ⟨a, hx, hf⟩
    exact ⟨a, n, Check.lift_eq_ok.2 ⟨hx, rfl⟩, hf⟩

theorem Check.throw_ne_ok {e : CompileError} {r : α × Nat} : (throw e : Check α) n ≠ .ok r := by
  intro h
  exact nomatch (h : (Except.error e : Except CompileError (α × Nat)) = .ok r)

end Steps

/-! ## What was looked up -/

/-- The surroundings want an expression of this type, or want none in particular. -/
def Demand.Admits (want : Demand) (ty : Ty) : Prop :=
  ∀ other, want = .exactly other → ty = other

theorem Demand.accept_eq_ok {want : Demand} {e' : Expr} (h : want.accept e = .ok e') :
    e' = e ∧ want.Admits e.ty := by
  cases want with
  | exactly ty =>
    by_cases hty : ty = e.ty
    · rw [Demand.accept, if_pos hty] at h
      refine ⟨(Except.ok.inj h).symm, ?_⟩
      intro ty' h'
      exact hty.symm.trans (Demand.exactly.inj h')
    · rw [Demand.accept, if_neg hty] at h
      cases h
  | infer | void => exact ⟨(Except.ok.inj h).symm, fun _ h' => by cases h'⟩

theorem length_of_checkCount {span : Span} {name : String} {given : Nat} {u : Unit}
    (h : checkCount span name signature given = .ok u) : given = signature.params.length := by
  unfold checkCount at h
  split at h
  · next hlen => exact hlen
  · exact nomatch h

section Lookups

variable {span : Span} {name : String} {callee : Callee}

/-- A slot that was looked up through a type is one of a class. -/
theorem find?_slot_inv {table : ClassTable} {slotTy : Ty} {ref : SlotRef}
    (h : find? table ty name = some (.slot ref slotTy)) :
    ∃ className c slot, ty = .object ref.owner className ∧ ref.name = name ∧
      table.get? ref.owner = some c ∧ c.member? name = some (.slot ref.index slot) ∧
      slotTy = slot.ty := by
  cases ty with
  | prim p =>
    obtain ⟨b, -, heq⟩ := Option.map_eq_some_iff.1 h
    cases heq
  | object id className =>
    obtain ⟨c, hc, h⟩ := Option.bind_eq_some_iff.1 h
    obtain ⟨member, hmember, heq⟩ := Option.map_eq_some_iff.1 h
    cases member <;> cases heq
    exact ⟨className, c, _, rfl, rfl, hc, hmember, rfl⟩

/-- A method that was looked up through a type is a builtin of a primitive type or a method of a
class. -/
theorem find?_method_inv {table : ClassTable}
    (h : find? table ty name = some (.method callee signature)) :
    (∃ b, callee = .builtin b ∧ ty = .prim b.owner ∧ b.name = name ∧
      signature = ⟨b.isStatic, b.params.map .prim, .prim b.result⟩) ∨
    ∃ ref className c m, callee = .method ref ∧ ty = .object ref.owner className ∧
      ref.name = name ∧ table.get? ref.owner = some c ∧
      c.member? name = some (.method ref.index m) ∧ signature = m.signature := by
  cases ty with
  | prim p =>
    obtain ⟨b, hb, heq⟩ := Option.map_eq_some_iff.1 h
    cases heq
    have hfound := List.find?_some hb
    obtain ⟨rfl, hname⟩ := of_decide_eq_true hfound
    exact .inl ⟨b, rfl, rfl, hname, rfl⟩
  | object id className =>
    obtain ⟨c, hc, h⟩ := Option.bind_eq_some_iff.1 h
    obtain ⟨member, hmember, heq⟩ := Option.map_eq_some_iff.1 h
    cases member <;> cases heq
    exact .inr ⟨_, className, c, _, rfl, rfl, rfl, hc, hmember, rfl⟩

theorem methodOf_eq_ok (h : ctx.methodOf span ty name = .ok (callee, signature)) :
    find? ctx.table ty name = some (.method callee signature) := by
  unfold BodyContext.methodOf at h
  split at h
  · next hfind =>
    cases h
    exact hfind
  · cases h
  · cases h

theorem instanceMethod_inv (h : ctx.instanceMethod span ty name = .ok (callee, signature)) :
    find? ctx.table ty name = some (.method callee signature) ∧ signature.isStatic = false := by
  obtain ⟨⟨callee', signature'⟩, hmethod, h⟩ := Except.bind_eq_ok.1 h
  dsimp only at h
  split at h
  · cases h
  · next hstatic =>
    cases h
    exact ⟨methodOf_eq_ok hmethod, Bool.eq_false_iff.2 hstatic⟩

theorem staticMethod_inv {className : String}
    (h : ctx.staticMethod span className name = .ok (callee, signature)) :
    ∃ ty, ctx.types.lookup? className = some ty ∧
      find? ctx.table ty name = some (.method callee signature) ∧ signature.isStatic = true := by
  unfold BodyContext.staticMethod at h
  split at h
  · cases h
  · next ty hty =>
    obtain ⟨⟨callee', signature'⟩, hmethod, h⟩ := Except.bind_eq_ok.1 h
    dsimp only at h
    split at h
    · next hstatic =>
      cases h
      exact ⟨ty, hty, methodOf_eq_ok hmethod, hstatic⟩
    · cases h

end Lookups

/-! ## What the checker makes of a tree -/

section Relation

variable (ctx)

/-- In this scope the tree is given as the typed tree, which takes the numbers from the first one on
and below the second one for its locals. The arguments of a call, and the holes of a quote, take
theirs one after the other: the one at `i` those from `steps i` on. -/
inductive Elaborates : Scope → Tree.Expr → Nat → Expr → Nat → Prop where
  | ignore {scope span patternSpan value body value' body' n m k}
      (hvalue : Elaborates scope value n value' m) (hbody : Elaborates scope body m body' k) :
      Elaborates scope (.letIn span (.ignore patternSpan) value body) n
        (.letIn span (.ignore patternSpan) value' body') k
  | declare {scope : Scope} {span patternSpan name value body} {value' body' : Expr} {n m k}
      (free : scope.lookup? name = none) (hvalue : Elaborates scope value n value' m)
      (hbody : Elaborates (⟨name, .localVar m, value'.ty⟩ :: scope) body (m + 1) body' k) :
      Elaborates scope (.letIn span (.single patternSpan name) value body) n
        (.letIn span (.single patternSpan value'.ty m name) value' body') k
  | seq {scope span first body first' body' n m k}
      (hfirst : Elaborates scope first n first' m) (hbody : Elaborates scope body m body' k) :
      Elaborates scope (.seq span first body) n (.seq span first' body') k
  | param {scope : Scope} {span name} {entry : ScopeEntry} {index n}
      (bound : scope.lookup? name = some entry) (hbinding : entry.binding = .param index) :
      Elaborates scope (.access span name) n (.param span entry.ty index name) n
  | localVar {scope : Scope} {span name} {entry : ScopeEntry} {id n}
      (bound : scope.lookup? name = some entry) (hbinding : entry.binding = .localVar id) :
      Elaborates scope (.access span name) n (.localVar span entry.ty id name) n
  | ownSlot {scope : Scope} {span name index n} {slot : Slot} (free : scope.lookup? name = none)
      (found : ctx.owner.member? name = some (.slot index slot))
      (present : ctx.method.isStatic = false) :
      Elaborates scope (.access span name) n
        (.slot span slot.ty ⟨ctx.owner.id, index, name⟩ (.receiver span ctx.owner.ty)) n
  | ownStatic {scope : Scope} {tree : Tree.Expr} {span name} {trees : List Tree.Expr}
      {args : List Expr} {index} {method : Method} {steps : Nat → Nat}
      (form : tree.BareCall span name trees) (free : scope.lookup? name = none)
      (found : ctx.owner.member? name = some (.method index method))
      (static : method.isStatic = true) (fits : args.map Expr.ty = method.paramTypes)
      (count : args.length = trees.length)
      (each : ∀ i tree arg, trees[i]? = some tree → args[i]? = some arg →
        Elaborates scope tree (steps i) arg (steps (i + 1))) :
      Elaborates scope tree (steps 0)
        (.staticCall span method.returnType (.method ⟨ctx.owner.id, index, name⟩) args)
        (steps args.length)
  | ownInstance {scope : Scope} {tree : Tree.Expr} {span name} {trees : List Tree.Expr}
      {args : List Expr} {index} {method : Method} {steps : Nat → Nat}
      (form : tree.BareCall span name trees) (free : scope.lookup? name = none)
      (found : ctx.owner.member? name = some (.method index method))
      (notStatic : method.isStatic = false) (present : ctx.method.isStatic = false)
      (fits : args.map Expr.ty = method.paramTypes) (count : args.length = trees.length)
      (each : ∀ i tree arg, trees[i]? = some tree → args[i]? = some arg →
        Elaborates scope tree (steps i) arg (steps (i + 1))) :
      Elaborates scope tree (steps 0)
        (.methodCall span method.returnType (.method ⟨ctx.owner.id, index, name⟩)
          (.receiver span ctx.owner.ty) args)
        (steps args.length)
  | classCall {scope} {tree : Tree.Expr} {span className name} {trees : List Tree.Expr}
      {args : List Expr} {callee} {signature : Signature} {steps : Nat → Nat}
      (form : tree.ClassCall span className name trees)
      (found : ctx.staticMethod span className name = .ok (callee, signature))
      (fits : args.map Expr.ty = signature.params) (count : args.length = trees.length)
      (each : ∀ i tree arg, trees[i]? = some tree → args[i]? = some arg →
        Elaborates scope tree (steps i) arg (steps (i + 1))) :
      Elaborates scope tree (steps 0) (.staticCall span signature.result callee args)
        (steps args.length)
  | memberCall {scope} {tree receiver : Tree.Expr} {span name} {trees : List Tree.Expr}
      {target : Expr} {args : List Expr} {callee} {signature : Signature} {n} {steps : Nat → Nat}
      (form : tree.MemberCall span receiver name trees)
      (htarget : Elaborates scope receiver n target (steps 0))
      (found : ctx.instanceMethod span target.ty name = .ok (callee, signature))
      (fits : args.map Expr.ty = signature.params) (count : args.length = trees.length)
      (each : ∀ i tree arg, trees[i]? = some tree → args[i]? = some arg →
        Elaborates scope tree (steps i) arg (steps (i + 1))) :
      Elaborates scope tree n (.methodCall span signature.result callee target args)
        (steps args.length)
  | slot {scope tree span name} {target : Expr} {ref ty n k}
      (htarget : Elaborates scope tree n target k)
      (found : find? ctx.table target.ty name = some (.slot ref ty)) :
      Elaborates scope (.property span tree name) n (.slot span ty ref target) k
  | literal {scope span value n} : Elaborates scope (.literal span value) n (.literal span value) n
  | quote {scope span head} {trees : List (Tree.Expr × String)} {holes : List (Expr × String)}
      {steps : Nat → Nat} (fits : ∀ hole ∈ holes, hole.1.ty = .string)
      (texts : holes.map Prod.snd = trees.map Prod.snd)
      (each : ∀ i tree hole, trees[i]? = some tree → holes[i]? = some hole →
        Elaborates scope tree.1 (steps i) hole.1 (steps (i + 1))) :
      Elaborates scope (.quote span head trees) (steps 0) (.quote span head holes)
        (steps holes.length)

end Relation

/-- A typed tree stands where its tree stands. -/
theorem Elaborates.span_eq {scope : Scope} (h : Elaborates ctx scope tree n e k) :
    e.span = tree.span := by
  cases h with
  | ownStatic form _ _ _ _ _ _ | ownInstance form _ _ _ _ _ _ _ | classCall form _ _ _ _
  | memberCall form _ _ _ _ _ => cases form <;> rfl
  | _ => rfl

/-- What holds of each argument whose tree is known holds of each argument. -/
theorem forall_of_each {α β : Type} {trees : List α} {args : List β} {P : Nat → β → Prop}
    (count : args.length = trees.length)
    (each : ∀ i tree arg, trees[i]? = some tree → args[i]? = some arg → P i arg) {i : Nat} {arg : β}
    (harg : args[i]? = some arg) : P i arg := by
  have hi : i < trees.length := count ▸ (List.getElem?_eq_some_iff.1 harg).1
  exact each i trees[i] arg (List.getElem?_eq_getElem hi) harg

/-! ## The checker elaborates -/

section Checks

variable {scope : Scope} {span : Span} {name : String}

/-- The steps of a list of which the first item is done. -/
def stepsFrom (n : Nat) (steps : Nat → Nat) : Nat → Nat
  | 0 => n
  | i + 1 => steps i

/-- Arguments that are elaborated one after the other, with the types that are wanted. -/
structure ElaboratesArgs (ctx : BodyContext) (scope : Scope) (trees : List Tree.Expr)
    (params : List Ty) (args : List Expr) (steps : Nat → Nat) : Prop where
  fits : args.map Expr.ty = params
  count : args.length = trees.length
  each : ∀ i tree arg, trees[i]? = some tree → args[i]? = some arg →
    Elaborates ctx scope tree (steps i) arg (steps (i + 1))

theorem ElaboratesArgs.nil (steps : Nat → Nat) : ElaboratesArgs ctx scope [] [] [] steps :=
  ⟨rfl, rfl, fun _ _ _ htree => by cases htree⟩

theorem ElaboratesArgs.cons {trees : List Tree.Expr} {params : List Ty} {args : List Expr}
    {steps : Nat → Nat} (first : Elaborates ctx scope tree n e (steps 0))
    (rest : ElaboratesArgs ctx scope trees params args steps) :
    ElaboratesArgs ctx scope (tree :: trees) (e.ty :: params) (e :: args) (stepsFrom n steps) where
  fits := congrArg (List.cons _) rest.fits
  count := congrArg Nat.succ rest.count
  each i tree' arg htree harg := by
    cases i with
    | zero =>
      cases htree
      cases harg
      exact first
    | succ i => exact rest.each i tree' arg htree harg

theorem receiver_eq_ok (h : ctx.receiver span name = .ok e) :
    e = .receiver span ctx.owner.ty ∧ ctx.method.isStatic = false := by
  unfold BodyContext.receiver at h
  split at h
  · cases h
  · next hstatic =>
    cases h
    exact ⟨rfl, Bool.eq_false_iff.2 hstatic⟩

/-- A call by a bare name is a call on the receiver, or one through the class itself. -/
theorem elaborates_ownCall {trees : List Tree.Expr} {callee : Callee} {target? : Option Expr}
    {args : List Expr} {steps : Nat → Nat} (form : tree.BareCall span name trees)
    (free : scope.lookup? name = none)
    (h : ctx.ownMethod span name = .ok (callee, signature, target?))
    (hargs : ElaboratesArgs ctx scope trees signature.params args steps) :
    Elaborates ctx scope tree (steps 0) (ownCall span callee signature target? args)
      (steps args.length) := by
  unfold BodyContext.ownMethod at h
  split at h
  · next index method found =>
    dsimp only at h
    split at h
    · next static =>
      cases h
      exact .ownStatic form free found static hargs.fits hargs.count hargs.each
    · next notStatic =>
      obtain ⟨target, htarget, h⟩ := Except.bind_eq_ok.1 h
      cases h
      obtain ⟨rfl, present⟩ := receiver_eq_ok htarget
      exact .ownInstance form free found (Bool.eq_false_iff.2 notStatic) present hargs.fits
        hargs.count hargs.each
  · cases h
  · cases h

theorem params_of_checkCount_zero {u : Unit} (h : checkCount span name signature 0 = .ok u) :
    signature.params = [] :=
  List.eq_nil_of_length_eq_zero (length_of_checkCount h).symm

/-- A name by itself. One that is in scope hides the members of the class. -/
theorem elaborates_access (h : checkAccess ctx scope span name = .ok e) (n : Nat) :
    Elaborates ctx scope (.access span name) n e n := by
  unfold checkAccess at h
  split at h
  · next entry bound =>
    split at h
    · next hbinding =>
      cases h
      exact .param bound hbinding
    · next hbinding =>
      cases h
      exact .localVar bound hbinding
  · next free =>
    split at h
    · next found =>
      obtain ⟨target, htarget, h⟩ := Except.bind_eq_ok.1 h
      cases h
      obtain ⟨rfl, present⟩ := receiver_eq_ok htarget
      exact .ownSlot free found present
    · obtain ⟨⟨callee, signature, target?⟩, hown, h⟩ := Except.bind_eq_ok.1 h
      obtain ⟨_, hcount, h⟩ := Except.bind_eq_ok.1 h
      cases h
      have hargs : ElaboratesArgs ctx scope [] signature.params [] (fun _ => n) :=
        params_of_checkCount_zero hcount ▸ .nil _
      exact elaborates_ownCall .access free hown hargs
    · cases h

theorem elaborates_property {target : Expr} (htarget : Elaborates ctx scope tree n target k)
    (h : ctx.property span target name = .ok e) :
    Elaborates ctx scope (.property span tree name) n e k := by
  unfold BodyContext.property at h
  split at h
  · next found =>
    cases h
    exact .slot htarget found
  · cases h
  · cases h

/-- The last test of an expression changes nothing. -/
theorem elaborated_of_accept {want : Demand} {m : Nat} {e' : Expr}
    (h : Elaborates ctx scope tree n e m)
    (hlast : (liftM (want.accept e) : Check Expr) m = .ok (e', k)) :
    Elaborates ctx scope tree n e' k ∧ want.Admits e'.ty := by
  obtain ⟨haccept, rfl⟩ := Check.lift_eq_ok.1 hlast
  obtain ⟨rfl, wanted⟩ := Demand.accept_eq_ok haccept
  exact ⟨h, wanted⟩

end Checks

mutual

/-- **The checker elaborates.** The induction follows the tree. -/
theorem elaborates_of_checkExpr :
    ∀ (tree : Tree.Expr) {scope : Scope} {want : Demand} {n k : Nat} {e : Expr},
      checkExpr ctx scope want tree n = .ok (e, k) →
      Elaborates ctx scope tree n e k ∧ want.Admits e.ty
  | .letIn span pattern value body, scope, want, n, k, e, h => by
    simp only [checkExpr, Check.bind_eq_ok, Check.pure_eq_ok] at h
    obtain ⟨value', m, hvalue, ⟨pattern', inner⟩, m', hpattern, body', k', hbody, rfl, rfl⟩ := h
    obtain ⟨valueOk, -⟩ := elaborates_of_checkExpr value hvalue
    obtain ⟨bodyOk, wanted⟩ := elaborates_of_checkExpr body hbody
    cases pattern with
    | ignore patternSpan =>
      cases hpattern
      exact ⟨.ignore valueOk bodyOk, wanted⟩
    | single patternSpan name =>
      -- a name that is in scope is not declared again
      by_cases taken : (scope.lookup? name).isSome
      · cases (pattern_taken taken value'.ty patternSpan m).2.symm.trans hpattern
      · cases (pattern_single taken value'.ty patternSpan m).2.symm.trans hpattern
        exact ⟨.declare (Option.not_isSome_iff_eq_none.1 taken) valueOk bodyOk, wanted⟩
    | destruct patternSpan names => cases hpattern
  | .seq span first body, scope, want, n, k, e, h => by
    simp only [checkExpr, Check.bind_eq_ok, Check.pure_eq_ok] at h
    obtain ⟨first', m, hfirst, body', k', hbody, rfl, rfl⟩ := h
    obtain ⟨bodyOk, wanted⟩ := elaborates_of_checkExpr body hbody
    exact ⟨.seq (elaborates_of_checkExpr first hfirst).1 bodyOk, wanted⟩
  | .access span name, scope, want, n, k, e, h => by
    rw [checkExpr, Check.lift_bind_eq_ok] at h
    obtain ⟨e', haccess, h⟩ := h
    exact elaborated_of_accept (elaborates_access haccess n) h
  | .staticAccess span className name, scope, want, n, k, e, h => by
    simp only [checkExpr, Check.lift_bind_eq_ok] at h
    obtain ⟨⟨callee, signature⟩, found, _, hcount, h⟩ := h
    have hargs : ElaboratesArgs ctx scope [] signature.params [] (fun _ => n) :=
      params_of_checkCount_zero hcount ▸ .nil _
    exact elaborated_of_accept (.classCall .access found hargs.fits hargs.count hargs.each) h
  | .operatorCall span left operator right, scope, want, n, k, e, h => by
    simp only [checkExpr, ↓Check.lift_bind_eq_ok, Check.bind_eq_ok] at h
    obtain ⟨target, m, htarget, ⟨callee, signature⟩, found, h⟩ := h
    obtain ⟨targetOk, -⟩ := elaborates_of_checkExpr left htarget
    -- an operator has to lead to a method with exactly one parameter
    rcases hparams : signature.params with _ | ⟨ty, _ | ⟨_, _⟩⟩
    · simp only [hparams] at h
      exact absurd h Check.throw_ne_ok
    · simp only [hparams] at h
      obtain ⟨arg, k', harg, h⟩ := Check.bind_eq_ok.1 h
      obtain ⟨argOk, wanted⟩ := elaborates_of_checkExpr right harg
      have hnone : ElaboratesArgs ctx scope [] [] [] (fun _ => k') := .nil _
      have hargs := ElaboratesArgs.cons argOk hnone
      rw [wanted ty rfl, ← hparams] at hargs
      exact elaborated_of_accept
        (.memberCall .operator targetOk found hargs.fits hargs.count hargs.each) h
    · simp only [hparams] at h
      exact absurd h Check.throw_ne_ok
  | .call span target trees, scope, want, n, k, e, h => by
    cases target with
    | property nameSpan receiver name =>
      simp only [checkExpr, ↓Check.lift_bind_eq_ok, Check.bind_eq_ok] at h
      obtain ⟨target, m, htarget, ⟨callee, signature⟩, found, _, hcount, args, k', hargs, h⟩ := h
      obtain ⟨targetOk, -⟩ := elaborates_of_checkExpr receiver htarget
      obtain ⟨steps, rfl, rfl, argsOk⟩ :=
        elaborates_of_checkArgs trees (length_of_checkCount hcount) hargs
      exact elaborated_of_accept
        (.memberCall .call targetOk found argsOk.fits argsOk.count argsOk.each) h
    | staticAccess nameSpan className name =>
      rw [checkExpr] at h
      simp only [↓Check.lift_bind_eq_ok, Check.bind_eq_ok] at h
      obtain ⟨⟨callee, signature⟩, found, _, hcount, args, k', hargs, h⟩ := h
      obtain ⟨steps, rfl, rfl, argsOk⟩ :=
        elaborates_of_checkArgs trees (length_of_checkCount hcount) hargs
      exact elaborated_of_accept (.classCall .call found argsOk.fits argsOk.count argsOk.each) h
    | access nameSpan name =>
      rw [checkExpr] at h
      split at h
      · exact absurd h Check.throw_ne_ok
      -- what is in scope cannot be called, so the name is that of a member
      next taken =>
        simp only [↓Check.lift_bind_eq_ok, Check.bind_eq_ok] at h
        obtain ⟨⟨callee, signature, target?⟩, hown, _, hcount, args, k', hargs, h⟩ := h
        obtain ⟨steps, rfl, rfl, argsOk⟩ :=
          elaborates_of_checkArgs trees (length_of_checkCount hcount) hargs
        have free := Option.not_isSome_iff_eq_none.1 taken
        exact elaborated_of_accept (elaborates_ownCall .call free hown argsOk) h
    -- nothing else can be called
    | _ => exact absurd h Check.throw_ne_ok
  | .property span target name, scope, want, n, k, e, h => by
    simp only [checkExpr, ↓Check.lift_bind_eq_ok, Check.bind_eq_ok] at h
    obtain ⟨target', m, htarget, e', hproperty, h⟩ := h
    obtain ⟨targetOk, -⟩ := elaborates_of_checkExpr target htarget
    exact elaborated_of_accept (elaborates_property targetOk hproperty) h
  | .literal span value, scope, want, n, k, e, h => by
    rw [checkExpr] at h
    exact elaborated_of_accept .literal h
  | .quote span head holes, scope, want, n, k, e, h => by
    rw [checkExpr, Check.bind_eq_ok] at h
    obtain ⟨holes', m, hholes, h⟩ := h
    obtain ⟨steps, rfl, rfl, fits, texts, each⟩ := elaborates_of_checkHoles holes hholes
    exact elaborated_of_accept (.quote fits texts each) h

theorem elaborates_of_checkArgs :
    ∀ (trees : List Tree.Expr) {scope : Scope} {params : List Ty} {n k : Nat} {args : List Expr},
      trees.length = params.length → checkArgs ctx scope params trees n = .ok (args, k) →
      ∃ steps : Nat → Nat, n = steps 0 ∧ k = steps args.length ∧
        ElaboratesArgs ctx scope trees params args steps
  | [], scope, params, n, k, args, hcount, h => by
    obtain rfl := List.eq_nil_of_length_eq_zero hcount.symm
    rw [checkArgs] at h
    · obtain ⟨rfl, rfl⟩ := Check.pure_eq_ok.1 h
      exact ⟨fun _ => _, rfl, rfl, .nil _⟩
    · simp
  | tree :: trees, scope, params, n, k, args, hcount, h => by
    cases params with
    | nil => cases hcount
    | cons ty params =>
      simp only [checkArgs, Check.bind_eq_ok, Check.pure_eq_ok] at h
      obtain ⟨first, m, hfirst, rest, k', hrest, rfl, rfl⟩ := h
      obtain ⟨firstOk, wanted⟩ := elaborates_of_checkExpr tree hfirst
      obtain ⟨steps, rfl, rfl, restOk⟩ :=
        elaborates_of_checkArgs trees (Nat.succ.inj hcount) hrest
      refine ⟨stepsFrom n steps, rfl, rfl, ?_⟩
      rw [← wanted ty rfl]
      exact .cons firstOk restOk

theorem elaborates_of_checkHoles : ∀ (trees : List (Tree.Expr × String)) {scope : Scope} {n k : Nat}
      {holes : List (Expr × String)}, checkHoles ctx scope trees n = .ok (holes, k) →
      ∃ steps : Nat → Nat, n = steps 0 ∧ k = steps holes.length ∧
        (∀ hole ∈ holes, hole.1.ty = .string) ∧
        holes.map Prod.snd = trees.map Prod.snd ∧
        ∀ i tree hole, trees[i]? = some tree → holes[i]? = some hole →
          Elaborates ctx scope tree.1 (steps i) hole.1 (steps (i + 1))
  | [], scope, n, k, holes, h => by
    rw [checkHoles] at h
    obtain ⟨rfl, rfl⟩ := Check.pure_eq_ok.1 h
    exact ⟨fun _ => _, rfl, rfl, by simp, rfl, fun _ _ _ htree => by cases htree⟩
  | (tree, text) :: trees, scope, n, k, holes, h => by
    simp only [checkHoles, Check.bind_eq_ok, Check.pure_eq_ok] at h
    obtain ⟨first, m, hfirst, rest, k', hrest, rfl, rfl⟩ := h
    obtain ⟨firstOk, wanted⟩ := elaborates_of_checkExpr tree hfirst
    obtain ⟨steps, rfl, rfl, fits, texts, each⟩ := elaborates_of_checkHoles trees hrest
    refine ⟨stepsFrom n steps, rfl, rfl, List.forall_mem_cons.2 ⟨wanted _ rfl, fits⟩,
      congrArg (List.cons text) texts, ?_⟩
    intro i tree' hole htree hhole
    cases i with
    | zero =>
      cases htree
      cases hhole
      exact firstOk
    | succ i => exact each i tree' hole htree hhole

end

end Typed

end ClassLang
