import ClassLang.Proofs.Elaboration
import ClassLang.Proofs.Grammar

/-!
# The checker accepts all that it elaborates

`elaborates_of_checkExpr` says that the checker gives nothing but what `Elaborates` describes. Here is
the other half: a tree that can be elaborated is accepted wherever the type of its typed form is
wanted, and the checker gives that form (`Elaborates.checks`). The forms of a call are treated
together, with or without arguments, so that a proof about the checker can replace one form by
another.
-/

set_option autoImplicit false

namespace ClassLang.Typed

open Check Demand

/-! ## What is looked up -/

variable {index : Nat} {m : Method} {want : Demand} {e : Expr} {ty : Ty} {callee : Callee}

section Lookups

variable {ctx : BodyContext} {span : Span} {name : String}

theorem accept_of_admits (h : want.Admits e.ty) : want.accept e = .ok e := by
  cases want with
  | exactly ty => rw [accept, if_pos (h ty rfl).symm]
  | infer => rfl
  | void => rfl

theorem check_accept (h : want.Admits e.ty) (n : Nat) :
    (liftM (want.accept e) : Check Expr) n = .ok (e, n) :=
  lift_eq_ok.2 ⟨accept_of_admits h, rfl⟩

theorem Demand.admits_infer (ty : Ty) : infer.Admits ty := by
  intro other heq
  cases heq

theorem Demand.admits_void (ty : Ty) : void.Admits ty := by
  intro other heq
  cases heq

theorem Demand.admits_exactly (ty : Ty) : (exactly ty).Admits ty := by
  intro other heq
  cases heq
  rfl

variable {signature : Signature}

theorem checkCount_of_fits {given : Nat} (h : given = signature.params.length) :
    checkCount span name signature given = .ok () := by
  rw [checkCount, if_pos h]

theorem receiver_of_present (present : ctx.method.isStatic = false) (name : String) :
    ctx.receiver span name = .ok (.receiver span ctx.owner.ty) := by
  rw [BodyContext.receiver, present]
  rfl

theorem ownMethod_of_member (member : ctx.owner.member? name = some (.method index m))
    (called : m.isStatic = false) (present : ctx.method.isStatic = false) :
    ctx.ownMethod span name = .ok (.method ⟨ctx.owner.id, index, name⟩, m.signature,
      some (.receiver span ctx.owner.ty)) := by
  rw [BodyContext.ownMethod, member]
  dsimp only
  rw [called, receiver_of_present present]
  rfl

theorem ownMethod_of_static (member : ctx.owner.member? name = some (.method index m))
    (called : m.isStatic = true) :
    ctx.ownMethod span name = .ok (.method ⟨ctx.owner.id, index, name⟩, m.signature, none) := by
  rw [BodyContext.ownMethod, member]
  dsimp only
  rw [called]
  rfl

theorem methodOf_of_find? (found : find? ctx.table ty name = some (.method callee signature)) :
    ctx.methodOf span ty name = .ok (callee, signature) := by
  rw [BodyContext.methodOf, found]

theorem instanceMethod_of_find? {signature : Signature}
    (found : find? ctx.table ty name = some (.method callee signature))
    (called : signature.isStatic = false) :
    ctx.instanceMethod span ty name = .ok (callee, signature) := by
  refine Except.bind_eq_ok.2 ⟨_, methodOf_of_find? found, ?_⟩
  dsimp only
  rw [called]
  rfl

theorem staticMethod_of_find? {className : String} (known : ctx.types.lookup? className = some ty)
    (found : find? ctx.table ty name = some (.method callee signature))
    (called : signature.isStatic = true) :
    ctx.staticMethod span className name = .ok (callee, signature) := by
  rw [BodyContext.staticMethod, known]
  refine Except.bind_eq_ok.2 ⟨_, methodOf_of_find? found, ?_⟩
  dsimp only
  rw [called]
  rfl

end Lookups

/-! ## Forms of calls -/

section Calls

variable {ctx : BodyContext} {scope : Scope} {span : Span} {name : String} {n k : Nat}
  {tree : Tree.Expr} {trees : List Tree.Expr} {args : List Expr} {signature : Signature}

theorem exists_bareCall (span : Span) (name : String) (trees : List Tree.Expr) :
    ∃ span', (Grammar.callTree (.access span name) trees).BareCall span' name trees ∧
      (span = .nowhere → span' = .nowhere) := by
  cases trees with
  | nil => exact ⟨span, .access, id⟩
  | cons tree trees => exact ⟨.nowhere, .call, fun _ => rfl⟩

theorem exists_classCall (span : Span) (className name : String) (trees : List Tree.Expr) :
    ∃ span', (Grammar.callTree (.staticAccess span className name) trees).ClassCall span' className
      name trees ∧ (span = .nowhere → span' = .nowhere) := by
  cases trees with
  | nil => exact ⟨span, .access, id⟩
  | cons tree trees => exact ⟨.nowhere, .call, fun _ => rfl⟩

/-- Without arguments there is nothing to check. -/
theorem checkArgs_nil (params : List Ty) (n : Nat) :
    checkArgs ctx scope params [] n = .ok ([], n) := by
  cases params <;> rfl

/-- A call by a bare name, with or without arguments. -/
theorem checkExpr_bareCall (form : tree.BareCall span name trees) (free : scope.lookup? name = none)
    (member : ctx.owner.member? name = some (.method index m)) {target? : Option Expr}
    (hown : ctx.ownMethod span name = .ok (callee, signature, target?))
    (count : trees.length = signature.params.length)
    (hargs : checkArgs ctx scope signature.params trees n = .ok (args, k))
    (wanted : want.Admits (ownCall span callee signature target? args).ty) :
    checkExpr ctx scope want tree n = .ok (ownCall span callee signature target? args, k) := by
  cases form with
  | access =>
    cases (checkArgs_nil _ n).symm.trans hargs
    rw [checkExpr, lift_bind_eq_ok]
    refine ⟨_, ?_, check_accept wanted n⟩
    rw [checkAccess, free, member]
    refine Except.bind_eq_ok.2 ⟨_, hown, ?_⟩
    exact Except.bind_eq_ok.2 ⟨(), checkCount_of_fits count, rfl⟩
  | call =>
    have hscope : ¬ (scope.lookup? name).isSome = true := by simp [free]
    rw [checkExpr, if_neg hscope, lift_bind_eq_ok]
    refine ⟨_, hown, ?_⟩
    refine lift_bind_eq_ok.2 ⟨(), checkCount_of_fits count, ?_⟩
    exact bind_eq_ok.2 ⟨args, k, hargs, check_accept wanted k⟩

/-- A call through a type, with or without arguments. -/
theorem checkExpr_classCall {className : String} (form : tree.ClassCall span className name trees)
    (hmethod : ctx.staticMethod span className name = .ok (callee, signature))
    (count : trees.length = signature.params.length)
    (hargs : checkArgs ctx scope signature.params trees n = .ok (args, k))
    (wanted : want.Admits signature.result) :
    checkExpr ctx scope want tree n = .ok (.staticCall span signature.result callee args, k) := by
  cases form with
  | access =>
    cases (checkArgs_nil _ n).symm.trans hargs
    rw [checkExpr, lift_bind_eq_ok]
    refine ⟨_, hmethod, ?_⟩
    exact lift_bind_eq_ok.2 ⟨(), checkCount_of_fits count, check_accept wanted n⟩
  | call =>
    rw [checkExpr, lift_bind_eq_ok]
    refine ⟨_, hmethod, ?_⟩
    refine lift_bind_eq_ok.2 ⟨(), checkCount_of_fits count, ?_⟩
    exact bind_eq_ok.2 ⟨args, k, hargs, check_accept wanted k⟩

/-- A call on the value of an expression, with an operator or with a name. -/
theorem checkExpr_memberCall {receiver : Tree.Expr} {target : Expr} {m : Nat}
    (form : tree.MemberCall span receiver name trees)
    (htarget : checkExpr ctx scope .infer receiver n = .ok (target, m))
    (hmethod : ctx.instanceMethod span target.ty name = .ok (callee, signature))
    (count : trees.length = signature.params.length)
    (hargs : checkArgs ctx scope signature.params trees m = .ok (args, k))
    (wanted : want.Admits signature.result) :
    checkExpr ctx scope want tree n =
      .ok (.methodCall span signature.result callee target args, k) := by
  cases form with
  | operator =>
    rw [checkExpr, bind_eq_ok]
    refine ⟨target, m, htarget, lift_bind_eq_ok.2 ⟨_, hmethod, ?_⟩⟩
    -- the operator has one parameter, which its right side is checked against
    obtain ⟨ty, hparams⟩ := List.length_eq_one_iff.1 count.symm
    rw [hparams, checkArgs, bind_eq_ok] at hargs
    obtain ⟨arg, k', harg, hrest⟩ := hargs
    obtain ⟨others, _, hothers, hrest⟩ := bind_eq_ok.1 hrest
    cases (checkArgs_nil [] k').symm.trans hothers
    obtain ⟨rfl, rfl⟩ := pure_eq_ok.1 hrest
    dsimp only
    rw [hparams]
    exact bind_eq_ok.2 ⟨arg, _, harg, check_accept wanted _⟩
  | call =>
    rw [checkExpr, bind_eq_ok]
    refine ⟨target, m, htarget, lift_bind_eq_ok.2 ⟨_, hmethod, ?_⟩⟩
    refine lift_bind_eq_ok.2 ⟨(), checkCount_of_fits count, ?_⟩
    exact bind_eq_ok.2 ⟨args, k, hargs, check_accept wanted k⟩

end Calls

/-! ## The checker accepts -/

section Accepts

variable {ctx : BodyContext} {scope : Scope}

/-- Arguments that are accepted one after the other, each with the type of its parameter. -/
theorem checkArgs_of_each {trees : List Tree.Expr} {params : List Ty} {args : List Expr}
    {steps : Nat → Nat} (fits : args.map Expr.ty = params) (count : args.length = trees.length)
    (each : ∀ i tree arg, trees[i]? = some tree → args[i]? = some arg →
      ∀ {want : Demand}, want.Admits arg.ty →
        checkExpr ctx scope want tree (steps i) = .ok (arg, steps (i + 1))) :
    trees.length = params.length ∧
      checkArgs ctx scope params trees (steps 0) = .ok (args, steps args.length) := by
  refine ⟨by rw [← count, ← fits, List.length_map], ?_⟩
  subst fits
  induction trees generalizing args steps with
  | nil =>
    obtain rfl := List.eq_nil_of_length_eq_zero count
    rfl
  | cons tree trees ih =>
    obtain ⟨arg, args, rfl⟩ := List.exists_cons_of_length_eq_add_one count
    have hfirst := each 0 tree arg rfl rfl (admits_exactly arg.ty)
    have hrest := @ih args (fun i => steps (i + 1)) (Nat.succ.inj count)
      fun i tree' arg' htree harg => each (i + 1) tree' arg' htree harg
    rw [List.map_cons, checkArgs, bind_eq_ok]
    exact ⟨arg, steps 1, hfirst, bind_eq_ok.2 ⟨args, _, hrest, rfl⟩⟩

theorem checkHoles_of_each {trees : List (Tree.Expr × String)} {holes : List (Expr × String)}
    {steps : Nat → Nat} (fits : ∀ hole ∈ holes, hole.1.ty = .string)
    (texts : holes.map Prod.snd = trees.map Prod.snd)
    (each : ∀ i tree hole, trees[i]? = some tree → holes[i]? = some hole →
      ∀ {want : Demand}, want.Admits hole.1.ty →
        checkExpr ctx scope want tree.1 (steps i) = .ok (hole.1, steps (i + 1))) :
    checkHoles ctx scope trees (steps 0) = .ok (holes, steps holes.length) := by
  induction trees generalizing holes steps with
  | nil =>
    obtain rfl := List.map_eq_nil_iff.1 texts
    rfl
  | cons tree trees ih =>
    obtain ⟨hole, holes, rfl, htext, htexts⟩ := List.map_eq_cons_iff.1 texts
    obtain ⟨tree, text⟩ := tree
    obtain ⟨hole, text'⟩ := hole
    obtain rfl : text' = text := htext
    obtain ⟨hfit, hfits⟩ := List.forall_mem_cons.1 fits
    have hwant : (exactly .string).Admits hole.ty := hfit ▸ admits_exactly hole.ty
    have hfirst := each 0 (tree, text') (hole, text') rfl rfl hwant
    have hrest := @ih holes (fun i => steps (i + 1)) hfits htexts
      fun i tree' hole' htree hhole => each (i + 1) tree' hole' htree hhole
    rw [checkHoles, bind_eq_ok]
    exact ⟨hole, steps 1, hfirst, bind_eq_ok.2 ⟨holes, _, hrest, rfl⟩⟩

/-- **The checker accepts what can be elaborated.** The induction is on the elaboration; what is
wanted of an expression is general, since arguments and values are checked with other demands. -/
theorem Elaborates.checks {tree : Tree.Expr} {n k : Nat} (h : Elaborates ctx scope tree n e k)
    (wanted : want.Admits e.ty) : checkExpr ctx scope want tree n = .ok (e, k) := by
  induction h generalizing want with
  | @ignore scope span patternSpan value body value' body' n m k _ _ ihValue ihBody =>
    rw [checkExpr, bind_eq_ok]
    refine ⟨value', m, ihValue (admits_infer _), ?_⟩
    refine bind_eq_ok.2 ⟨_, m, rfl, ?_⟩
    exact bind_eq_ok.2 ⟨body', k, ihBody wanted, rfl⟩
  | @declare scope span patternSpan name value body value' body' n m k free _ _ ihValue ihBody =>
    have htaken : ¬ (scope.lookup? name).isSome = true := by simp [free]
    rw [checkExpr, bind_eq_ok]
    refine ⟨value', m, ihValue (admits_infer _), ?_⟩
    refine bind_eq_ok.2 ⟨_, m + 1, (pattern_single htaken value'.ty patternSpan m).2, ?_⟩
    exact bind_eq_ok.2 ⟨body', k, ihBody wanted, rfl⟩
  | @seq scope span first body first' body' n m k _ _ ihFirst ihBody =>
    rw [checkExpr, bind_eq_ok]
    refine ⟨first', m, ihFirst (admits_void _), ?_⟩
    exact bind_eq_ok.2 ⟨body', k, ihBody wanted, rfl⟩
  | @param scope span name entry index n bound hbinding
  | @localVar scope span name entry id n bound hbinding =>
    rw [checkExpr, lift_bind_eq_ok]
    refine ⟨_, ?_, check_accept wanted n⟩
    rw [checkAccess, bound]
    dsimp only
    rw [hbinding]
  | @ownSlot scope span name index n slot free found present =>
    rw [checkExpr, lift_bind_eq_ok]
    refine ⟨_, ?_, check_accept wanted n⟩
    rw [checkAccess, free, found]
    exact Except.bind_eq_ok.2 ⟨_, receiver_of_present present name, rfl⟩
  | @ownStatic scope tree span name trees args index method steps form free found static fits count
      _ ih =>
      obtain ⟨hcount, hargs⟩ := checkArgs_of_each fits count ih
      exact checkExpr_bareCall form free found (ownMethod_of_static found static) hcount hargs wanted
  | @ownInstance scope tree span name trees args index method steps form free found notStatic present
      fits count _ ih =>
      obtain ⟨hcount, hargs⟩ := checkArgs_of_each fits count ih
      exact checkExpr_bareCall form free found (ownMethod_of_member found notStatic present) hcount
        hargs wanted
  | @classCall scope tree span className name trees args callee signature steps form found fits count
      _ ih =>
      obtain ⟨hcount, hargs⟩ := checkArgs_of_each fits count ih
      exact checkExpr_classCall form found hcount hargs wanted
  | @memberCall scope tree receiver span name trees target args callee signature n steps form _ found
      fits count _ ihTarget ih =>
      obtain ⟨hcount, hargs⟩ := checkArgs_of_each fits count ih
      exact checkExpr_memberCall form (ihTarget (admits_infer _)) found hcount hargs wanted
  | @slot scope tree span name target ref ty n k _ found ih =>
    rw [checkExpr, bind_eq_ok]
    refine ⟨target, k, ih (admits_infer _), ?_⟩
    refine lift_bind_eq_ok.2 ⟨_, ?_, check_accept wanted k⟩
    rw [BodyContext.property, found]
  | literal =>
    rw [checkExpr]
    exact check_accept wanted _
  | @quote scope span head trees holes steps fits texts _ ih =>
    rw [checkExpr, bind_eq_ok]
    exact ⟨holes, _, checkHoles_of_each fits texts ih, check_accept wanted _⟩

end Accepts

end ClassLang.Typed
