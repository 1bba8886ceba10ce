import ClassLang.Proofs.Steps
import ClassLang.Typed.Checker

/-!
# Checking with the scope as an argument

`BodyCheck.expr` brings the name of a declaration into scope and takes it out again behind the lines
in which it is known. `checkExpr` hands the scope down as an argument instead, and keeps no record of
what is inferred. The main statement is `expr_follows`: where nothing is inferred yet the two give
the same tree or the same error, and the scope is left as it was. What is proved of bodies is proved
of `checkExpr` and holds of `checkBody` by `checkBody_eq`.
-/

set_option autoImplicit false

namespace ClassLang.Typed

open BodyCheck

/-! ## The checker without a state for names -/

/-- What the surroundings want of an expression before anything is inferred. -/
inductive Demand where
  /-- A value of this type. -/
  | exactly (ty : Ty)
  /-- A value of any type. -/
  | infer
  /-- Nothing: the value is discarded. -/
  | void
deriving DecidableEq, Inhabited

namespace Demand

/-- Gives the expression back if it has the wanted type. -/
def accept (want : Demand) (e : Expr) : Except CompileError Expr :=
  match want with
  | .exactly ty => if ty = e.ty then .ok e else .error ⟨e.span, .typeMismatch ty e.ty⟩
  | .infer => .ok e
  | .void => .ok e

/-- What is expected before the type of the expression is known. -/
def expectation : Demand → Expectation
  | .exactly ty => .exactly ty
  | .infer => .infer none
  | .void => .void

/-- What is expected behind an expression of type `ty`. -/
def noted (ty : Ty) : Demand → Expectation
  | .exactly wanted => .exactly wanted
  | .infer => .infer (some ty)
  | .void => .void

end Demand

/-- Checking a body. The state is the number of the next local. -/
abbrev Check := StateT Nat (Except CompileError)

/-- Binds a pattern to a value of type `ty` and gives the scope behind it. -/
def bindPattern (scope : Scope) (ty : Ty) : Tree.Pattern → Check (Pattern × Scope)
  | .ignore span => return (.ignore span, scope)
  | .single span name => do
    if (scope.lookup? name).isSome then throw ⟨span, .alreadyBound name⟩
    else
      let id ← get
      set (id + 1)
      return (.single span ty id name, ⟨name, .localVar id, ty⟩ :: scope)
  | .destruct span _ => throw ⟨span, .notImplemented .destructuring⟩

mutual

/-- Checks an expression and gives its typed form. -/
def checkExpr (ctx : BodyContext) (scope : Scope) (want : Demand) : Tree.Expr → Check Expr
  | .letIn span pattern value body => do
    let value ← checkExpr ctx scope .infer value
    let (pattern, inner) ← bindPattern scope value.ty pattern
    let body ← checkExpr ctx inner want body
    return .letIn span pattern value body
  | .seq span first body => do
    let first ← checkExpr ctx scope .void first
    let body ← checkExpr ctx scope want body
    return .seq span first body
  | .access span name => do
    want.accept (← checkAccess ctx scope span name)
  | .staticAccess span className name => do
    let (callee, signature) ← ctx.staticMethod span className name
    checkCount span name signature 0
    want.accept (.staticCall span signature.result callee [])
  | .operatorCall span left operator right => do
    let target ← checkExpr ctx scope .infer left
    let (callee, signature) ← ctx.instanceMethod span target.ty operator
    match signature.params with
    | [ty] =>
      let arg ← checkExpr ctx scope (.exactly ty) right
      want.accept (.methodCall span signature.result callee target [arg])
    | params => throw ⟨span, .wrongArgumentCount operator params.length 1⟩
  | .call span (.property _ receiver name) args => do
    let target ← checkExpr ctx scope .infer receiver
    let (callee, signature) ← ctx.instanceMethod span target.ty name
    checkCount span name signature args.length
    let args ← checkArgs ctx scope signature.params args
    want.accept (.methodCall span signature.result callee target args)
  | .call span (.staticAccess _ className name) args => do
    let (callee, signature) ← ctx.staticMethod span className name
    checkCount span name signature args.length
    let args ← checkArgs ctx scope signature.params args
    want.accept (.staticCall span signature.result callee args)
  | .call span (.access targetSpan name) args => do
    if (scope.lookup? name).isSome then throw ⟨targetSpan, .notCallable⟩
    else
      let (callee, signature, target?) ← ctx.ownMethod span name
      checkCount span name signature args.length
      let args ← checkArgs ctx scope signature.params args
      want.accept (ownCall span callee signature target? args)
  | .call _ target _ => throw ⟨target.span, .notCallable⟩
  | .property span target name => do
    let target ← checkExpr ctx scope .infer target
    want.accept (← ctx.property span target name)
  | .literal span value => want.accept (.literal span value)
  | .quote span head holes => do
    let holes ← checkHoles ctx scope holes
    want.accept (.quote span head holes)

/-- Checks arguments against the types of their parameters. -/
def checkArgs (ctx : BodyContext) (scope : Scope) :
    (params : List Ty) → List Tree.Expr → Check (List Expr)
  | ty :: params, arg :: args => do
    let first ← checkExpr ctx scope (.exactly ty) arg
    let rest ← checkArgs ctx scope params args
    return first :: rest
  | _, _ => return []

/-- Checks the holes of a quote, which hold texts. -/
def checkHoles (ctx : BodyContext) (scope : Scope) :
    List (Tree.Expr × String) → Check (List (Expr × String))
  | [] => return []
  | (hole, text) :: rest => do
    let first ← checkExpr ctx scope (.exactly .string) hole
    let others ← checkHoles ctx scope rest
    return (first, text) :: others

end

/-! ## Places of typed trees -/

section Places

variable {ctx : BodyContext} {scope : Scope} {span : Span} {name : String}

theorem span_property {target e : Expr} (h : ctx.property span target name = .ok e) :
    e.span = span := by
  unfold BodyContext.property at h
  split at h <;> cases h
  rfl

theorem span_ownCall (callee : Callee) (signature : Signature) (target? : Option Expr)
    (args : List Expr) : (ownCall span callee signature target? args).span = span := by
  cases target? <;> rfl

theorem span_checkAccess {e : Expr} (h : checkAccess ctx scope span name = .ok e) :
    e.span = span := by
  unfold checkAccess at h
  split at h
  · split at h <;> cases h <;> rfl
  split at h
  · obtain ⟨target, -, h⟩ := Except.bind_eq_ok.1 h
    cases h
    rfl
  · obtain ⟨⟨callee, signature, target?⟩, -, h⟩ := Except.bind_eq_ok.1 h
    obtain ⟨_, -, h⟩ := Except.bind_eq_ok.1 h
    cases h
    exact span_ownCall _ _ _ _
  · cases h

end Places

/-! ## Following -/

section Runs

variable {σ α β : Type} {x : StateT σ (Except CompileError) α}
  {f : α → StateT σ (Except CompileError) β} {s s' : σ} {a : α} {e : CompileError}

theorem bind_of_ok (h : x s = .ok (a, s')) : (x >>= f) s = f a s' := by
  change StateT.bind x f s = f a s'
  rw [StateT.bind, h]
  rfl

theorem bind_of_error (h : x s = .error e) : (x >>= f) s = .error e := by
  change StateT.bind x f s = .error e
  rw [StateT.bind, h]
  rfl

end Runs

/-- Started in a scope, the one check gives what the other gives, up to `f`, and leaves the scope as
it was. -/
def Follows {α β : Type} (scope : Scope) (f : β → α) (x : BodyCheck α) (y : Check β) : Prop :=
  ∀ n, x ⟨scope, n⟩ = (fun r => (f r.1, ⟨scope, r.2⟩)) <$> y n

namespace Follows

variable {α β α' β' γ : Type} {scope : Scope} {f : β → α} {g : β' → α'}

protected theorem pure {b : β} {a : α} (h : a = f b) : Follows scope f (pure a) (pure b) := by
  intro n
  rw [h]
  rfl

theorem pure_bind {a : γ} {b : β'} {x : γ → BodyCheck α} {y : β' → Check β}
    (next : Follows scope f (x a) (y b)) : Follows scope f (pure a >>= x) (pure b >>= y) := next

protected theorem throw (e : CompileError) : Follows scope f (throw e) (throw e) := fun _ => rfl

protected theorem bind {x : BodyCheck α} {y : Check β} {x' : α → BodyCheck α'} {y' : β → Check β'}
    (first : Follows scope f x y) (next : ∀ b, Follows scope g (x' (f b)) (y' b)) :
    Follows scope g (x >>= x') (y >>= y') := by
  intro n
  have hfirst := first n
  cases hy : y n with
  | error e =>
    rw [hy] at hfirst
    rw [bind_of_error hfirst, bind_of_error hy]
    rfl
  | ok r =>
    rw [hy] at hfirst
    rw [bind_of_ok hfirst, bind_of_ok hy]
    exact next r.1 r.2

/-- A step that neither reads nor changes the state. -/
theorem lift_bind {x : Except CompileError γ} {x' : γ → BodyCheck α} {y' : γ → Check β}
    (next : ∀ c, x = .ok c → Follows scope f (x' c) (y' c)) :
    Follows scope f (liftM x >>= x') (liftM x >>= y') := by
  intro n
  cases x with
  | error e => rfl
  | ok c => exact next c rfl n

/-- A step that reads the state and sees only its scope. -/
theorem get_bind {x' : BodyState → BodyCheck α} {y : Check β}
    (next : ∀ n, Follows scope f (x' ⟨scope, n⟩) y) : Follows scope f (get >>= x') y :=
  fun n => next n n

/-- The last test of an expression. -/
theorem settle {want : Demand} {span : Span} {e : Expr} (hspan : e.span = span) :
    Follows scope (fun e => (e, want.noted e.ty)) (settle want.expectation span e)
      (liftM (want.accept e)) := by
  intro n
  subst hspan
  cases want with
  | exactly ty =>
    by_cases hty : ty = e.ty
    · simp only [BodyCheck.settle, Demand.expectation, Expectation.accept, Demand.accept, if_pos hty]
      rfl
    · simp only [BodyCheck.settle, Demand.expectation, Expectation.accept, Demand.accept, if_neg hty]
      rfl
  | infer => rfl
  | void => rfl

end Follows

/-! ## The two checkers -/

theorem Scope.unbind_cons (entry : ScopeEntry) (scope : Scope) :
    Scope.unbind (entry :: scope) entry.name = scope := by
  simp [Scope.unbind]

/-- A name that is not in scope is bound to the next local by both checkers. -/
theorem pattern_single {scope : Scope} {name : String} (free : ¬ (scope.lookup? name).isSome)
    (ty : Ty) (span : Span) (n : Nat) :
    pattern ty (.single span name) ⟨scope, n⟩ =
        .ok ((.single span ty n name, some name), ⟨⟨name, .localVar n, ty⟩ :: scope, n + 1⟩) ∧
      bindPattern scope ty (.single span name) n =
        .ok ((.single span ty n name, ⟨name, .localVar n, ty⟩ :: scope), n + 1) := by
  have hbind : scope.bind span ⟨name, .localVar n, ty⟩ = .ok (⟨name, .localVar n, ty⟩ :: scope) :=
    if_neg free
  refine ⟨?_, ?_⟩
  · have hlift : (liftM (scope.bind span ⟨name, .localVar n, ty⟩) : BodyCheck Scope) ⟨scope, n⟩ =
        .ok (⟨name, .localVar n, ty⟩ :: scope, ⟨scope, n⟩) := by
      rw [hbind]
      rfl
    rw [pattern, bind_of_ok (x := get) rfl]
    dsimp only
    rw [bind_of_ok hlift]
    rfl
  · rw [bindPattern, if_neg free]
    rfl

theorem pattern_taken {scope : Scope} {name : String} (taken : (scope.lookup? name).isSome)
    (ty : Ty) (span : Span) (n : Nat) :
    pattern ty (.single span name) ⟨scope, n⟩ = .error ⟨span, .alreadyBound name⟩ ∧
      bindPattern scope ty (.single span name) n = .error ⟨span, .alreadyBound name⟩ := by
  have hbind : scope.bind span ⟨name, .localVar n, ty⟩ = .error ⟨span, .alreadyBound name⟩ :=
    if_pos taken
  refine ⟨?_, ?_⟩
  · have hlift : (liftM (scope.bind span ⟨name, .localVar n, ty⟩) : BodyCheck Scope) ⟨scope, n⟩ =
        .error ⟨span, .alreadyBound name⟩ := by
      rw [hbind]
      rfl
    rw [pattern, bind_of_ok (x := get) rfl]
    dsimp only
    rw [bind_of_error hlift]
  · rw [bindPattern, if_pos taken]
    rfl

mutual

/-- **Expressions.** The two checkers give the same tree or the same error. -/
theorem expr_follows (ctx : BodyContext) :
    ∀ (tree : Tree.Expr) (scope : Scope) (want : Demand),
      Follows scope (fun e => (e, want.noted e.ty)) (expr ctx want.expectation tree)
        (checkExpr ctx scope want tree)
  | .letIn span pattern value body, scope, want => by
    rw [expr, checkExpr]
    refine (expr_follows ctx value scope .infer).bind fun value' => ?_
    dsimp only
    cases pattern with
    | ignore pspan =>
      rw [pattern, bindPattern]
      refine .pure_bind ?_
      refine (expr_follows ctx body scope want).bind fun body' => ?_
      exact .pure rfl
    | single pspan name =>
      intro n
      by_cases taken : (scope.lookup? name).isSome
      · obtain ⟨hpattern, hbind⟩ := pattern_taken taken value'.ty pspan n
        rw [bind_of_error hpattern, bind_of_error hbind]
        rfl
      -- the body is checked with the name in scope, which is taken out again behind it
      obtain ⟨hpattern, hbind⟩ := pattern_single taken value'.ty pspan n
      have hbody := expr_follows ctx body (⟨name, .localVar n, value'.ty⟩ :: scope) want (n + 1)
      rw [bind_of_ok hpattern, bind_of_ok hbind]
      cases hchecked : checkExpr ctx (⟨name, .localVar n, value'.ty⟩ :: scope) want body (n + 1)
        with
      | error e =>
        rw [hchecked] at hbody
        rw [bind_of_error hbody, bind_of_error hchecked]
        rfl
      | ok r =>
        rw [hchecked] at hbody
        rw [bind_of_ok hbody, bind_of_ok hchecked]
        have hscope := Scope.unbind_cons ⟨name, .localVar n, value'.ty⟩ scope
        change Except.ok (_, BodyState.mk (Scope.unbind _ _) _) = _
        rw [hscope]
        rfl
    | destruct pspan parts => exact fun _ => rfl
  | .seq span first body, scope, want => by
    rw [expr, checkExpr]
    refine (expr_follows ctx first scope .void).bind fun first' => ?_
    refine (expr_follows ctx body scope want).bind fun body' => ?_
    exact .pure rfl
  | .access span name, scope, want => by
    rw [expr, checkExpr]
    refine .get_bind fun n => ?_
    exact .lift_bind fun e he => .settle (span_checkAccess he)
  | .staticAccess span className name, scope, want => by
    rw [expr, checkExpr]
    refine .lift_bind fun found _ => ?_
    exact .lift_bind fun _ _ => .settle rfl
  | .operatorCall span left operator right, scope, want => by
    rw [expr, checkExpr]
    refine (expr_follows ctx left scope .infer).bind fun target => ?_
    refine .lift_bind fun found _ => ?_
    obtain ⟨callee, isStatic, params, result⟩ := found
    rcases params with _ | ⟨ty, _ | ⟨ty', params⟩⟩
    · exact .throw _
    · refine (expr_follows ctx right scope (.exactly ty)).bind fun arg => ?_
      exact .settle rfl
    · exact .throw _
  | .call span target args, scope, want => by
    cases target with
    | property pspan receiver name =>
      rw [expr, checkExpr]
      refine (expr_follows ctx receiver scope .infer).bind fun target => ?_
      refine .lift_bind fun found _ => ?_
      refine .lift_bind fun _ _ => ?_
      refine (arguments_follows ctx args scope found.2.params).bind fun args' => ?_
      exact .settle rfl
    | staticAccess tspan className name =>
      rw [expr, checkExpr]
      refine .lift_bind fun found _ => ?_
      refine .lift_bind fun _ _ => ?_
      refine (arguments_follows ctx args scope found.2.params).bind fun args' => ?_
      exact .settle rfl
    | access tspan name =>
      rw [expr, checkExpr]
      refine .get_bind fun n => ?_
      dsimp only
      split
      · exact .throw _
      refine .lift_bind fun found _ => ?_
      refine .lift_bind fun _ _ => ?_
      refine (arguments_follows ctx args scope found.2.1.params).bind fun args' => ?_
      exact .settle (span_ownCall ..)
    -- nothing else can be called
    | _ => exact .throw _
  | .property span target name, scope, want => by
    rw [expr, checkExpr]
    refine (expr_follows ctx target scope .infer).bind fun target' => ?_
    exact .lift_bind fun e he => .settle (span_property he)
  | .literal span value, scope, want => by
    rw [expr, checkExpr]
    exact .settle rfl
  | .quote span head holes, scope, want => by
    rw [expr, checkExpr]
    refine (quoteHoles_follows ctx holes scope).bind fun holes' => ?_
    exact .settle rfl

theorem arguments_follows (ctx : BodyContext) :
    ∀ (trees : List Tree.Expr) (scope : Scope) (params : List Ty),
      Follows scope id (arguments ctx params trees) (checkArgs ctx scope params trees)
  | [], scope, params => by
    rw [arguments, checkArgs]
    · exact .pure rfl
    all_goals simp
  | arg :: args, scope, params => by
    cases params with
    | nil =>
      rw [arguments, checkArgs]
      · exact .pure rfl
      all_goals simp
    | cons ty params =>
      rw [arguments, checkArgs]
      refine (expr_follows ctx arg scope (.exactly ty)).bind fun first => ?_
      refine (arguments_follows ctx args scope params).bind fun rest => ?_
      exact .pure rfl

theorem quoteHoles_follows (ctx : BodyContext) :
    ∀ (holes : List (Tree.Expr × String)) (scope : Scope),
      Follows scope id (quoteHoles ctx holes) (checkHoles ctx scope holes)
  | [], scope => by
    rw [quoteHoles, checkHoles]
    exact .pure rfl
  | (hole, text) :: rest, scope => by
    rw [quoteHoles, checkHoles]
    refine (expr_follows ctx hole scope (.exactly .string)).bind fun first => ?_
    refine (quoteHoles_follows ctx rest scope).bind fun others => ?_
    exact .pure rfl

end

/-- Bodies are checked as if the scope were handed down. -/
theorem checkBody_eq (table : ClassTable) (owner : Class) (types : TypeScope) (method : Method)
    (body : Tree.Expr) :
    checkBody table owner types method body = (do
      let checked ← (checkExpr ⟨table, owner, types, method⟩ (Scope.ofParams method.params)
        (.exactly method.returnType) body).run' 0
      return { method with body := some checked }) := by
  have hfollows := expr_follows ⟨table, owner, types, method⟩ body (Scope.ofParams method.params)
    (.exactly method.returnType) 0
  change (StateT.run' _ _ >>= _) = _
  unfold StateT.run'
  dsimp only [Demand.expectation] at hfollows
  rw [hfollows]
  cases checkExpr ⟨table, owner, types, method⟩ (Scope.ofParams method.params)
      (.exactly method.returnType) body 0 with
  | error e => rfl
  | ok r => rfl

end ClassLang.Typed
