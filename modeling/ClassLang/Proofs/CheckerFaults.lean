import ClassLang.Proofs.ParserFaults
import ClassLang.Proofs.ScopedChecking

/-!
# Where the faults of the checker are

The checker makes no places of its own. A fault that it reports is at a place of the tree, or at one
of the imports that it is given, so what holds of these places holds of the fault (`Blames`). The
main statement is `checkModule_blames`.
-/

set_option autoImplicit false

namespace ClassLang

/-- The stages in which a module is compiled. -/
inductive Stage where
  | lexing
  | parsing
  | searching
  | checking
deriving DecidableEq

/-- The stage that finds a fault. Only a search can come to the end of its bound, as the others
never do. -/
def Fault.stage : Fault → Stage
  | .leadingSpace | .trailingSpace | .tooMuchIndent | .unrecognizedCharacter _
  | .missingFractionDigits | .numberOutOfRange _ | .unterminatedQuote | .badEscape _ => .lexing
  | .unexpected _ | .expected _ _ | .emptyExpression | .precedingEquals | .blockEndsInDeclaration
  | .unaryOperator _ => .parsing
  | .boundReached | .circularDependency _ | .moduleNotFound _ _ _ | .directoryNotFound _ _
  | .unresolvable _ _ | .emptyModulePath | .notImplemented .globalImports => .searching
  | .unbound _ | .duplicateMember _ | .alreadyBound _ | .noSuchMember _ _ | .notAMethod _
  | .notCallable | .staticThroughInstance _ | .instanceWithoutReceiver _
  | .wrongArgumentCount _ _ _ | .typeMismatch _ _ | .inferConflict _ _
  | .notImplemented _ => .checking

/-- What checking finds wrong. A type is inferred from one expression, so that no second type ever
disagrees with it. -/
def Fault.isSemantic : Fault → Bool
  | .unbound _ | .duplicateMember _ | .alreadyBound _ | .noSuchMember _ _ | .notAMethod _
  | .notCallable | .staticThroughInstance _ | .instanceWithoutReceiver _
  | .wrongArgumentCount _ _ _ | .typeMismatch _ _ => true
  | .notImplemented feature => feature ≠ .globalImports
  | _ => false

theorem Fault.stage_of_isSemantic {fault : Fault} (h : fault.isSemantic = true) :
    fault.stage = .checking := by
  cases fault with
  | notImplemented feature => cases feature <;> first | rfl | cases h
  | _ => first | rfl | cases h

namespace Typed

variable {P : Span → Prop} {α β : Type} {x : Except CompileError α}

/-! ## Steps that blame -/

/-- A failure of the step is a fault that checking finds, at a place that satisfies `P`. -/
def Blames (P : Span → Prop) (x : Except CompileError α) : Prop :=
  ∀ e, x = .error e → P e.span ∧ e.fault.isSemantic = true

namespace Blames

variable {y : Except CompileError α}

theorem ok (a : α) : Blames P (.ok a) := fun _ h => nomatch h

theorem error {e : CompileError} (place : P e.span) (semantic : e.fault.isSemantic = true) :
    Blames P (.error e : Except CompileError α) := by
  rintro e' ⟨⟩
  exact ⟨place, semantic⟩

theorem bind {f : α → Except CompileError β} (first : Blames P x)
    (rest : ∀ a, x = .ok a → Blames P (f a)) : Blames P (x >>= f) := by
  cases x with
  | error e =>
    rintro e' ⟨⟩
    exact first e rfl
  | ok a => exact rest a rfl

theorem foldlM {γ : Type} {f : α → γ → Except CompileError α} {items : List γ}
    (step : ∀ a, ∀ item ∈ items, Blames P (f a item)) (a : α) : Blames P (items.foldlM f a) := by
  induction items generalizing a with
  | nil => exact .ok a
  | cons item items ih =>
    rw [List.foldlM_cons]
    refine .bind (step a item List.mem_cons_self) fun a' _ => ?_
    exact ih (fun a item hitem => step a item (List.mem_cons_of_mem _ hitem)) a'

end Blames

/-- The same of a step in a body, whatever locals there are. -/
def CheckBlames (P : Span → Prop) (x : Check α) : Prop := ∀ n, Blames P (x n)

namespace CheckBlames

theorem pure (a : α) : CheckBlames P (Pure.pure a : Check α) := fun n => .ok (a, n)

theorem throw {e : CompileError} (place : P e.span) (semantic : e.fault.isSemantic = true) :
    CheckBlames P (MonadExcept.throw e : Check α) := fun _ => .error place semantic

theorem lift (h : Blames P x) : CheckBlames P (liftM x : Check α) := by
  intro n
  cases x with
  | error e =>
    rintro e' ⟨⟩
    exact h e rfl
  | ok a => exact .ok (a, n)

theorem bind {x : Check α} {f : α → Check β} (first : CheckBlames P x)
    (rest : ∀ a, CheckBlames P (f a)) : CheckBlames P (x >>= f) :=
  fun n => .bind (first n) fun r _ => rest r.1 r.2

/-- What comes behind a step that needs no locals may use what the step gave. -/
theorem lift_bind {f : α → Check β} (first : Blames P x)
    (rest : ∀ a, x = .ok a → CheckBlames P (f a)) : CheckBlames P ((liftM x : Check α) >>= f) := by
  cases x with
  | error e =>
    intro n
    rintro e' ⟨⟩
    exact first e rfl
  | ok a => exact rest a rfl

end CheckBlames

/-! ## Members -/

section Members

variable {ctx : BodyContext} {scope : Scope} {span : Span} {name : String}

theorem receiver_blames (place : P span) : Blames P (ctx.receiver span name) := by
  unfold BodyContext.receiver
  split
  · exact .error place rfl
  · exact .ok _

theorem methodOf_blames (place : P span) (ty : Ty) : Blames P (ctx.methodOf span ty name) := by
  unfold BodyContext.methodOf
  split
  · exact .ok _
  · exact .error place rfl
  · exact .error place rfl

theorem instanceMethod_blames (place : P span) (ty : Ty) :
    Blames P (ctx.instanceMethod span ty name) := by
  refine .bind (methodOf_blames place ty) ?_
  rintro ⟨callee, signature⟩ -
  dsimp only
  split
  · exact .error place rfl
  · exact .ok _

theorem staticMethod_blames (place : P span) (className : String) :
    Blames P (ctx.staticMethod span className name) := by
  unfold BodyContext.staticMethod
  split
  · exact .error place rfl
  refine .bind (methodOf_blames place _) ?_
  rintro ⟨callee, signature⟩ -
  dsimp only
  split
  · exact .ok _
  · exact .error place rfl

theorem ownMethod_blames (place : P span) : Blames P (ctx.ownMethod span name) := by
  unfold BodyContext.ownMethod
  split
  · split
    · exact .ok _
    · exact .bind (receiver_blames place) fun target _ => .ok _
  · exact .error place rfl
  · exact .error place rfl

theorem property_blames (place : P span) (target : Expr) :
    Blames P (ctx.property span target name) := by
  unfold BodyContext.property
  split
  · exact .ok _
  · exact .error place rfl
  · exact .error place rfl

theorem checkCount_blames (place : P span) (signature : Signature) (given : Nat) :
    Blames P (checkCount span name signature given) := by
  unfold checkCount
  split
  · exact .ok _
  · exact .error place rfl

theorem checkAccess_blames (place : P span) : Blames P (checkAccess ctx scope span name) := by
  unfold checkAccess
  split
  · split <;> exact .ok _
  split
  · exact .bind (receiver_blames place) fun target _ => .ok _
  · refine .bind (ownMethod_blames place) fun found _ => ?_
    exact .bind (checkCount_blames place _ _) fun _ _ => .ok _
  · exact .error place rfl

/-- A value of the wrong type is blamed on its own place. -/
theorem accept_blames {e : Expr} (place : P e.span) (want : Demand) :
    Blames P (want.accept e) := by
  unfold Demand.accept
  split
  · split
    · exact .ok _
    · exact .error place rfl
  · exact .ok _
  · exact .ok _

theorem bindPattern_blames {pattern : Tree.Pattern} (place : P pattern.span) (ty : Ty) :
    CheckBlames P (bindPattern scope ty pattern) := by
  cases pattern with
  | ignore span => exact .pure _
  | single span name =>
    rw [bindPattern]
    split
    · exact .throw place rfl
    · exact fun n => .ok _
  | destruct span names => exact .throw place rfl

end Members

/-! ## Bodies -/

/-- The expression is blamed on its own places only, wherever it stands. -/
def ExprBlames (P : Span → Prop) (tree : Tree.Expr) : Prop :=
  ∀ ctx scope want, CheckBlames P (checkExpr ctx scope want tree)

theorem checkArgs_blames {args : List Tree.Expr} (hargs : ∀ arg ∈ args, ExprBlames P arg)
    (ctx : BodyContext) (scope : Scope) (params : List Ty) :
    CheckBlames P (checkArgs ctx scope params args) := by
  induction args generalizing params with
  | nil => cases params <;> exact .pure _
  | cons arg args ih =>
    obtain ⟨harg, hothers⟩ := List.forall_mem_cons.1 hargs
    cases params with
    | nil => exact .pure _
    | cons ty params =>
      rw [checkArgs]
      exact .bind (harg _ _ _) fun first => .bind (ih hothers _) fun rest => .pure _

theorem checkHoles_blames {holes : List (Tree.Expr × String)}
    (hholes : ∀ hole ∈ holes, ExprBlames P hole.1) (ctx : BodyContext) (scope : Scope) :
    CheckBlames P (checkHoles ctx scope holes) := by
  induction holes with
  | nil => exact .pure _
  | cons hole holes ih =>
    obtain ⟨hhole, hothers⟩ := List.forall_mem_cons.1 hholes
    exact .bind (hhole _ _ _) fun first => .bind (ih hothers) fun rest => .pure _

/-- A call is checked by the form of its target, and blamed on its own place or on that of the
target. -/
theorem call_blames {span : Span} {target : Tree.Expr} {args : List Tree.Expr} (place : P span)
    (htarget : P target.span)
    (hreceiver : ∀ s receiver name, target = .property s receiver name → ExprBlames P receiver)
    (hargs : ∀ arg ∈ args, ExprBlames P arg) : ExprBlames P (.call span target args) := by
  intro ctx scope want
  cases target with
  | property s receiver name =>
    rw [checkExpr]
    refine .bind (hreceiver s receiver name rfl _ _ _) fun target => ?_
    refine .lift_bind (instanceMethod_blames place _) fun found _ => ?_
    refine .lift_bind (checkCount_blames place _ _) fun _ _ => ?_
    exact .bind (checkArgs_blames hargs _ _ _) fun args => .lift (accept_blames place _)
  | staticAccess s className name =>
    rw [checkExpr]
    refine .lift_bind (staticMethod_blames place _) fun found _ => ?_
    refine .lift_bind (checkCount_blames place _ _) fun _ _ => ?_
    exact .bind (checkArgs_blames hargs _ _ _) fun args => .lift (accept_blames place _)
  | access s name =>
    rw [checkExpr]
    split
    · exact .throw htarget rfl
    refine .lift_bind (ownMethod_blames place) fun found _ => ?_
    refine .lift_bind (checkCount_blames place _ _) fun _ _ => ?_
    refine .bind (checkArgs_blames hargs _ _ _) fun args => .lift (accept_blames ?_ _)
    rw [span_ownCall]
    exact place
  -- nothing else can be called
  | _ => exact .throw htarget rfl

/-- **Expressions.** The induction is on the places of the tree. A call does not check its target
but what the target is a property of, so that is carried along. -/
theorem checkExpr_blames {tree : Tree.Expr} (places : tree.Places P) :
    ExprBlames P tree ∧
      ∀ s receiver name, tree = .property s receiver name → ExprBlames P receiver := by
  induction places with
  | access place =>
    refine ⟨fun ctx scope want => ?_, fun _ _ _ h => by cases h⟩
    rw [checkExpr]
    refine .lift_bind (checkAccess_blames place) fun e he => .lift (accept_blames ?_ _)
    rw [span_checkAccess he]
    exact place
  | staticAccess place =>
    refine ⟨fun ctx scope want => ?_, fun _ _ _ h => by cases h⟩
    rw [checkExpr]
    refine .lift_bind (staticMethod_blames place _) fun found _ => ?_
    exact .lift_bind (checkCount_blames place _ _) fun _ _ => .lift (accept_blames place _)
  | operatorCall place _ _ ihLeft ihRight =>
    refine ⟨fun ctx scope want => ?_, fun _ _ _ h => by cases h⟩
    rw [checkExpr]
    refine .bind (ihLeft.1 _ _ _) fun target => ?_
    refine .lift_bind (instanceMethod_blames place _) ?_
    rintro ⟨callee, signature⟩ -
    dsimp only
    split
    · exact .bind (ihRight.1 _ _ _) fun arg => .lift (accept_blames place _)
    · exact .throw place rfl
  | call place htarget _ ihTarget ihArgs =>
    refine ⟨?_, fun _ _ _ h => by cases h⟩
    exact call_blames place htarget.span ihTarget.2 fun arg harg => (ihArgs arg harg).1
  | property place _ ihTarget =>
    refine ⟨fun ctx scope want => ?_, ?_⟩
    · rw [checkExpr]
      refine .bind (ihTarget.1 _ _ _) fun target => ?_
      refine .lift_bind (property_blames place _) fun e he => .lift (accept_blames ?_ _)
      -- the type is that of the property, so a mismatch is at the property and not at its target
      rw [span_property he]
      exact place
    · rintro _ _ _ ⟨⟩
      exact ihTarget.1
  | letIn place hpattern _ _ ihValue ihBody =>
    refine ⟨fun ctx scope want => ?_, fun _ _ _ h => by cases h⟩
    rw [checkExpr]
    refine .bind (ihValue.1 _ _ _) fun value => ?_
    refine .bind (bindPattern_blames hpattern _) fun bound => ?_
    exact .bind (ihBody.1 _ _ _) fun body => .pure _
  | seq place _ _ ihFirst ihBody =>
    refine ⟨fun ctx scope want => ?_, fun _ _ _ h => by cases h⟩
    rw [checkExpr]
    exact .bind (ihFirst.1 _ _ _) fun first => .bind (ihBody.1 _ _ _) fun body => .pure _
  | literal place =>
    refine ⟨fun ctx scope want => ?_, fun _ _ _ h => by cases h⟩
    rw [checkExpr]
    exact .lift (accept_blames place _)
  | quote place _ ihHoles =>
    refine ⟨fun ctx scope want => ?_, fun _ _ _ h => by cases h⟩
    rw [checkExpr]
    have hholes := checkHoles_blames fun hole hhole => (ihHoles hole hhole).1
    refine .bind (hholes _ _) fun holes => ?_
    exact .lift (accept_blames place _)

theorem checkBodies_blames {table : ClassTable} {owner : Class} {types : TypeScope}
    {methods : List Method} {trees : List Tree.Method} (places : ∀ m ∈ trees, m.Places P) :
    Blames P (checkBodies table owner types methods trees) := by
  induction methods generalizing trees with
  | nil => exact .ok _
  | cons m methods ih =>
    cases trees with
    | nil => exact .ok _
    | cons tree trees =>
      obtain ⟨htree, hothers⟩ := List.forall_mem_cons.1 places
      have body : Blames P (checkBody table owner types m tree.body) := by
        rw [checkBody_eq]
        refine .bind ?_ fun checked _ => .ok _
        exact .bind ((checkExpr_blames htree.body).1 _ _ _ 0) fun r _ => .ok _
      exact .bind body fun first _ => .bind (ih hothers) fun rest _ => .ok _

/-! ## Shapes -/

variable {imports : List (Span × ClassId)}

theorem importsFrom_blames {table : ClassTable} (places : ∀ entry ∈ imports, P entry.1)
    (known : List (String × Ty)) : Blames P (TypeScope.importsFrom table known imports) := by
  induction imports generalizing known with
  | nil => exact .ok _
  | cons entry imports ih =>
    obtain ⟨place, others⟩ := List.forall_mem_cons.1 places
    rw [TypeScope.importsFrom]
    split
    · exact ih others _
    split
    · exact ih others _
    -- only a name that stands for another class is refused
    split
    · exact ih others _
    · exact .error place rfl

theorem resolve_blames {ty : Tree.TypeExpr} (place : P ty.span) (types : TypeScope) :
    Blames P (types.resolve ty) := by
  cases ty with
  | named span name =>
    rw [TypeScope.resolve]
    split
    · exact .ok _
    · exact .error place rfl
  | generic span name args => exact .error place rfl

theorem shapeParams_blames {params : List Tree.Param} (places : ∀ param ∈ params, param.Places P)
    (types : TypeScope) (known : List Param) : Blames P (shapeParams types known params) := by
  induction params generalizing known with
  | nil => exact .ok _
  | cons param params ih =>
    obtain ⟨hparam, others⟩ := List.forall_mem_cons.1 places
    rw [shapeParams]
    split
    · exact .error hparam.span rfl
    · exact .bind (resolve_blames hparam.ty types) fun ty _ => ih others _

theorem shape_blames {decl : Tree.ClassDecl} (places : decl.Places P) (types : TypeScope)
    (id : ClassId) (path : ModulePath) : Blames P (shape types id path decl) := by
  -- first the slots, one after another, then the methods
  refine .bind (.foldlM (fun c slot hslot => ?_) _) fun c _ => .foldlM (fun c m hm => ?_) _
  · refine .bind (resolve_blames (places.slots slot hslot).ty types) fun ty _ => ?_
    unfold Class.addSlot
    split
    · exact .error (places.slots slot hslot).span rfl
    · exact .ok _
  · refine .bind (shapeParams_blames (places.methods m hm).params types _) fun params _ => ?_
    refine .bind (resolve_blames (places.methods m hm).returnType types) fun ty _ => ?_
    unfold Class.addMethod
    split
    · exact .error (places.methods m hm).span rfl
    · exact .ok _

/-- **Modules.** A module is refused at a place of its tree or at one of its imports. -/
theorem checkModule_refuses {tree : Tree.Module} (places : tree.Places P)
    (himports : ∀ entry ∈ imports, P entry.1) (table : ClassTable) (path : ModulePath) :
    Blames P (checkModule table path tree imports) := by
  refine .bind (importsFrom_blames himports _) fun imported _ => ?_
  refine .bind (shape_blames places.classDecl _ _ _) fun outline _ => ?_
  exact .bind (checkBodies_blames places.classDecl.methods) fun methods _ => .ok _

theorem checkModule_blames {tree : Tree.Module} (places : tree.Places P)
    (himports : ∀ entry ∈ imports, P entry.1) (table : ClassTable) (path : ModulePath)
    (e : CompileError) (h : checkModule table path tree imports = .error e) :
    P e.span ∧ e.fault.stage = .checking := by
  obtain ⟨place, semantic⟩ := checkModule_refuses places himports table path e h
  exact ⟨place, Fault.stage_of_isSemantic semantic⟩

end Typed

end ClassLang
