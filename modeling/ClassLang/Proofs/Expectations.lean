import ClassLang.Proofs.CheckerFaults

/-!
# What is expected does not change what is found

A check is told what its surroundings want, and asks for it at one place only: behind the last
expression of a block, when the tree is already known (`Settles`, `expr_settles`). So the tree and
the error of a check are the same whatever is wanted, up to one last test of the type. What is
inferred is recorded once, and no second type can disagree with it. The main statement is
`expectation_changes_nothing`.
-/

set_option autoImplicit false

namespace ClassLang

open Typed.BodyCheck

/-- The last expression of a block, behind its declarations and discarded lines. -/
def Tree.Expr.last : Tree.Expr → Tree.Expr
  | .letIn _ _ _ body => body.last
  | .seq _ _ body => body.last
  | e => e

namespace Typed

/-! ## One test at the end -/

/-- A check for which it matters what is wanted in one last test only, at `span`. -/
def Settles (span : Span) (x : Expectation → BodyCheck (Expr × Expectation)) : Prop :=
  ∀ want s, x want s = do
    let r ← x .void s
    let known ← want.accept span r.1.1.ty
    .ok ((r.1.1, known), r.2)

namespace Settles

variable {α : Type} {span : Span} {x : Expectation → BodyCheck (Expr × Expectation)}

theorem settle (span : Span) (e : Expr) : Settles span fun want => settle want span e := by
  intro want s
  change (liftM (want.accept span e.ty) >>= fun known => pure (e, known) : BodyCheck _) s =
    (want.accept span e.ty >>= fun known => .ok ((e, known), s))
  cases want.accept span e.ty with
  | error e => rfl
  | ok known => rfl

protected theorem throw (e : CompileError) : Settles span fun _ => throw e := fun _ _ => rfl

/-- A step in front of which nothing is asked. -/
protected theorem bind {first : BodyCheck α} {f : α → Expectation → BodyCheck (Expr × Expectation)}
    (next : ∀ a, Settles span (f a)) : Settles span fun want => first >>= fun a => f a want := by
  intro want s
  dsimp only
  cases hfirst : first s with
  | error e =>
    rw [bind_of_error hfirst, bind_of_error hfirst]
    rfl
  | ok r =>
    rw [bind_of_ok hfirst, bind_of_ok hfirst]
    exact next r.1 want r.2

/-- What is put around a tree behind the test, without a change of its type. -/
theorem wrap (h : Settles span x) {k : Expr × Expectation → BodyCheck (Expr × Expectation)}
    {f : Expr → Expr} {g : BodyState → BodyState} (hty : ∀ e, (f e).ty = e.ty)
    (hk : ∀ e known s, k (e, known) s = .ok ((f e, known), g s)) :
    Settles span fun want => x want >>= k := by
  intro want s
  have hwant := h want s
  dsimp only
  cases hvoid : x .void s with
  | error e =>
    rw [hvoid] at hwant
    rw [bind_of_error hwant, bind_of_error hvoid]
    rfl
  | ok r =>
    obtain ⟨⟨e, known⟩, s'⟩ := r
    rw [hvoid] at hwant
    rw [bind_of_ok hvoid, hk]
    change _ = want.accept span (f e).ty >>= fun known => .ok ((f e, known), g s')
    rw [hty]
    change x want s = (want.accept span e.ty >>= fun known => .ok ((e, known), s')) at hwant
    cases haccept : want.accept span e.ty with
    | error fault =>
      rw [haccept] at hwant
      rw [bind_of_error hwant]
      rfl
    | ok known' =>
      rw [haccept] at hwant
      rw [bind_of_ok hwant, hk]
      rfl

end Settles

theorem unbind_eq_ok (name? : Option String) :
    ∃ g : BodyState → BodyState, ∀ s, unbind name? s = .ok ((), g s) := by
  cases name? with
  | none => exact ⟨id, fun _ => rfl⟩
  | some name => exact ⟨fun s => { s with scope := s.scope.unbind name }, fun _ => rfl⟩

/-- **Expressions.** The induction is along the lines of a block: what is wanted is handed on to the
lines behind a declaration and behind a discarded value, and to nothing else. -/
theorem expr_settles (ctx : BodyContext) :
    ∀ tree : Tree.Expr, Settles tree.last.span fun want => expr ctx want tree
  | .letIn span pattern value body => by
    simp only [expr, Tree.Expr.last]
    refine .bind fun value' => .bind fun bound => ?_
    obtain ⟨g, hg⟩ := unbind_eq_ok bound.2
    refine (expr_settles ctx body).wrap (f := .letIn span bound.1 value'.1) (g := g)
      (fun _ => rfl) fun e known s => ?_
    exact bind_of_ok (hg s)
  | .seq span first body => by
    simp only [expr, Tree.Expr.last]
    refine .bind fun first' => ?_
    exact (expr_settles ctx body).wrap (f := .seq span first'.1) (g := id) (fun _ => rfl)
      fun e known s => rfl
  | .access span name => by
    simp only [expr]
    exact .bind fun s => .bind fun e => .settle span e
  | .staticAccess span className name => by
    simp only [expr]
    exact .bind fun found => .bind fun _ => .settle span _
  | .operatorCall span left operator right => by
    simp only [expr]
    refine .bind fun target => .bind fun found => ?_
    obtain ⟨callee, isStatic, params, result⟩ := found
    rcases params with _ | ⟨ty, _ | ⟨ty', params⟩⟩
    · exact .throw _
    · exact .bind fun arg => .settle span _
    · exact .throw _
  | .call span target args => by
    cases target with
    | property pspan receiver name =>
      simp only [expr]
      exact .bind fun target => .bind fun found => .bind fun _ => .bind fun args' => .settle span _
    | staticAccess tspan className name =>
      simp only [expr]
      exact .bind fun found => .bind fun _ => .bind fun args' => .settle span _
    | access tspan name =>
      simp only [expr]
      refine .bind fun s => ?_
      split
      · exact .throw _
      · exact .bind fun found => .bind fun _ => .bind fun args' => .settle span _
    -- nothing else can be called
    | _ => exact .throw _
  | .property span target name => by
    simp only [expr]
    exact .bind fun target' => .bind fun e => .settle span e
  | .literal span value => by
    simp only [expr]
    exact .settle span _
  | .quote span head holes => by
    simp only [expr]
    exact .bind fun holes' => .settle span _

theorem expr_eq (ctx : BodyContext) (want : Expectation) (tree : Tree.Expr) (s : BodyState) :
    expr ctx want tree s = (do
      let r ← expr ctx .void tree s
      let known ← want.accept tree.last.span r.1.1.ty
      .ok ((r.1.1, known), r.2)) :=
  expr_settles ctx tree want s

/-! ## Results -/

/-- The tree that a check gives and the state behind it, apart from what is inferred. -/
def BodyCheck.elaborated (ctx : BodyContext) (want : Expectation) (tree : Tree.Expr)
    (s : BodyState) : Except CompileError (Expr × BodyState) :=
  (fun r => (r.1.1, r.2)) <$> expr ctx want tree s

theorem elaborated_eq (ctx : BodyContext) (want : Expectation) (tree : Tree.Expr) (s : BodyState) :
    elaborated ctx want tree s = (do
      let r ← elaborated ctx .void tree s
      let _ ← want.accept tree.last.span r.1.ty
      .ok r) := by
  unfold elaborated
  rw [expr_eq]
  cases expr ctx .void tree s with
  | error e => rfl
  | ok r =>
    change _ <$> (want.accept tree.last.span r.1.1.ty >>= fun known => .ok ((r.1.1, known), r.2)) =
      (want.accept tree.last.span r.1.1.ty >>= fun _ => .ok (r.1.1, r.2))
    cases want.accept tree.last.span r.1.1.ty with
    | error e => rfl
    | ok known => rfl

/-- A value that is inferred is checked as one that is discarded. -/
theorem elaborated_infer (ctx : BodyContext) (tree : Tree.Expr) (s : BodyState) :
    elaborated ctx (.infer none) tree s = elaborated ctx .void tree s := by
  rw [elaborated_eq]
  cases elaborated ctx .void tree s with
  | error e => rfl
  | ok r => rfl

variable {ctx : BodyContext} {tree : Tree.Expr}

/-- A value of a wanted type is checked as one that is inferred, and its type is compared last. -/
theorem elaborated_exactly {s s' : BodyState} {e : Expr}
    (h : elaborated ctx (.infer none) tree s = .ok (e, s')) (ty : Ty) :
    elaborated ctx (.exactly ty) tree s =
      if e.ty = ty then .ok (e, s')
      else .error ⟨tree.last.span, .typeMismatch ty e.ty⟩ := by
  rw [elaborated_infer] at h
  rw [elaborated_eq, h]
  change (Expectation.accept tree.last.span e.ty (.exactly ty) >>= fun _ => .ok (e, s')) = _
  by_cases hty : e.ty = ty
  · rw [Expectation.accept, if_pos hty.symm, if_pos hty]
    rfl
  · rw [Expectation.accept, if_neg (Ne.symm hty), if_neg hty]
    rfl

theorem elaborated_exactly_error {s : BodyState} {fault : CompileError}
    (h : elaborated ctx (.infer none) tree s = .error fault) (ty : Ty) :
    elaborated ctx (.exactly ty) tree s = .error fault := by
  rw [elaborated_infer] at h
  rw [elaborated_eq, h]
  rfl

/-- What is inferred is the type of the tree. -/
theorem known_of_infer {s s' : BodyState} {e : Expr} {known : Expectation}
    (h : expr ctx (.infer none) tree s = .ok ((e, known), s')) :
    known = .infer (some e.ty) := by
  rw [expr_eq] at h
  obtain ⟨r, -, h⟩ := Except.bind_eq_ok.1 h
  obtain ⟨known', haccept, h⟩ := Except.bind_eq_ok.1 h
  cases haccept
  cases h
  rfl

end Typed

/-! ## Modules -/

section AllPlaces

variable {P : Span → Prop}

mutual

theorem Tree.Expr.places_of_all (all : ∀ span, P span) : ∀ e : Tree.Expr, e.Places P
  | .access span _ => .access (all span)
  | .staticAccess span _ _ => .staticAccess (all span)
  | .operatorCall span left _ right =>
    .operatorCall (all span) (left.places_of_all all) (right.places_of_all all)
  | .call span target args => .call (all span) (target.places_of_all all) (exprsPlaces_of_all all args)
  | .property span target _ => .property (all span) (target.places_of_all all)
  | .letIn span pattern value body =>
    .letIn (all span) (all pattern.span) (value.places_of_all all) (body.places_of_all all)
  | .seq span first body => .seq (all span) (first.places_of_all all) (body.places_of_all all)
  | .literal span _ => .literal (all span)
  | .quote span _ holes => .quote (all span) (holesPlaces_of_all all holes)

theorem Tree.exprsPlaces_of_all (all : ∀ span, P span) :
    ∀ es : List Tree.Expr, ∀ e ∈ es, e.Places P
  | [] => by simp
  | e :: es => List.forall_mem_cons.2 ⟨e.places_of_all all, exprsPlaces_of_all all es⟩

theorem Tree.holesPlaces_of_all (all : ∀ span, P span) :
    ∀ holes : List (Tree.Expr × String), ∀ hole ∈ holes, hole.1.Places P
  | [] => by simp
  | (hole, _) :: holes => List.forall_mem_cons.2 ⟨hole.places_of_all all, holesPlaces_of_all all holes⟩

end

theorem Tree.Module.places_of_all (all : ∀ span, P span) (m : Tree.Module) : m.Places P where
  imports item _ := all item.span
  classDecl :=
    { slots := fun slot _ => ⟨all slot.span, all slot.ty.span⟩
      methods := fun method _ =>
        { span := all method.span
          returnType := all method.returnType.span
          params := fun param _ => ⟨all param.span, all param.ty.span⟩
          body := method.body.places_of_all all } }

end AllPlaces

/-- **What is expected changes nothing.** In any context and state, an expression that is inferred
gives the tree or the error that it gives where its value is discarded. Where a type is wanted, it
fails as it would when inferred; if it does not, it gives the same tree when the type is the wanted
one, and else a mismatch at the last expression of the block. What is recorded of an inferred
expression is the type of its tree, and no module is refused because two types were inferred. -/
theorem expectation_changes_nothing :
    (∀ (ctx : Typed.BodyContext) (tree : Tree.Expr) (s : Typed.BodyState),
      Typed.BodyCheck.elaborated ctx .void tree s =
          Typed.BodyCheck.elaborated ctx (.infer none) tree s ∧
      (∀ ty fault, Typed.BodyCheck.elaborated ctx (.infer none) tree s = .error fault →
        Typed.BodyCheck.elaborated ctx (.exactly ty) tree s = .error fault) ∧
      (∀ ty e s', Typed.BodyCheck.elaborated ctx (.infer none) tree s = .ok (e, s') →
        Typed.BodyCheck.elaborated ctx (.exactly ty) tree s =
          if e.ty = ty then .ok (e, s')
          else .error ⟨tree.last.span, .typeMismatch ty e.ty⟩) ∧
      ∀ e known s', Typed.BodyCheck.expr ctx (.infer none) tree s = .ok ((e, known), s') →
        known = .infer (some e.ty)) ∧
    ∀ (table : Typed.ClassTable) (path : ModulePath) (tree : Tree.Module)
      (imports : List (Span × ClassId)) (e : CompileError),
      Typed.checkModule table path tree imports = .error e →
        ∀ first second, e.fault ≠ .inferConflict first second := by
  refine ⟨fun ctx tree s => ⟨?_, ?_, ?_, ?_⟩, ?_⟩
  · exact (Typed.elaborated_infer ctx tree s).symm
  · exact fun ty fault h => Typed.elaborated_exactly_error h ty
  · exact fun ty e s' h => Typed.elaborated_exactly h ty
  · exact fun e known s' h => Typed.known_of_infer h
  · intro table path tree imports e h first second hfault
    have semantic := (Typed.checkModule_refuses (P := fun _ => True)
      (tree.places_of_all fun _ => trivial) (fun _ _ => trivial) table path e h).2
    rw [hfault] at semantic
    cases semantic

/-- A block of two lines, `x = 1` and `"a"`. -/
def textBehindNumber : Tree.Expr :=
  .letIn ⟨0, 9⟩ (.single ⟨0, 1⟩ "x") (.literal ⟨4, 5⟩ (.int 1)) (.literal ⟨6, 9⟩ (.str "a"))

/-- The block is a text when inferred; where a number is wanted it is refused at its second line. -/
theorem expectation_of_textBehindNumber : ∃ (ctx : Typed.BodyContext) (e : Typed.Expr)
    (s' : Typed.BodyState),
    Typed.BodyCheck.elaborated ctx (.infer none) textBehindNumber ⟨[], 0⟩ = .ok (e, s') ∧
    s' = ⟨[], 1⟩ ∧ e.ty = .string ∧
    Typed.BodyCheck.elaborated ctx (.exactly .string) textBehindNumber ⟨[], 0⟩ = .ok (e, s') ∧
    Typed.BodyCheck.elaborated ctx (.exactly .int) textBehindNumber ⟨[], 0⟩ =
      .error ⟨⟨6, 9⟩, .typeMismatch .int .string⟩ := by
  refine ⟨⟨.empty, default, ⟨"A", .int, []⟩, default⟩, .letIn ⟨0, 9⟩ (.single ⟨0, 1⟩ .int 0 "x")
    (.literal ⟨4, 5⟩ (.int 1)) (.literal ⟨6, 9⟩ (.str "a")), ⟨[], 1⟩, rfl, rfl, rfl, ?_, ?_⟩
  · exact (expectation_changes_nothing.1 _ textBehindNumber ⟨[], 0⟩).2.2.1 .string _ _ rfl
  · exact (expectation_changes_nothing.1 _ textBehindNumber ⟨[], 0⟩).2.2.1 .int _ _ rfl

end ClassLang
