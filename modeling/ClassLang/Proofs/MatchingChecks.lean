import ClassLang.Proofs.ElaborationCompleteness
import ClassLang.Proofs.Matching

/-!
# Checking what matches

`Agree` relates two steps that fail together or succeed together. The checker cannot tell apart what
matches: `checkExpr_matches` says so for a body, `shape_agree` for the outline of a class and
`checkModule_matches` for a whole module. All that it asks of the numbers of classes is that different
ones stand for different ones.
-/

set_option autoImplicit false

namespace ClassLang.Typed

open List TypeScope

variable {M : Matching} {imports imports' : List (Span × ClassId)}

/-! ## Steps that agree -/

section Agree

variable {α β γ δ : Type} {R : α → β → Prop} {S : γ → δ → Prop} {x : Except CompileError α}
  {y : Except CompileError β} {f : α → Except CompileError γ} {g : β → Except CompileError δ}

/-- Both steps fail, or both succeed with related results. -/
inductive Agree (R : α → β → Prop) : Except CompileError α → Except CompileError β → Prop where
  | ok {a : α} {b : β} (h : R a b) : Agree R (.ok a) (.ok b)
  | error (e e' : CompileError) : Agree R (.error e) (.error e')

theorem Agree.bind (h : Agree R x y) (behind : ∀ a b, R a b → Agree S (f a) (g b)) :
    Agree S (x >>= f) (y >>= g) := by
  cases h with
  | ok h => exact behind _ _ h
  | error e e' => exact .error e e'

theorem Agree.bind_eq {y : Except CompileError α} {g : α → Except CompileError δ} (h : Agree Eq x y)
    (behind : ∀ a, Agree S (f a) (g a)) : Agree S (x >>= f) (y >>= g) :=
  h.bind fun a _ heq => heq ▸ behind a

theorem Agree.foldlM {T : γ → δ → Prop} {f : α → γ → Except CompileError α}
    {g : β → δ → Except CompileError β}
    (step : ∀ c d, T c d → ∀ a b, R a b → Agree R (f a c) (g b d)) {cs : List γ} {ds : List δ}
    (h : Forall₂ T cs ds) {a : α} {b : β} (start : R a b) :
    Agree R (cs.foldlM f a) (ds.foldlM g b) := by
  induction h generalizing a b with
  | nil => exact .ok start
  | cons hcd _ ih =>
    rw [foldlM_cons, foldlM_cons]
    exact (step _ _ hcd a b start).bind fun _ _ hab => ih hab

theorem Agree.mapM (step : ∀ a b, R a b → Agree S (f a) (g b)) {as : List α} {bs : List β}
    (h : Forall₂ R as bs) : Agree (Forall₂ S) (as.mapM f) (bs.mapM g) := by
  induction h with
  | nil => exact .ok .nil
  | cons hab _ ih =>
    rw [mapM_cons, mapM_cons]
    refine (step _ _ hab).bind fun _ _ hfirst => ih.bind fun _ _ hrest => ?_
    exact .ok (.cons hfirst hrest)

theorem Agree.of_ok {a : α} (h : Agree R x y) (hx : x = .ok a) : ∃ b, y = .ok b ∧ R a b := by
  subst hx
  cases h with
  | ok h => exact ⟨_, rfl, h⟩

end Agree

/-! ## Scopes and contexts -/

/-- Two type scopes in which the same names stand for types that match. -/
def TypeScope.Matches (M : Matching) (types types' : TypeScope) : Prop :=
  ∀ name, Option.Rel (Ty.Matches M) (types.lookup? name) (types'.lookup? name)

structure ScopeEntry.Matches (M : Matching) (entry entry' : ScopeEntry) : Prop where
  name : entry'.name = entry.name
  binding : entry'.binding = entry.binding
  ty : entry.ty.Matches M entry'.ty

abbrev Scope.Matches (M : Matching) (scope scope' : Scope) : Prop :=
  Forall₂ (ScopeEntry.Matches M) scope scope'

theorem Scope.Matches.lookup? {scope scope' : Scope} (h : Scope.Matches M scope scope')
    (name : String) :
    Option.Rel (ScopeEntry.Matches M) (scope.lookup? name) (scope'.lookup? name) :=
  forall₂_find? (fun _ _ hentry => by rw [hentry.name]) h

theorem Scope.Matches.free {scope scope' : Scope} (h : Scope.Matches M scope scope') {name : String}
    (free : scope.lookup? name = none) : scope'.lookup? name = none := by
  have hfound := h.lookup? name
  rw [free] at hfound
  generalize scope'.lookup? name = found at hfound
  cases hfound
  rfl

theorem Scope.matches_ofParams {params params' : List Param}
    (h : Forall₂ (Param.Matches M) params params') :
    Scope.Matches M (Scope.ofParams params) (Scope.ofParams params') := by
  refine rel_reverse (rel_map ?_ (forall₂_zipIdx h 0))
  rintro ⟨param, index⟩ ⟨param', index'⟩ ⟨hparam, hindex⟩
  obtain rfl : index = index' := hindex
  exact ⟨hparam.name, rfl, hparam.ty⟩

/-- Two contexts that no body tells apart. -/
structure BodyContext.Matches (M : Matching) (ctx ctx' : BodyContext) : Prop where
  unique : Relator.BiUnique M.ids
  table : ctx.table.Matches M ctx'.table
  owner : ctx.owner.Matches M ctx'.owner
  types : ctx.types.Matches M ctx'.types
  isStatic : ctx'.method.isStatic = ctx.method.isStatic

/-! ## Forms of calls -/

section Forms

open Tree.Expr (BareCall ClassCall MemberCall)

variable {tree tree' receiver : Tree.Expr} {span : Span} {className name : String}
  {trees : List Tree.Expr}

theorem exists_bareCall_matching : tree.BareCall span name trees → tree.Matches M tree' →
    ∃ span' trees', tree'.BareCall span' name trees' ∧ M.places span span' ∧
      Tree.ExprsMatch M trees trees'
  | .access, .access place _ => ⟨_, _, .access, place, .nil⟩
  | .call, .call place (.access _ _) hargs => ⟨_, _, .call, place, hargs⟩

theorem exists_classCall_matching : tree.ClassCall span className name trees → tree.Matches M tree' →
    ∃ span' trees', tree'.ClassCall span' className name trees' ∧ M.places span span' ∧
      Tree.ExprsMatch M trees trees'
  | .access, .staticAccess place _ _ => ⟨_, _, .access, place, .nil⟩
  | .call, .call place (.staticAccess _ _ _) hargs => ⟨_, _, .call, place, hargs⟩

theorem exists_memberCall_matching : tree.MemberCall span receiver name trees →
    tree.Matches M tree' → ∃ span' receiver' trees', tree'.MemberCall span' receiver' name trees' ∧
      M.places span span' ∧ receiver.Matches M receiver' ∧ Tree.ExprsMatch M trees trees'
  | .operator, .operatorCall place hleft _ hright =>
    ⟨_, _, _, .operator, place, hleft, .cons hright .nil⟩
  | .call, .call place (.property _ hreceiver _) hargs => ⟨_, _, _, .call, place, hreceiver, hargs⟩

end Forms

/-! ## Bodies -/

theorem exists_of_rel {α β : Type} {R : α → β → Prop} {x : Option α} {y : Option β} {a : α}
    (h : Option.Rel R x y) (hx : x = some a) : ∃ b, y = some b ∧ R a b := by
  subst hx
  cases h with
  | some h => exact ⟨_, rfl, h⟩

section Bodies

variable {ctx ctx' : BodyContext} {scope scope' : Scope} {tree tree' : Tree.Expr} {n k : Nat}

/-- Lists that are made item by item from lists that match. -/
theorem exists_forall₂ {α β : Type} {R : α → α → Prop} {S : β → β → Prop} {P : Nat → α → β → Prop}
    {xs xs' : List α} {ys : List β} (h : Forall₂ R xs xs') (count : ys.length = xs.length)
    (each : ∀ i x y, xs[i]? = some x → ys[i]? = some y → ∀ x', R x x' → ∃ y', P i x' y' ∧ S y y') :
    ∃ ys', Forall₂ S ys ys' ∧
      ∀ i x y, xs'[i]? = some x → ys'[i]? = some y → P i x y := by
  induction h generalizing ys P with
  | nil =>
    obtain rfl := eq_nil_of_length_eq_zero count
    exact ⟨[], .nil, fun _ _ _ h => nomatch h⟩
  | cons first _ ih =>
    obtain ⟨y, ys, rfl⟩ := exists_cons_of_length_eq_add_one count
    obtain ⟨y', hy, hfirst⟩ := each 0 _ y rfl rfl _ first
    obtain ⟨ys', hrest, hys⟩ := @ih (fun i => P (i + 1)) ys (Nat.succ.inj count)
      fun i => each (i + 1)
    refine ⟨y' :: ys', .cons hfirst hrest, ?_⟩
    rintro (_ | i) x z hx hz
    · cases hx
      cases hz
      exact hy
    · exact hys i x z hx hz

/-- The arguments of a call, for parameters that match. -/
theorem exists_args (unique : Relator.BiUnique M.ids) {trees trees' : List Tree.Expr}
    {args : List Expr} {params params' : List Ty} {steps : Nat → Nat}
    (htrees : Tree.ExprsMatch M trees trees') (hparams : Forall₂ (Ty.Matches M) params params')
    (fits : args.map Expr.ty = params) (count : args.length = trees.length)
    (each : ∀ i tree arg, trees[i]? = some tree → args[i]? = some arg → ∀ tree', tree.Matches M tree' →
      ∃ arg', Elaborates ctx scope tree' (steps i) arg' (steps (i + 1)) ∧ arg.Matches M arg') :
    ∃ args', ElaboratesArgs ctx scope trees' params' args' steps ∧ ExprsMatch M args args' ∧
      args'.length = args.length := by
  obtain ⟨args', hargs, heach⟩ := exists_forall₂ htrees.forall₂ count each
  have htypes : Forall₂ (Ty.Matches M) params (args'.map Expr.ty) :=
    fits ▸ rel_map (fun _ _ harg => harg.ty_matches) hargs
  have hlength := hargs.length_eq
  refine ⟨args', ⟨?_, ?_, heach⟩, .ofForall₂ hargs, hlength.symm⟩
  · have hright : Relator.RightUnique (Ty.Matches M) := fun _ _ _ h h' => (h.eq_iff unique h').1 rfl
    exact hright.forall₂ htypes hparams
  · rw [← hlength, count, htrees.forall₂.length_eq]

/-- What can be elaborated in one context can be in the other, with a result that matches. -/
theorem Elaborates.exists_matching {e : Expr} (hctx : ctx.Matches M ctx')
    (h : Elaborates ctx scope tree n e k) (htree : tree.Matches M tree')
    (hscope : Scope.Matches M scope scope') :
    ∃ e', Elaborates ctx' scope' tree' n e' k ∧ e.Matches M e' := by
  induction h generalizing scope' tree' with
  | ignore _ _ ihValue ihBody =>
    have .letIn place (.ignore place') hvalue hbody := htree
    obtain ⟨value', hvalue', mvalue⟩ := ihValue hvalue hscope
    obtain ⟨body', hbody', mbody⟩ := ihBody hbody hscope
    exact ⟨_, .ignore hvalue' hbody', .letIn place (.ignore place') mvalue mbody⟩
  | @declare scope _ _ _ _ _ value _ _ m _ free _ _ ihValue ihBody =>
    have .letIn place (.single place' name) hvalue hbody := htree
    obtain ⟨value', hvalue', mvalue⟩ := ihValue hvalue hscope
    have hinner : Scope.Matches M (⟨name, .localVar m, value.ty⟩ :: scope)
        (⟨name, .localVar m, value'.ty⟩ :: scope') := .cons ⟨rfl, rfl, mvalue.ty_matches⟩ hscope
    obtain ⟨body', hbody', mbody⟩ := ihBody hbody hinner
    exact ⟨_, .declare (hscope.free free) hvalue' hbody',
      .letIn place (.single place' mvalue.ty_matches m name) mvalue mbody⟩
  | seq _ _ ihFirst ihBody =>
    have .seq place hfirst hbody := htree
    obtain ⟨first', hfirst', mfirst⟩ := ihFirst hfirst hscope
    obtain ⟨body', hbody', mbody⟩ := ihBody hbody hscope
    exact ⟨_, .seq hfirst' hbody', .seq place mfirst mbody⟩
  | param bound hbinding =>
    have .access place name := htree
    obtain ⟨entry', bound', hentry⟩ := exists_of_rel (hscope.lookup? name) bound
    exact ⟨_, .param bound' (hentry.binding.trans hbinding), .param place hentry.ty _ name⟩
  | localVar bound hbinding =>
    have .access place name := htree
    obtain ⟨entry', bound', hentry⟩ := exists_of_rel (hscope.lookup? name) bound
    exact ⟨_, .localVar bound' (hentry.binding.trans hbinding), .localVar place hentry.ty _ name⟩
  | ownSlot free found present =>
    have .access place name := htree
    have ⟨_, found', .slot _ hslot⟩ := exists_of_rel (hctx.owner.member? name) found
    exact ⟨_, .ownSlot (hscope.free free) found' (hctx.isStatic.trans present),
      .slot place hslot.ty (.at hctx.owner.id _ name) (.receiver place hctx.owner.ty)⟩
  | ownStatic form free found static fits count _ ih =>
    obtain ⟨span', trees', form', place, htrees⟩ := exists_bareCall_matching form htree
    have ⟨_, found', .method _ hm⟩ := exists_of_rel (hctx.owner.member? _) found
    obtain ⟨args', hargs', hargs, hlength⟩ := exists_args hctx.unique htrees hm.signature.params
      fits count fun i tree arg ht ha _ h => ih i tree arg ht ha h hscope
    rw [← hlength]
    exact ⟨_, .ownStatic form' (hscope.free free) found' (hm.isStatic.trans static) hargs'.fits
      hargs'.count hargs'.each,
      .staticCall place hm.returnType (.method (.at hctx.owner.id _ _)) hargs⟩
  | ownInstance form free found notStatic present fits count _ ih =>
    obtain ⟨span', trees', form', place, htrees⟩ := exists_bareCall_matching form htree
    have ⟨_, found', .method _ hm⟩ := exists_of_rel (hctx.owner.member? _) found
    obtain ⟨args', hargs', hargs, hlength⟩ := exists_args hctx.unique htrees hm.signature.params
      fits count fun i tree arg ht ha _ h => ih i tree arg ht ha h hscope
    rw [← hlength]
    exact ⟨_, .ownInstance form' (hscope.free free) found' (hm.isStatic.trans notStatic)
      (hctx.isStatic.trans present) hargs'.fits hargs'.count hargs'.each,
      .methodCall place hm.returnType (.method (.at hctx.owner.id _ _))
        (.receiver place hctx.owner.ty) hargs⟩
  | classCall form found fits count _ ih =>
    obtain ⟨span', trees', form', place, htrees⟩ := exists_classCall_matching form htree
    obtain ⟨ty, known, hfound, static⟩ := staticMethod_inv found
    obtain ⟨ty', known', hty⟩ := exists_of_rel (hctx.types _) known
    have ⟨_, hfound', .method hcallee hsignature⟩ := exists_of_rel (hctx.table.find? hty _) hfound
    obtain ⟨args', hargs', hargs, hlength⟩ := exists_args hctx.unique htrees hsignature.params fits
      count fun i tree arg ht ha _ h => ih i tree arg ht ha h hscope
    rw [← hlength]
    exact ⟨_, .classCall form' (staticMethod_of_find? known' hfound' (hsignature.isStatic.trans static))
      hargs'.fits hargs'.count hargs'.each, .staticCall place hsignature.result hcallee hargs⟩
  | memberCall form _ found fits count _ ihTarget ih =>
    obtain ⟨span', receiver', trees', form', place, hreceiver, htrees⟩ := exists_memberCall_matching form htree
    obtain ⟨target', htarget', mtarget⟩ := ihTarget hreceiver hscope
    obtain ⟨hfound, notStatic⟩ := instanceMethod_inv found
    have ⟨_, hfound', .method hcallee hsignature⟩ :=
      exists_of_rel (hctx.table.find? mtarget.ty_matches _) hfound
    obtain ⟨args', hargs', hargs, hlength⟩ := exists_args hctx.unique htrees hsignature.params fits
      count fun i tree arg ht ha _ h => ih i tree arg ht ha h hscope
    rw [← hlength]
    exact ⟨_, .memberCall form' htarget'
      (instanceMethod_of_find? hfound' (hsignature.isStatic.trans notStatic)) hargs'.fits hargs'.count
      hargs'.each, .methodCall place hsignature.result hcallee mtarget hargs⟩
  | slot _ found ih =>
    have .property place htarget name := htree
    obtain ⟨target', htarget', mtarget⟩ := ih htarget hscope
    have ⟨_, found', .slot href hty⟩ := exists_of_rel (hctx.table.find? mtarget.ty_matches name) found
    exact ⟨_, .slot htarget' found', .slot place hty href mtarget⟩
  | literal =>
    have .literal place value := htree
    exact ⟨_, .literal, .literal place value⟩
  | @quote _ _ _ trees holes steps fits texts _ ih =>
    have .quote place head htrees := htree
    have count : holes.length = trees.length := by simpa using congrArg length texts
    obtain ⟨holes', hholes, heach⟩ := @exists_forall₂ _ _ _
      (fun a b => a.1.Matches M b.1 ∧ b.2 = a.2)
      (fun i tree hole => Elaborates ctx' scope' tree.1 (steps i) hole.1 (steps (i + 1))) _ _ _
      htrees.forall₂ count fun i tree hole ht hh tree' h => by
        obtain ⟨e', he', me⟩ := ih i tree hole ht hh h.1 hscope
        exact ⟨(e', hole.2), he', me, rfl⟩
    rw [hholes.length_eq]
    refine ⟨_, .quote ?_ ?_ heach, .quote place head (.ofForall₂ hholes)⟩
    · intro hole' hmem
      obtain ⟨i, hi⟩ := mem_iff_getElem?.1 hmem
      obtain ⟨hole, hhole, me, -⟩ := forall₂_getElem?_right hholes hi
      exact (me.ty_matches.eq_iff hctx.unique (.prim .string)).1 (fits hole (mem_of_getElem? hhole))
    · have htexts := map_eq_of_forall₂ (fun _ _ h => h.2) hholes
      rw [htexts, texts, map_eq_of_forall₂ (fun _ _ h => h.2) htrees.forall₂]

/-- Expressions that match are checked alike in contexts that match. -/
theorem checkExpr_matches {e : Expr} {ty ty' : Ty} (hctx : ctx.Matches M ctx')
    (htree : tree.Matches M tree') (hscope : Scope.Matches M scope scope') (hty : ty.Matches M ty')
    (h : checkExpr ctx scope (.exactly ty) tree n = .ok (e, k)) :
    ∃ e', checkExpr ctx' scope' (.exactly ty') tree' n = .ok (e', k) ∧ e.Matches M e' := by
  obtain ⟨elaborates, wanted⟩ := elaborates_of_checkExpr tree h
  obtain ⟨e', elaborates', he⟩ := elaborates.exists_matching hctx htree hscope
  have hwanted : e'.ty = ty' := (he.ty_matches.eq_iff hctx.unique hty).1 (wanted ty rfl)
  exact ⟨e', elaborates'.checks (hwanted ▸ Demand.admits_exactly e'.ty), he⟩

end Bodies

/-! ## Shapes -/

section Shapes

variable {types types' : TypeScope} (htypes : types.Matches M types')

include htypes

theorem resolve_agree {tree tree' : Tree.TypeExpr} (h : tree.erase = tree'.erase) :
    Agree (Ty.Matches M) (types.resolve tree) (types'.resolve tree') := by
  cases tree with
  | named span name =>
    cases tree' with
    | named span' name' =>
      obtain rfl : name = name' := by simpa [Tree.TypeExpr.erase] using h
      have hfound := htypes name
      rw [resolve, resolve]
      generalize types.lookup? name = found at hfound
      generalize types'.lookup? name = found' at hfound
      cases hfound with
      | some hty => exact .ok hty
      | none => exact .error _ _
    | generic _ _ _ => simp [Tree.TypeExpr.erase] at h
  | generic span name args =>
    cases tree' with
    | named _ _ => simp [Tree.TypeExpr.erase] at h
    | generic _ _ _ => exact .error _ _

theorem shapeParams_agree {trees trees' : List Tree.Param}
    (h : trees.map Tree.Param.erase = trees'.map Tree.Param.erase) {known known' : List Param}
    (hknown : Forall₂ (Param.Matches M) known known') :
    Agree (Forall₂ (Param.Matches M)) (shapeParams types known trees)
      (shapeParams types' known' trees') := by
  induction trees generalizing trees' known known' with
  | nil =>
    obtain rfl := map_eq_nil_iff.1 h.symm
    exact .ok hknown
  | cons tree trees ih =>
    cases trees' with
    | nil => cases h
    | cons tree' trees' =>
      rw [map_cons, map_cons, cons.injEq] at h
      obtain ⟨hfirst, hrest⟩ := h
      have hname : tree'.name = tree.name := (congrArg Tree.Param.name hfirst).symm
      rw [shapeParams, shapeParams, hname, any_name_eq hknown]
      split
      · exact .error _ _
      · refine (resolve_agree htypes (congrArg Tree.Param.ty hfirst)).bind ?_
        intro ty ty' hty
        exact ih hrest (rel_append hknown (.cons ⟨hty, rfl⟩ .nil))

theorem shapeSlot_agree {tree tree' : Tree.Slot} (h : tree.erase = tree'.erase) {c c' : Class}
    (hc : c.Matches M c') :
    Agree (Class.Matches M) (shapeSlot types c tree) (shapeSlot types' c' tree') := by
  have hname : tree'.name = tree.name := (congrArg Tree.Slot.name h).symm
  have hmutable : tree'.mutable = tree.mutable := (congrArg Tree.Slot.mutable h).symm
  refine (resolve_agree htypes (congrArg Tree.Slot.ty h)).bind ?_
  intro ty ty' hty
  unfold Class.addSlot
  rw [hname, hmutable, hc.isSome_member?]
  split
  · exact .error _ _
  · refine .ok ⟨hc.id, hc.name, hc.path, ?_, hc.methods⟩
    exact rel_append hc.slots (.cons ⟨rfl, hty, rfl⟩ .nil)

theorem shapeMethod_agree {tree tree' : Tree.Method} (h : tree.Alike tree') {c c' : Class}
    (hc : c.Matches M c') :
    Agree (Class.Matches M) (shapeMethod types c tree) (shapeMethod types' c' tree') := by
  refine (shapeParams_agree htypes h.params .nil).bind ?_
  intro params params' hparams
  refine (resolve_agree htypes h.returnType).bind ?_
  intro ty ty' hty
  unfold Class.addMethod
  dsimp only
  rw [h.name, h.isStatic, hc.isSome_member?]
  split
  · exact .error _ _
  · refine .ok ⟨hc.id, hc.name, hc.path, hc.slots, ?_⟩
    exact rel_append hc.methods (.cons ⟨rfl, hty, rfl, hparams⟩ .nil)

/-- The outline of a class depends neither on places nor on bodies. -/
theorem shape_agree {id id' : ClassId} (hid : M.ids id id') (path : ModulePath)
    {decl decl' : Tree.ClassDecl} (hname : decl'.name = decl.name)
    (hslots : Forall₂ (fun s s' => Tree.Slot.erase s = s'.erase) decl.slots decl'.slots)
    (hmethods : Forall₂ Tree.Method.Alike decl.methods decl'.methods) :
    Agree (Class.Matches M) (shape types id path decl) (shape types' id' path decl') := by
  have start : (Class.empty id decl.name path decl.span).Matches M
      (Class.empty id' decl'.name path decl'.span) := ⟨hid, hname, rfl, .nil, .nil⟩
  have slotStep : ∀ s s' : Tree.Slot, s.erase = s'.erase → ∀ c c' : Class, c.Matches M c' →
      Agree (Class.Matches M) (shapeSlot types c s) (shapeSlot types' c' s') :=
    fun _ _ h _ _ hc => shapeSlot_agree htypes h hc
  have methodStep : ∀ m m' : Tree.Method, m.Alike m' → ∀ c c' : Class, c.Matches M c' →
      Agree (Class.Matches M) (shapeMethod types c m) (shapeMethod types' c' m') :=
    fun _ _ h _ _ hc => shapeMethod_agree htypes h hc
  exact (Agree.foldlM slotStep hslots start).bind fun _ _ hc =>
    Agree.foldlM methodStep hmethods hc

end Shapes

/-! ## Modules -/

/-- Two imported classes, each with the name that it is known by. -/
def ImportMatch (M : Matching) (a b : String × Ty) : Prop := b.1 = a.1 ∧ a.2.Matches M b.2

theorem ImportMatch.lookup {known known' : List (String × Ty)}
    (h : Forall₂ (ImportMatch M) known known') (name : String) :
    Option.Rel (Ty.Matches M) (known.lookup name) (known'.lookup name) := by
  induction h with
  | nil => exact .none
  | @cons a b _ _ hab _ ih =>
    obtain ⟨key, ty⟩ := a
    obtain ⟨key', ty'⟩ := b
    obtain ⟨rfl, hty⟩ := hab
    rw [lookup_cons, lookup_cons]
    cases name == key' with
    | true => exact .some hty
    | false => exact ih

theorem importsFrom_agree (unique : Relator.BiUnique M.ids) {table table' : ClassTable}
    (h : table.Matches M table')
    (himports : Forall₂ (fun a b => M.ids a.2 b.2) imports imports')
    {known known' : List (String × Ty)} (hknown : Forall₂ (ImportMatch M) known known') :
    Agree (Forall₂ (ImportMatch M)) (importsFrom table known imports)
      (importsFrom table' known' imports') := by
  induction himports generalizing known known' with
  | nil => exact .ok hknown
  | @cons a b _ _ hab _ ih =>
    obtain ⟨span, id⟩ := a
    obtain ⟨span', id'⟩ := b
    have hget := h id id' hab
    rw [importsFrom, importsFrom]
    generalize table.get? id = found at hget
    generalize table'.get? id' = found' at hget
    cases hget with
    | none => exact ih hknown
    | @some c c' hc =>
      have hprevious := ImportMatch.lookup hknown c.name
      dsimp only
      rw [hc.name]
      generalize known.lookup c.name = previous at hprevious
      generalize known'.lookup c.name = previous' at hprevious
      cases hprevious with
      | none => exact ih (.cons ⟨rfl, hc.ty⟩ hknown)
      | some hty =>
        simp only [hty.eq_iff unique hc.ty]
        split
        · exact ih hknown
        · exact .error _ _

theorem TypeScope.matches_of_imports {imported imported' : List (String × Ty)}
    (h : Forall₂ (ImportMatch M) imported imported') {id id' : ClassId} (hid : M.ids id id')
    (name : String) :
    Matches M ⟨name, .object id name, imported⟩ ⟨name, .object id' name, imported'⟩ := by
  intro wanted
  have hfound := ImportMatch.lookup h wanted
  unfold lookup?
  dsimp only
  generalize imported.lookup wanted = found at hfound
  generalize imported'.lookup wanted = found' at hfound
  cases hfound with
  | some hty => exact .some hty
  | none =>
    dsimp only
    split
    · exact .some (.object hid name)
    · cases Prim.ofName? wanted with
      | none => exact .none
      | some p => exact .some (.prim p)

/-- Two methods that match with their bodies. -/
structure Method.MatchesWhole (M : Matching) (m m' : Method) : Prop extends m.Matches M m' where
  body : Option.Rel (Expr.Matches M) m.body m'.body

/-- Two classes that match with the bodies of their methods. -/
structure Class.MatchesWhole (M : Matching) (c c' : Class) : Prop extends c.Matches M c' where
  bodies : Forall₂ (Method.MatchesWhole M) c.methods c'.methods

theorem ClassTable.push_injective {table : ClassTable} {c d : Class}
    (h : table.push c = table.push d) : c = d := by
  have hget := congrArg (·.get? table.size) h
  simpa using hget

section Modules

variable {table table' : ClassTable}

theorem checkBody_matches (unique : Relator.BiUnique M.ids) (h : table.Matches M table')
    {owner owner' : Class} (howner : owner.Matches M owner') {types types' : TypeScope}
    (htypes : types.Matches M types') {m m' checked : Method} (hm : m.Matches M m')
    {body : Tree.Expr} (hbody : body.Matches M body)
    (hchecked : checkBody table owner types m body = .ok checked) :
    ∃ checked', checkBody table' owner' types' m' body = .ok checked' ∧
      checked.MatchesWhole M checked' := by
  obtain ⟨e, k, rfl, hcheck⟩ := checkBody_eq_ok.1 hchecked
  have hctx : BodyContext.Matches M ⟨table, owner, types, m⟩ ⟨table', owner', types', m'⟩ :=
    ⟨unique, h, howner, htypes, hm.isStatic⟩
  obtain ⟨e', hcheck', he⟩ :=
    checkExpr_matches hctx hbody (Scope.matches_ofParams hm.params) hm.returnType hcheck
  exact ⟨_, checkBody_eq_ok.2 ⟨e', k, rfl, hcheck'⟩,
    ⟨hm.isStatic, hm.returnType, hm.name, hm.params⟩, .some he⟩

theorem checkBodies_matches (unique : Relator.BiUnique M.ids) (places : ∀ span, M.places span span)
    (h : table.Matches M table') {owner owner' : Class} (howner : owner.Matches M owner')
    {types types' : TypeScope} (htypes : types.Matches M types') {methods methods' : List Method}
    (hmethods : Forall₂ (Method.Matches M) methods methods') {trees : List Tree.Method}
    {checked : List Method} (hchecked : checkBodies table owner types methods trees = .ok checked) :
    ∃ checked', checkBodies table' owner' types' methods' trees = .ok checked' ∧
      Forall₂ (Method.MatchesWhole M) checked checked' := by
  induction hmethods generalizing trees checked with
  | nil =>
    cases hchecked
    exact ⟨[], rfl, .nil⟩
  | cons hm _ ih =>
    cases trees with
    | nil =>
      cases hchecked
      exact ⟨[], rfl, .nil⟩
    | cons tree trees =>
      simp only [checkBodies, Except.bind_eq_ok, Except.pure_eq_ok] at hchecked ⊢
      obtain ⟨first, hfirst, rest, hrest, rfl⟩ := hchecked
      obtain ⟨first', hfirst', mfirst⟩ :=
        checkBody_matches unique h howner htypes hm (.refl places tree.body) hfirst
      obtain ⟨rest', hrest', mrest⟩ := ih hrest
      exact ⟨_, ⟨first', hfirst', rest', hrest', rfl⟩, .cons mfirst mrest⟩

/-- **Checking a module does not depend on how the classes are numbered.** In tables that match, and
with imports that stand for each other, a module that is accepted once is accepted twice, and the
class that it gives matches, with its bodies. -/
theorem checkModule_matches (unique : Relator.BiUnique M.ids) (places : ∀ span, M.places span span)
    (h : table.Matches M table') (own : M.ids table.size table'.size) {path : ModulePath}
    {tree : Tree.Module} (himports : Forall₂ (fun a b => M.ids a.2 b.2) imports imports')
    {c : Class} (hcheck : checkModule table path tree imports = .ok (table.push c)) :
    ∃ c', checkModule table' path tree imports' = .ok (table'.push c') ∧ c.MatchesWhole M c' := by
  simp only [checkModule, Except.bind_eq_ok, Except.pure_eq_ok] at hcheck ⊢
  obtain ⟨imported, himported, outline, hshape, checked, hchecked, hpush⟩ := hcheck
  obtain rfl := ClassTable.push_injective hpush
  obtain ⟨imported', himported', mimported⟩ := (importsFrom_agree unique h himports .nil).of_ok himported
  have htypes := matches_of_imports mimported own tree.classDecl.name
  have hslots : Forall₂ (fun s s' => Tree.Slot.erase s = s'.erase) tree.classDecl.slots
      tree.classDecl.slots := forall₂_same.2 fun _ _ => rfl
  have hmethods : Forall₂ Tree.Method.Alike tree.classDecl.methods tree.classDecl.methods :=
    forall₂_same.2 fun _ _ => ⟨rfl, rfl, rfl, rfl⟩
  obtain ⟨outline', hshape', houtline⟩ :=
    (shape_agree htypes own path rfl hslots hmethods).of_ok hshape
  obtain ⟨checked', hchecked', mchecked⟩ := checkBodies_matches unique places
    (h.push unique own houtline) houtline htypes houtline.methods hchecked
  refine ⟨_, ⟨imported', himported', outline', hshape', checked', hchecked', rfl⟩,
    ⟨houtline.id, houtline.name, houtline.path, houtline.slots, ?_⟩, mchecked⟩
  exact mchecked.imp fun _ _ hm => hm.toMatches

end Modules

end ClassLang.Typed
