import ClassLang.Proofs.MatchingChecks

/-!
# The checker does not see places

A tree and the same tree without places are accepted together, and the typed trees that they give
differ in their places at most: `Matching.anywhere` takes any place for any other, and the checker
cannot tell apart what matches. The main statement is `checkModule_again`: a module whose bodies were
written anew is accepted if they are accepted without their places.
-/

set_option autoImplicit false

namespace ClassLang

open Typed.Expr

namespace Typed

/-! ## Typed trees without places -/

def Pattern.erase : Pattern → Pattern
  | .ignore _ => .ignore .nowhere
  | .single _ ty id name => .single .nowhere ty id name

mutual

/-- The same typed expression without places. -/
def Expr.erase : Expr → Expr
  | .localVar _ ty id name => .localVar .nowhere ty id name
  | .param _ ty index name => .param .nowhere ty index name
  | .receiver _ ty => .receiver .nowhere ty
  | .slot _ ty ref target => .slot .nowhere ty ref target.erase
  | .methodCall _ ty callee target args =>
    .methodCall .nowhere ty callee target.erase (eraseExprs args)
  | .staticCall _ ty callee args => .staticCall .nowhere ty callee (eraseExprs args)
  | .letIn _ pattern value body => .letIn .nowhere pattern.erase value.erase body.erase
  | .seq _ first body => .seq .nowhere first.erase body.erase
  | .literal _ value => .literal .nowhere value
  | .quote _ head holes => .quote .nowhere head (eraseHoles holes)

def eraseExprs : List Expr → List Expr
  | [] => []
  | e :: rest => e.erase :: eraseExprs rest

def eraseHoles : List (Expr × String) → List (Expr × String)
  | [] => []
  | (hole, text) :: rest => (hole.erase, text) :: eraseHoles rest

end

theorem Expr.ty_erase : ∀ e : Expr, e.erase.ty = e.ty
  | .localVar _ _ _ _ => rfl
  | .param _ _ _ _ => rfl
  | .receiver _ _ => rfl
  | .slot _ _ _ _ => rfl
  | .methodCall _ _ _ _ _ => rfl
  | .staticCall _ _ _ _ => rfl
  | .letIn _ _ _ body => body.ty_erase
  | .seq _ _ body => body.ty_erase
  | .literal _ _ => rfl
  | .quote _ _ _ => rfl

theorem Pattern.erase_erase (pattern : Pattern) : pattern.erase.erase = pattern.erase := by
  cases pattern <;> rfl

mutual

/-- There are no places left to take away. -/
theorem Expr.erase_erase : ∀ e : Expr, e.erase.erase = e.erase
  | .localVar _ _ _ _ => rfl
  | .param _ _ _ _ => rfl
  | .receiver _ _ => rfl
  | .slot _ _ _ target => by rw [erase, erase, target.erase_erase]
  | .methodCall _ _ _ target args => by
    rw [erase, erase, target.erase_erase, eraseExprs_eraseExprs args]
  | .staticCall _ _ _ args => by rw [erase, erase, eraseExprs_eraseExprs args]
  | .letIn _ pattern value body => by
    rw [erase, erase, pattern.erase_erase, value.erase_erase, body.erase_erase]
  | .seq _ first body => by rw [erase, erase, first.erase_erase, body.erase_erase]
  | .literal _ _ => rfl
  | .quote _ _ holes => by rw [erase, erase, eraseHoles_eraseHoles holes]

theorem eraseExprs_eraseExprs : ∀ es : List Expr, eraseExprs (eraseExprs es) = eraseExprs es
  | [] => rfl
  | e :: es => by rw [eraseExprs, eraseExprs, e.erase_erase, eraseExprs_eraseExprs es]

theorem eraseHoles_eraseHoles : ∀ holes : List (Expr × String),
    eraseHoles (eraseHoles holes) = eraseHoles holes
  | [] => rfl
  | (hole, _) :: holes => by
    rw [eraseHoles, eraseHoles, hole.erase_erase, eraseHoles_eraseHoles holes]

end

/-- Two expressions that differ in their places at most. -/
def Expr.Alike (e e' : Expr) : Prop := e.erase = e'.erase

end Typed

/-! ## Places do not matter -/

/-- Every class stands for itself, and any place for any other. -/
def Matching.anywhere : Matching := ⟨Eq, fun _ _ => True⟩

theorem Matching.biUnique_anywhere : Relator.BiUnique Matching.anywhere.ids :=
  ⟨fun _ _ _ h h' => Eq.trans h h'.symm, fun _ _ _ h h' => Eq.trans h.symm h'⟩

theorem Ty.Matches.refl_anywhere (ty : Ty) : ty.Matches .anywhere ty := by
  cases ty with
  | prim p => exact .prim p
  | object id name => exact .object rfl name

theorem Ty.Matches.eq_anywhere {ty ty' : Ty} (h : ty.Matches .anywhere ty') : ty = ty' := by
  cases h with
  | prim p => rfl
  | object h name => exact congrArg (Ty.object · name) h

namespace Tree

theorem Pattern.erase_matches (pattern : Pattern) :
    pattern.erase.Matches .anywhere pattern := by
  cases pattern with
  | ignore span => exact .ignore trivial
  | single span name => exact .single trivial name
  | destruct span names => exact .destruct _ _ _ _

mutual

/-- A tree without places matches the tree. -/
theorem Expr.erase_matches : ∀ e : Expr, e.erase.Matches .anywhere e
  | .access _ name => .access trivial name
  | .staticAccess _ className name => .staticAccess trivial className name
  | .operatorCall _ left operator right =>
    .operatorCall trivial left.erase_matches operator right.erase_matches
  | .call _ target args => .call trivial target.erase_matches (eraseExprs_match args)
  | .property _ target name => .property trivial target.erase_matches name
  | .letIn _ pattern value body =>
    .letIn trivial pattern.erase_matches value.erase_matches body.erase_matches
  | .seq _ first body => .seq trivial first.erase_matches body.erase_matches
  | .literal _ value => .literal trivial value
  | .quote _ head holes => .quote trivial head (eraseHoles_match holes)

theorem eraseExprs_match : ∀ es : List Expr, ExprsMatch .anywhere (eraseExprs es) es
  | [] => .nil
  | e :: es => .cons e.erase_matches (eraseExprs_match es)

theorem eraseHoles_match :
    ∀ holes : List (Expr × String), HolesMatch .anywhere (eraseHoles holes) holes
  | [] => .nil
  | (e, text) :: holes => .cons e.erase_matches text (eraseHoles_match holes)

end

theorem Pattern.Matches.swap {pattern pattern' : Pattern} :
    pattern.Matches .anywhere pattern' → pattern'.Matches .anywhere pattern
  | .ignore _ => .ignore trivial
  | .single _ name => .single trivial name
  | .destruct .. => .destruct ..

mutual

theorem Expr.Matches.swap {e e' : Expr} : e.Matches .anywhere e' → e'.Matches .anywhere e
  | .access _ name => .access trivial name
  | .staticAccess _ className name => .staticAccess trivial className name
  | .operatorCall _ left operator right => .operatorCall trivial left.swap operator right.swap
  | .call _ target args => .call trivial target.swap args.swap
  | .property _ target name => .property trivial target.swap name
  | .letIn _ pattern value body => .letIn trivial pattern.swap value.swap body.swap
  | .seq _ first body => .seq trivial first.swap body.swap
  | .literal _ value => .literal trivial value
  | .quote _ head holes => .quote trivial head holes.swap

theorem ExprsMatch.swap {es es' : List Expr} :
    ExprsMatch .anywhere es es' → ExprsMatch .anywhere es' es
  | .nil => .nil
  | .cons first rest => .cons first.swap rest.swap

theorem HolesMatch.swap {holes holes' : List (Expr × String)} :
    HolesMatch .anywhere holes holes' → HolesMatch .anywhere holes' holes
  | .nil => .nil
  | .cons first text rest => .cons first.swap text rest.swap

end

end Tree

namespace Typed

theorem SlotRef.Matches.eq_anywhere {ref ref' : SlotRef} (h : ref.Matches .anywhere ref') :
    ref = ref' := by
  cases h with
  | «at» h index name => exact congrArg (SlotRef.mk · index name) h

theorem Callee.Matches.eq_anywhere {callee callee' : Callee}
    (h : callee.Matches .anywhere callee') : callee = callee' := by
  cases h with
  | method h =>
    cases h with
    | «at» h index name => exact congrArg (fun id => Callee.method ⟨id, index, name⟩) h
  | builtin b => rfl

theorem Pattern.Matches.erase_eq {pattern pattern' : Pattern}
    (h : pattern.Matches .anywhere pattern') : pattern.erase = pattern'.erase := by
  cases h with
  | ignore _ => rfl
  | single _ hty id name => rw [Pattern.erase, Pattern.erase, hty.eq_anywhere]

mutual

/-- Typed trees that match where every class stands for itself are alike. -/
theorem Expr.Matches.alike {e e' : Expr} : e.Matches .anywhere e' → e.erase = e'.erase
  | .localVar _ hty _ _ => by rw [erase, erase, hty.eq_anywhere]
  | .param _ hty _ _ => by rw [erase, erase, hty.eq_anywhere]
  | .receiver _ hty => by rw [erase, erase, hty.eq_anywhere]
  | .slot _ hty href htarget => by
    rw [erase, erase, hty.eq_anywhere, href.eq_anywhere, htarget.alike]
  | .methodCall _ hty hcallee htarget hargs => by
    rw [erase, erase, hty.eq_anywhere, hcallee.eq_anywhere, htarget.alike,
      hargs.alike]
  | .staticCall _ hty hcallee hargs => by
    rw [erase, erase, hty.eq_anywhere, hcallee.eq_anywhere, hargs.alike]
  | .letIn _ hpattern hvalue hbody => by
    rw [erase, erase, hpattern.erase_eq, hvalue.alike, hbody.alike]
  | .seq _ hfirst hbody => by rw [erase, erase, hfirst.alike, hbody.alike]
  | .literal _ _ => rfl
  | .quote _ _ hholes => by rw [erase, erase, hholes.alike]

theorem ExprsMatch.alike {es es' : List Expr} :
    ExprsMatch .anywhere es es' → eraseExprs es = eraseExprs es'
  | .nil => rfl
  | .cons hfirst hrest => by rw [eraseExprs, eraseExprs, hfirst.alike, hrest.alike]

theorem HolesMatch.alike {holes holes' : List (Expr × String)} :
    HolesMatch .anywhere holes holes' → eraseHoles holes = eraseHoles holes'
  | .nil => rfl
  | .cons hfirst _ hrest => by rw [eraseHoles, eraseHoles, hfirst.alike, hrest.alike]

end

theorem Method.Matches.refl_anywhere (m : Method) : m.Matches .anywhere m where
  isStatic := rfl
  returnType := .refl_anywhere m.returnType
  name := rfl
  params := List.forall₂_same.2 fun param _ => ⟨.refl_anywhere param.ty, rfl⟩

theorem Class.Matches.refl_anywhere (c : Class) : c.Matches .anywhere c where
  id := rfl
  name := rfl
  path := rfl
  slots := List.forall₂_same.2 fun slot _ => ⟨rfl, .refl_anywhere slot.ty, rfl⟩
  methods := List.forall₂_same.2 fun m _ => .refl_anywhere m

theorem ClassTable.Matches.refl_anywhere (table : ClassTable) : table.Matches .anywhere table := by
  intro i j hij
  obtain rfl : i = j := hij
  cases table.get? i with
  | none => exact .none
  | some c => exact .some (.refl_anywhere c)

theorem TypeScope.Matches.refl_anywhere (types : TypeScope) : types.Matches .anywhere types := by
  intro name
  cases types.lookup? name with
  | none => exact .none
  | some ty => exact .some (.refl_anywhere ty)

/-- The same class with other places in its outline, behind the same table. -/
theorem Class.Matches.context {c c' : Class} (h : c.Matches .anywhere c') (table : ClassTable)
    (types : TypeScope) {m m' : Method} (hm : m.Matches .anywhere m') :
    BodyContext.Matches .anywhere ⟨table.push c, c, types, m⟩ ⟨table.push c', c', types, m'⟩ where
  unique := Matching.biUnique_anywhere
  table := (ClassTable.Matches.refl_anywhere table).push Matching.biUnique_anywhere rfl h
  owner := h
  types := .refl_anywhere types
  isStatic := hm.isStatic

/-! ## Modules -/

theorem checkBodies_eq_mapM (table : ClassTable) (owner : Class) (types : TypeScope)
    (methods : List Method) (trees : List Tree.Method) :
    checkBodies table owner types methods trees =
      (methods.zip trees).mapM fun p => checkBody table owner types p.1 p.2.body := by
  induction methods generalizing trees with
  | nil => rfl
  | cons m methods ih =>
    cases trees with
    | nil => rfl
    | cons tree trees => rw [checkBodies, List.zip_cons_cons, List.mapM_cons, ih]

/-- The types that a module knows and the outline of its class, which come before any body. -/
structure Outlines (table : ClassTable) (path : ModulePath) (tree : Tree.Module)
    (imports : List (Span × ClassId)) (types : TypeScope) (outline : Class) : Prop where
  imported : TypeScope.importsFrom table [] imports = .ok types.imports
  ownName : types.ownName = tree.classDecl.name
  ownType : types.ownType = .object table.size tree.classDecl.name
  shaped : shape types table.size path tree.classDecl = .ok outline

theorem checkModule_eq_ok {table table' : ClassTable} {path : ModulePath} {tree : Tree.Module}
    {imports : List (Span × ClassId)} :
    checkModule table path tree imports = .ok table' ↔ ∃ types outline checked,
      Outlines table path tree imports types outline ∧
      checkBodies (table.push outline) outline types outline.methods tree.classDecl.methods =
        .ok checked ∧ table' = table.push { outline with methods := checked } := by
  constructor
  · intro h
    obtain ⟨imported, himported, h⟩ := Except.bind_eq_ok.1 h
    obtain ⟨outline, houtline, h⟩ := Except.bind_eq_ok.1 h
    obtain ⟨checked, hchecked, h⟩ := Except.bind_eq_ok.1 h
    cases h
    exact ⟨_, outline, checked, ⟨himported, rfl, rfl, houtline⟩, hchecked, rfl⟩
  · rintro ⟨⟨ownName, ownType, imported⟩, outline, checked, ⟨himported, rfl, rfl, houtline⟩,
      hchecked, rfl⟩
    refine Except.bind_eq_ok.2 ⟨imported, himported, ?_⟩
    refine Except.bind_eq_ok.2 ⟨outline, houtline, ?_⟩
    exact Except.bind_eq_ok.2 ⟨checked, hchecked, rfl⟩

section Again

variable {table : ClassTable} {path : ModulePath} {tree tree' : Tree.Module}
  {imports : List (Span × ClassId)} {types : TypeScope} {outline : Class} {e : Expr}

/-- The place at which the body of a method is checked. -/
def bodyContext (table : ClassTable) (types : TypeScope) (outline : Class) (m : Method) :
    BodyContext := ⟨table.push outline, outline, types, m⟩

/-- The expression is what the checker makes of the body of the method. -/
def ChecksTo (table : ClassTable) (types : TypeScope) (outline : Class) (m : Method)
    (body : Tree.Expr) (e : Expr) : Prop :=
  ∃ k, checkExpr (bodyContext table types outline m) (Scope.ofParams m.params)
    (.exactly m.returnType) body 0 = .ok (e, k)

variable {m : Method} {body : Tree.Expr}

theorem ChecksTo.unique {e' : Expr} (h : ChecksTo table types outline m body e)
    (h' : ChecksTo table types outline m body e') : e = e' := by
  obtain ⟨k, h⟩ := h
  obtain ⟨k', h'⟩ := h'
  cases h.symm.trans h'
  rfl

/-- A body with the same tree is accepted against another outline of the same class. -/
theorem ChecksTo.of_matches {outline' : Class} (hclass : outline.Matches .anywhere outline')
    {m' : Method} (hm : m.Matches .anywhere m') {body' : Tree.Expr}
    (hbody : body.Matches .anywhere body') (h : ChecksTo table types outline m body e) :
    ∃ e', ChecksTo table types outline' m' body' e' ∧ e'.Alike e := by
  obtain ⟨k, h⟩ := h
  obtain ⟨e', h', he⟩ := checkExpr_matches (hclass.context table types hm) hbody
    (Scope.matches_ofParams hm.params) hm.returnType h
  exact ⟨e', ⟨k, h'⟩, he.alike.symm⟩

theorem ChecksTo.erased (h : ChecksTo table types outline m body e) :
    ∃ e', ChecksTo table types outline m body.erase e' ∧ e'.Alike e :=
  h.of_matches (.refl_anywhere outline) (.refl_anywhere m) body.erase_matches.swap

theorem exists_checksTo {checked : List Method}
    (h : checkBodies (table.push outline) outline types outline.methods tree.classDecl.methods =
      .ok checked) {i : Nat} {t : Tree.Method} (hm : outline.methods[i]? = some m)
    (ht : tree.classDecl.methods[i]? = some t) :
    ∃ e, checked[i]? = some { m with body := some e } ∧
      ChecksTo table types outline m t.body e := by
  rw [checkBodies_eq_mapM] at h
  have hzip : (outline.methods.zip tree.classDecl.methods)[i]? = some (m, t) :=
    List.getElem?_zip_eq_some.2 ⟨hm, ht⟩
  obtain ⟨m', hm', hbody⟩ := forall₂_getElem?_left (Except.forall₂_of_mapM h) hzip
  obtain ⟨e, k, rfl, hcheck⟩ := checkBody_eq_ok.1 hbody
  exact ⟨e, hm', k, hcheck⟩

/-- The checked methods are those of the outline, with what the checker makes of their bodies. -/
theorem checkBodies_getElem? {checked : List Method}
    (h : checkBodies (table.push outline) outline types outline.methods tree.classDecl.methods =
      .ok checked) {i : Nat} (hm : checked[i]? = some m) :
    ∃ m₀ t e, outline.methods[i]? = some m₀ ∧ tree.classDecl.methods[i]? = some t ∧
      m = { m₀ with body := some e } ∧ ChecksTo table types outline m₀ t.body e := by
  rw [checkBodies_eq_mapM] at h
  obtain ⟨⟨m₀, t⟩, hzip, hbody⟩ := forall₂_getElem?_right (Except.forall₂_of_mapM h) hm
  obtain ⟨hm₀, ht⟩ := List.getElem?_zip_eq_some.1 hzip
  obtain ⟨e, k, rfl, hcheck⟩ := checkBody_eq_ok.1 hbody
  exact ⟨m₀, t, e, hm₀, ht, rfl, k, hcheck⟩

/-- A module whose methods declare the same, and whose bodies without places are accepted where the
old bodies were, is accepted too, and its bodies differ from the old ones in their places at
most. -/
theorem checkModule_again {table' : ClassTable}
    (h : checkModule table path tree imports = .ok table')
    (hname : tree'.classDecl.name = tree.classDecl.name)
    (hslots : List.Forall₂ (fun s s' => Tree.Slot.erase s = s'.erase) tree.classDecl.slots
      tree'.classDecl.slots)
    (hmethods : List.Forall₂ Tree.Method.Alike tree.classDecl.methods tree'.classDecl.methods)
    (again : ∀ types outline, Outlines table path tree imports types outline → ∀ (i : Nat) m t t' e,
      outline.methods[i]? = some m → tree.classDecl.methods[i]? = some t →
      tree'.classDecl.methods[i]? = some t' → ChecksTo table types outline m t.body e →
      ∃ e', ChecksTo table types outline m t'.body.erase e' ∧ e'.Alike e) :
    ∃ table'', checkModule table path tree' imports = .ok table'' ∧
      ∀ (i : Nat) c m e, table'.get? table.size = some c → c.methods[i]? = some m →
        m.body = some e → ∃ c' m' e', table''.get? table.size = some c' ∧
          c'.methods[i]? = some m' ∧ m'.body = some e' ∧ e'.Alike e := by
  obtain ⟨types, outline, checked, outlines, hchecked, rfl⟩ := checkModule_eq_ok.1 h
  obtain ⟨outline', houtline', hclass⟩ :=
    (shape_agree (.refl_anywhere types) rfl path hname hslots hmethods).of_ok outlines.shaped
  have outlines' : Outlines table path tree' imports types outline' :=
    ⟨outlines.imported, outlines.ownName.trans hname.symm,
      outlines.ownType.trans (by rw [hname]), houtline'⟩
  -- the body at `i` of the new module is checked to the one at `i` of the old module
  have rechecked : ∀ (i : Nat) m m' t t' e, outline.methods[i]? = some m →
      tree.classDecl.methods[i]? = some t → outline'.methods[i]? = some m' →
      tree'.classDecl.methods[i]? = some t' → ChecksTo table types outline m t.body e →
      ∃ e', ChecksTo table types outline' m' t'.body e' ∧ e'.Alike e := by
    intro i m m' t t' e hm ht hm' ht' hcheck
    obtain ⟨m₁, hm₁, hmalike⟩ := forall₂_getElem?_right hclass.methods hm'
    cases hm.symm.trans hm₁
    obtain ⟨e₁, hagain, halike⟩ := again types outline outlines i m t t' e hm ht ht' hcheck
    obtain ⟨e', hcheck', halike'⟩ := hagain.of_matches hclass hmalike t'.body.erase_matches
    exact ⟨e', hcheck', halike'.trans halike⟩
  obtain ⟨checked', hchecked'⟩ : ∃ checked', checkBodies (table.push outline') outline' types
      outline'.methods tree'.classDecl.methods = .ok checked' := by
    rw [checkBodies_eq_mapM]
    refine Except.mapM_succeeds ?_
    rintro ⟨m', t'⟩ hmem
    obtain ⟨i, hi⟩ := List.mem_iff_getElem?.1 hmem
    obtain ⟨hm', ht'⟩ := List.getElem?_zip_eq_some.1 hi
    obtain ⟨m, hm, -⟩ := forall₂_getElem?_right hclass.methods hm'
    obtain ⟨t, ht, -⟩ := forall₂_getElem?_right hmethods ht'
    obtain ⟨e, -, hcheck⟩ := exists_checksTo hchecked hm ht
    obtain ⟨e', ⟨k', hcheck'⟩, -⟩ := rechecked i m m' t t' e hm ht hm' ht' hcheck
    exact ⟨_, checkBody_eq_ok.2 ⟨e', k', rfl, hcheck'⟩⟩
  refine ⟨table.push { outline' with methods := checked' },
    checkModule_eq_ok.2 ⟨types, outline', checked', outlines', hchecked', rfl⟩, ?_⟩
  intro i c m e hc hm he
  rw [ClassTable.get?_push_size] at hc
  cases hc
  obtain ⟨m₀, t, e₀, hm₀, ht, rfl, hcheck⟩ := checkBodies_getElem? hchecked hm
  obtain rfl := Option.some.inj he
  obtain ⟨t', ht', -⟩ := forall₂_getElem?_left hmethods ht
  obtain ⟨m', hm', -⟩ := forall₂_getElem?_left hclass.methods hm₀
  obtain ⟨e', hcheck', halike⟩ := rechecked i m₀ m' t t' e₀ hm₀ ht hm' ht' hcheck
  obtain ⟨e₁, he₁, hcheck₁⟩ := exists_checksTo hchecked' hm' ht'
  obtain rfl := hcheck'.unique hcheck₁
  exact ⟨_, _, e', ClassTable.get?_push_size, he₁, rfl, halike⟩

end Again

end Typed

end ClassLang
