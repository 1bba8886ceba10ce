import ClassLang.Proofs.ErasedPlaces
import ClassLang.Proofs.PresentImports

/-!
# Requests that fail leave no trace

A module that is checked has the outline of its class in the table while its bodies are checked, and
a class that is defined has a name for its texts before it is linked. Both can fail after that.

For a table, `checkInPlace` says what is put into it and taken out again; it comes to the same as
`checkModule` (`run_checkInPlace`), so a table holds what the accepted modules have put there. For a
loader, the name of the texts does stay behind. But a loader that has it in addition cannot be told
from one that has not (`Loader.Alike`): no name that leads to a function or to the memory is hidden,
and the names are used by definitions only. One request to two such loaders is `Call.alike`.

The main statement is `failures_leave_no_trace`.
-/

set_option autoImplicit false

namespace ClassLang

open List

/-! ## Steps one after the other -/

section Outcomes

variable {σ ε α β : Type}

/-- The outcomes of steps that are made one after the other, whether they succeed or fail, and the
state behind them. -/
def outcomes (step : α → ExceptT ε (StateM σ) β) : List α → σ → List (Except ε β) × σ
  | [], s => ([], s)
  | a :: rest, s =>
    ((((step a).run s).1 :: (outcomes step rest ((step a).run s).2).1),
      (outcomes step rest ((step a).run s).2).2)

/-- The items whose outcome is a success. -/
def accepted (items : List α) (answers : List (Except ε β)) : List α :=
  ((items.zip answers).filter (·.2.isOk)).map Prod.fst

/-- Where a step that fails changes nothing, the steps that succeed do all by themselves. -/
theorem outcomes_accepted {step : α → ExceptT ε (StateM σ) β}
    (undone : ∀ a s e s', (step a).run s = (.error e, s') → s' = s) (items : List α) (s : σ) :
    outcomes step (accepted items (outcomes step items s).1) s =
      ((outcomes step items s).1.filter Except.isOk, (outcomes step items s).2) := by
  induction items generalizing s with
  | nil => rfl
  | cons a rest ih =>
    rcases hrun : (step a).run s with ⟨e | b, s'⟩
    · obtain rfl := undone a s e s' hrun
      simp only [outcomes, hrun, accepted, zip_cons_cons]
      rw [filter_cons_of_neg (by simp [Except.isOk, Except.toBool]),
        filter_cons_of_neg (by simp [Except.isOk, Except.toBool])]
      exact ih s'
    · simp only [outcomes, hrun, accepted, zip_cons_cons]
      rw [filter_cons_of_pos rfl, filter_cons_of_pos rfl, map_cons, outcomes, hrun]
      exact congrArg (fun ended => (Except.ok b :: ended.1, ended.2)) (ih s')

end Outcomes

namespace Typed

/-! ## Checks in a table -/

/-- A module that is to be checked. -/
structure CheckCall where
  path : ModulePath
  tree : Tree.Module
  imports : List (Span × ClassId)

namespace ClassTable

/-- The first classes of a table. -/
def truncate (table : ClassTable) (size : Nat) : ClassTable := ⟨table.classes.take size⟩

theorem truncate_push (table : ClassTable) (c : Class) :
    (table.push c).truncate table.size = table :=
  congrArg mk take_left

theorem set_push (table : ClassTable) (c c' : Class) :
    (table.push c).set table.size c' = table.push c' := by
  refine congrArg mk ?_
  rw [push, size, set_append_right _ _ (Nat.le_refl _), Nat.sub_self]
  rfl

end ClassTable

/-- Checks a module in the table itself. The outline of its class is there while the bodies are
checked; then the class takes its place, or it is taken out again. -/
def checkInPlace (call : CheckCall) : ExceptT CompileError (StateM ClassTable) ClassId := do
  let table ← get
  let id := table.size
  let decl := call.tree.classDecl
  let imported ← liftExcept (TypeScope.importsFrom table [] call.imports)
  let types : TypeScope := ⟨decl.name, .object id decl.name, imported⟩
  let outline ← liftExcept (shape types id call.path decl)
  set (table.push outline)
  match checkBodies (table.push outline) outline types outline.methods decl.methods with
  | .ok methods =>
    modify (·.set id { outline with methods := methods })
    return id
  | .error e =>
    modify (·.truncate id)
    throw e

theorem run_liftExcept {σ ε α : Type} (x : Except ε α) (s : σ) :
    (liftExcept x : ExceptT ε (StateM σ) α).run s = (x, s) := by
  cases x <;> rfl

theorem ok_bind {ε α β : Type} (a : α) (f : α → Except ε β) : (Except.ok a >>= f) = f a := rfl

theorem run_checkInPlace (table : ClassTable) (call : CheckCall) :
    (checkInPlace call).run table =
      ((checkModule table call.path call.tree call.imports).map fun _ => table.size,
        table.afterCheck call.path call.tree call.imports) := by
  unfold ClassTable.afterCheck checkModule checkInPlace
  rw [run_get_bind]
  dsimp only
  rw [run_bind, run_liftExcept]
  cases TypeScope.importsFrom table [] call.imports with
  | error e => rfl
  | ok imported =>
    change (liftExcept _ >>= _ : ExceptT CompileError (StateM ClassTable) ClassId).run table = _
    rw [run_bind, run_liftExcept, ok_bind]
    generalize hshape : shape _ _ _ _ = shaped
    cases shaped with
    | error e => rfl
    | ok outline =>
      rw [ok_bind]
      dsimp only
      generalize checkBodies _ _ _ _ _ = bodies
      cases bodies with
      | error e => exact congrArg (Prod.mk _) (table.truncate_push outline)
      | ok methods => exact congrArg (Prod.mk _) (table.set_push outline _)

/-- A module that is refused leaves the table as it was, and one that is accepted adds one class
behind the others. -/
theorem checkInPlace_cases (table : ClassTable) (call : CheckCall) :
    (∃ e, (checkInPlace call).run table = (.error e, table)) ∨
      ∃ c, (checkInPlace call).run table = (.ok table.size, table.push c) := by
  rw [run_checkInPlace, ClassTable.afterCheck]
  cases hcheck : checkModule table call.path call.tree call.imports with
  | error e => exact Or.inl ⟨e, rfl⟩
  | ok table' =>
    obtain ⟨types, outline, checked, -, -, rfl⟩ := checkModule_eq_ok.1 hcheck
    exact Or.inr ⟨_, rfl⟩

theorem checkInPlace_undone (call : CheckCall) (table : ClassTable) (e : CompileError)
    (table' : ClassTable) (h : (checkInPlace call).run table = (.error e, table')) :
    table' = table := by
  rcases checkInPlace_cases table call with ⟨e', hrun⟩ | ⟨c, hrun⟩ <;> rw [h] at hrun
  · exact (Prod.mk.inj hrun).2
  · cases (Prod.mk.inj hrun).1

end Typed

namespace Machine

open Code (Artifact FuncType)
open Code.Binary (hostModule memoryName textsName)

namespace Loader

/-! ## Calls -/

/-- What may be asked of a loader. -/
inductive Call where
  | define (a : Artifact)
  | isDefined (moduleName : String)
  | newObject (moduleName : String) (values : List Value)
  | field (object : Value) (name : String)
  | invoke (moduleName method : String) (args : List Value)

/-- What a loader answers if it does not fail. -/
inductive Answer where
  | done
  | known (defined : Bool)
  | value (v : Value)
deriving DecidableEq

/-- Asks a loader. -/
def Call.ask : Call → Loading Answer
  | .define a => (fun _ => .done) <$> Loader.define a
  | .isDefined moduleName => do return .known ((← get).isDefined moduleName)
  | .newObject moduleName values => .value <$> Loader.newObject moduleName values
  | .field object name => .value <$> Loader.field object name
  | .invoke moduleName method args => .value <$> Loader.invoke moduleName method args

/-- What one call makes of a loader: it uses what is there, or it defines a class, of which at least
the name for its texts is new. -/
inductive Asked (l : Loader) : Call → Loader → Prop where
  | used {call : Call} {l' : Loader} (h : Used l l') : Asked l call l'
  | named {a : Artifact} (fresh : l.isDefined a.moduleName = false) :
      Asked l (.define a) (l.named a)
  | extended {a : Artifact} {loaded : Loaded} (fresh : l.isDefined a.moduleName = false)
      (hlink : (l.named a).link? a = some loaded) : Asked l (.define a) (l.extended a loaded)

theorem Call.asked (call : Call) (l : Loader) : Asked l call (call.ask.run l).2 := by
  cases call with
  | define a =>
    rw [Call.ask, run_map]
    rcases define_cases l a with ⟨-, hrun⟩ | ⟨fresh, ⟨-, hrun⟩ | ⟨loaded, hlink, hrun⟩⟩ <;>
      rw [hrun]
    · exact .used (TextsAdded.refl l).used
    · exact .named fresh
    · exact .extended fresh hlink
  | isDefined moduleName => exact .used (TextsAdded.refl l).used
  | newObject moduleName values =>
    rw [Call.ask, run_map]
    exact .used (uses_newObject moduleName values l)
  | field object name =>
    rw [Call.ask, run_map]
    exact .used (uses_field object name l)
  | invoke moduleName method args =>
    rw [Call.ask, run_map]
    exact .used (uses_invoke moduleName method args l)

/-- The loader after some calls. -/
def after (l : Loader) (calls : List Call) : Loader := (outcomes Call.ask calls l).2

/-- The answers to some calls. -/
def answers (l : Loader) (calls : List Call) : List (Except Failure Answer) :=
  (outcomes Call.ask calls l).1

/-! ## Names that are not read -/

/-- The loader with other names. -/
def withNames (l : Loader) (names : List (LinkName × Linkable)) : Loader :=
  { l with names := names }

theorem memory_withNames (l : Loader) (names : List (LinkName × Linkable)) :
    (l.withNames names).memory = l.memory := rfl

/-- The step neither reads the names of a loader nor changes them. -/
def Nameless {α : Type} (x : Loading α) : Prop :=
  ∀ l names, x.run (l.withNames names) = ((x.run l).1, (x.run l).2.withNames names)

namespace Nameless

variable {α β : Type}

theorem pure (a : α) : Nameless (Pure.pure a : Loading α) := fun _ _ => rfl

theorem throw (e : Failure) : Nameless (MonadExcept.throw e : Loading α) := fun _ _ => rfl

theorem bind {x : Loading α} {f : α → Loading β} (hx : Nameless x) (hf : ∀ a, Nameless (f a)) :
    Nameless (x >>= f) := by
  intro l names
  rw [run_bind, run_bind, hx l names]
  rcases x.run l with ⟨e | a, l'⟩
  · rfl
  · exact hf a l' names

theorem map (f : α → β) {x : Loading α} (hx : Nameless x) : Nameless (f <$> x) := by
  intro l names
  rw [run_map, run_map, hx l names]

/-- What is read of the loader does not depend on its names. -/
theorem get_bind {f : Loader → Loading β} (same : ∀ l names, f (l.withNames names) = f l)
    (hf : ∀ l, Nameless (f l)) : Nameless (get >>= f) := by
  intro l names
  rw [run_get_bind, run_get_bind, same l names]
  exact hf l l names

end Nameless

theorem nameless_classAt (moduleName : String) : Nameless (classAt moduleName) := by
  refine .get_bind (fun _ _ => rfl) fun l => ?_
  split
  · exact .pure _
  · exact .throw _

theorem nameless_resultValue (ty : Ty) (w : Word) : Nameless (resultValue ty w) := by
  refine .get_bind (fun _ _ => rfl) fun l => ?_
  split
  · exact .pure _
  · exact .throw _

theorem nameless_toWord (ty : Ty) (value : Value) (mismatch : Failure) :
    Nameless (toWord ty value mismatch) := by
  unfold toWord
  split
  · exact .pure _
  · exact .pure _
  · exact fun _ _ => rfl
  · refine .get_bind (fun _ _ => rfl) fun l => ?_
    split
    · exact .pure _
    · exact .throw _
  · exact .throw _

theorem nameless_wordsOf (items : List (Ty × Value × Failure)) : Nameless (wordsOf items) := by
  induction items with
  | nil => exact .pure _
  | cons item rest ih =>
    exact .bind (nameless_toWord _ _ _) fun _ => .bind ih fun _ => .pure _

theorem nameless_newObject (moduleName : String) (values : List Value) :
    Nameless (newObject moduleName values) := by
  refine .bind (nameless_classAt moduleName) fun found => ?_
  dsimp only
  split
  · exact .throw _
  rw [cellsOf_eq]
  refine .bind (.map _ (nameless_wordsOf _)) fun cells => .bind (fun _ _ => rfl) fun handle? => ?_
  cases handle? with
  | none => exact .throw _
  | some handle => exact .pure _

theorem nameless_field (object : Value) (name : String) : Nameless (field object name) := by
  unfold field
  split
  · refine .bind (nameless_classAt _) fun found => ?_
    dsimp -zeta only
    split
    · exact .throw _
    -- only the memory is read of the loader, and it is the same with other names
    intro l names
    rw [run_get_bind, run_get_bind, memory_withNames]
    split
    · rfl
    · exact nameless_resultValue _ _ l names
  · exact .throw _

/-- A run of a method reads the classes, the memory and the texts. -/
theorem nameless_runMethod (c : Loaded) (classIndex : Nat) (m : Code.MethodCode)
    (methodIndex : Nat) (words : List Word) :
    Nameless (runMethod c classIndex m methodIndex words) := by
  intro l names
  rcases hrun : (runMethod c classIndex m methodIndex words).run l with ⟨outcome, l'⟩
  rcases hrun' : (runMethod c classIndex m methodIndex words).run (l.withNames names) with
    ⟨outcome', l''⟩
  obtain ⟨run, hcall, hended⟩ := runMethod_cases hrun
  obtain ⟨run', hcall', hended'⟩ := runMethod_cases hrun'
  -- the names are no argument of the call, so the two runs are one
  change run' = callFunc l.memory l.classes _ _ _ at hcall'
  rw [← hcall] at hcall'
  subst hcall'
  rcases hended with ⟨trap, htrap, rfl, rfl⟩ | ⟨w, hw, hresult⟩ <;>
    rcases hended' with ⟨trap', htrap', rfl, rfl⟩ | ⟨w', hw', hresult'⟩
  · cases htrap.symm.trans htrap'
    rfl
  · cases htrap.symm.trans hw'
  · cases hw.symm.trans htrap'
  · cases hw.symm.trans hw'
    have hboth := nameless_resultValue m.result w { l with texts := run'.after l.texts } names
    rw [hresult] at hboth
    exact hresult'.symm.trans hboth

theorem nameless_invoke (moduleName method : String) (args : List Value) :
    Nameless (invoke moduleName method args) := by
  refine .bind (nameless_classAt moduleName) fun found => ?_
  dsimp only
  split
  · exact .throw _
  split
  · exact .throw _
  · rw [argumentWords_eq]
    exact .bind (nameless_wordsOf _) fun words => nameless_runMethod _ _ _ _ _

/-! ## Loaders that cannot be told apart -/

/-- The loaders differ by names only, which lead to the same functions, and both or none of them
have the memory under its name. -/
structure Alike (l l' : Loader) : Prop where
  same : l' = l.withNames l'.names
  funcs : ∀ name type, l'.func? name type = l.func? name type
  memory : l'.lookup? (hostModule, memoryName) = some .memory ↔
    l.lookup? (hostModule, memoryName) = some .memory

section Alike

variable {l l' : Loader} {a : Artifact}

theorem Alike.refl (l : Loader) : Alike l l := ⟨rfl, fun _ _ => rfl, Iff.rfl⟩

theorem Alike.isDefined (alike : Alike l l') (moduleName : String) :
    l'.isDefined moduleName = l.isDefined moduleName := by
  rw [alike.same]
  rfl

theorem func?_of_names (h : l'.names = l.names) (name : LinkName) (type : FuncType) :
    l'.func? name type = l.func? name type := by
  rw [func?, func?, lookup?, lookup?, h]

/-- A step that does not read the names does the same with both. -/
theorem Alike.step {α : Type} (alike : Alike l l') {x : Loading α} (nameless : Nameless x)
    (uses : Uses x) : (x.run l').1 = (x.run l).1 ∧ Alike (x.run l).2 (x.run l').2 := by
  have hnames := (uses l).names
  have hrun : x.run l' = ((x.run l).1, (x.run l).2.withNames l'.names) := by
    conv_lhs => rw [alike.same]
    exact nameless l l'.names
  rw [hrun]
  refine ⟨rfl, rfl, fun name type => ?_, ?_⟩
  · rw [func?_of_names hnames, ← alike.funcs]
    exact func?_of_names rfl name type
  · rw [lookup?, lookup?, hnames]
    exact alike.memory

theorem func?_named (l : Loader) (a : Artifact) (name : LinkName) (type : FuncType) :
    (l.named a).func? name type =
      if name = (a.moduleName, textsName) then none else l.func? name type := by
  rw [func?, lookup?, named]
  by_cases hname : name = (a.moduleName, textsName)
  · rw [if_pos hname, hname, lookup_cons_self]
  · rw [if_neg hname, lookup_cons, beq_false_of_ne hname]
    rfl

theorem lookup?_memory_named (l : Loader) (a : Artifact) :
    (l.named a).lookup? (hostModule, memoryName) = l.lookup? (hostModule, memoryName) := by
  have hne : (hostModule, memoryName) ≠ (a.moduleName, textsName) := fun heq =>
    absurd (Prod.mk.inj heq).2 (by decide)
  rw [lookup?, named, lookup_cons, beq_false_of_ne hne]
  rfl

theorem Alike.named (alike : Alike l l') (a : Artifact) : Alike (l.named a) (l'.named a) where
  same := by
    conv_lhs => rw [alike.same]
    rw [alike.same]
    rfl
  funcs name type := by rw [func?_named, func?_named, alike.funcs]
  memory := by
    rw [lookup?_memory_named, lookup?_memory_named]
    exact alike.memory

theorem Alike.link? (alike : Alike l l') (a : Artifact) :
    (l'.named a).link? a = (l.named a).link? a := by
  have hnamed := alike.named a
  have htexts : (l'.named a).lookup? (a.moduleName, textsName) =
      (l.named a).lookup? (a.moduleName, textsName) := by
    rw [lookup?, lookup?, Loader.named, Loader.named, lookup_cons_self, lookup_cons_self,
      alike.same]
    rfl
  have hclasses : (l'.named a).classes = (l.named a).classes := by
    rw [hnamed.same]
    rfl
  have hfuncs : (l'.named a).func? = (l.named a).func? :=
    funext fun name => funext fun type => hnamed.funcs name type
  unfold Loader.link?
  rw [Option.guard_congr hnamed.memory, htexts, hfuncs, hclasses]

/-- Names in front of both hide the same. -/
theorem Alike.extended (alike : Alike l l') (a : Artifact) (loaded : Loaded) :
    Alike (l.extended a loaded) (l'.extended a loaded) where
  same := by
    conv_lhs => rw [alike.same]
    rw [alike.same]
    rfl
  funcs name type := by
    have hclasses : l'.classes = l.classes := by
      rw [alike.same]
      rfl
    have hnamed := (alike.named a).funcs name type
    rw [func?, func?, lookup?, lookup?] at hnamed ⊢
    rw [Loader.extended, Loader.extended, lookup_append, lookup_append, hclasses]
    cases (methodNames l.classes.length a).lookup name with
    | none => exact hnamed
    | some linkable => rfl
  memory := by
    have hclasses : l'.classes = l.classes := by
      rw [alike.same]
      rfl
    have hnamed := (alike.named a).memory
    rw [lookup?, lookup?] at hnamed ⊢
    rw [Loader.extended, Loader.extended, lookup_append, lookup_append, hclasses]
    cases (methodNames l.classes.length a).lookup (hostModule, memoryName) with
    | none => exact hnamed
    | some linkable => exact Iff.rfl

theorem run_define (l : Loader) (a : Artifact) : (define a).run l =
    if l.isDefined a.moduleName then (.error (.duplicateClass a.moduleName), l)
    else ((l.named a).link? a).elim (.error (.unlinked a.moduleName), l.named a)
      fun loaded => (.ok (), l.extended a loaded) := by
  rcases define_cases l a with ⟨hthere, hrun⟩ | ⟨hfresh, ⟨hlink, hrun⟩ | ⟨loaded, hlink, hrun⟩⟩
  · rw [if_pos hthere, hrun]
  · rw [if_neg (ne_true_of_eq_false hfresh), hlink, hrun, Option.elim_none]
  · rw [if_neg (ne_true_of_eq_false hfresh), hlink, hrun, Option.elim_some]

/-- A definition does the same with both. -/
theorem Alike.define (alike : Alike l l') (a : Artifact) :
    ((Loader.define a).run l').1 = ((Loader.define a).run l).1 ∧
      Alike ((Loader.define a).run l).2 ((Loader.define a).run l').2 := by
  rw [run_define, run_define, alike.isDefined, alike.link?]
  split
  · exact ⟨rfl, alike⟩
  · cases (l.named a).link? a with
    | none => exact ⟨rfl, alike.named a⟩
    | some loaded => exact ⟨rfl, alike.extended a loaded⟩

theorem Alike.value {x : Loading Value} (alike : Alike l l') (nameless : Nameless x)
    (uses : Uses x) :
    ((Answer.value <$> x).run l').1 = ((Answer.value <$> x).run l).1 ∧
      Alike ((Answer.value <$> x).run l).2 ((Answer.value <$> x).run l').2 := by
  obtain ⟨houtcome, hafter⟩ := alike.step nameless uses
  rw [run_map, run_map, houtcome]
  exact ⟨rfl, hafter⟩

/-- One call to both. -/
theorem Call.alike (call : Call) (alike : Alike l l') :
    (call.ask.run l').1 = (call.ask.run l).1 ∧ Alike (call.ask.run l).2 (call.ask.run l').2 := by
  cases call with
  | define a =>
    obtain ⟨houtcome, hafter⟩ := alike.define a
    rw [Call.ask, run_map, run_map, houtcome]
    exact ⟨rfl, hafter⟩
  | isDefined moduleName =>
    refine ⟨?_, alike⟩
    change Except.ok (Answer.known (l'.isDefined moduleName)) = _
    rw [alike.isDefined]
    rfl
  | newObject moduleName values =>
    exact alike.value (nameless_newObject moduleName values) (uses_newObject moduleName values)
  | field object name => exact alike.value (nameless_field object name) (uses_field object name)
  | invoke moduleName method args =>
    exact alike.value (nameless_invoke moduleName method args)
      (uses_invoke moduleName method args)

theorem Alike.answers (alike : Alike l l') (calls : List Call) :
    l'.answers calls = l.answers calls := by
  induction calls generalizing l l' with
  | nil => rfl
  | cons call calls ih =>
    obtain ⟨hanswer, hafter⟩ := call.alike alike
    exact cons_eq_cons.2 ⟨hanswer, ih hafter⟩

end Alike

/-! ## Names that stay behind -/

/-- Where the name for the texts of a module is a function, the module has a class. -/
def TextsApart (l : Loader) : Prop :=
  ∀ moduleName ref type, l.lookup? (moduleName, textsName) = some (.func ref type) →
    l.isDefined moduleName = true

section TextsApart

variable {l l' : Loader} {a : Artifact}

theorem textsApart_initial : initial.TextsApart := by
  intro moduleName ref type h
  have hnone : initial.lookup? (moduleName, textsName) = none := by
    refine lookup_eq_none_iff.2 fun entry hentry => bne_iff_ne.2 ?_
    have hother : ∀ entry ∈ hostNames, entry.1.2 ≠ textsName := by decide +kernel
    intro heq
    exact hother entry hentry (congrArg Prod.snd heq.symm)
  cases hnone.symm.trans h

theorem TextsApart.used (apart : l.TextsApart) (used : Used l l') : l'.TextsApart := by
  intro moduleName ref type h
  rw [lookup?, used.names] at h
  rw [isDefined, class?, used.classes]
  exact apart moduleName ref type h

theorem TextsApart.named (apart : l.TextsApart) (a : Artifact) : (l.named a).TextsApart := by
  intro moduleName ref type h
  rw [lookup?, Loader.named, lookup_cons] at h
  split at h
  · cases h
  · exact apart moduleName ref type h

theorem TextsApart.extended (apart : l.TextsApart) {loaded : Loaded}
    (hlink : (l.named a).link? a = some loaded) : (l.extended a loaded).TextsApart := by
  intro moduleName ref type h
  rw [isDefined, class?, find?_isSome]
  rw [lookup?, Loader.extended, lookup_append] at h
  cases hfront : (methodNames l.classes.length a).lookup (moduleName, textsName) with
  | some linkable =>
    -- the name is one of the new class
    obtain ⟨before, behind, hentries, -⟩ := lookup_eq_some_iff.1 hfront
    have hmem : ((moduleName, textsName), linkable) ∈ methodNames l.classes.length a := by
      rw [hentries]
      exact mem_append_right _ mem_cons_self
    refine ⟨loaded, mem_append_right _ mem_cons_self, decide_eq_true ?_⟩
    rw [artifact_of_link? hlink]
    exact (fst_methodNames hmem).1.symm
  | none =>
    rw [hfront, Option.none_or] at h
    have hthere := apart.named a moduleName ref type h
    rw [isDefined, class?, find?_isSome] at hthere
    obtain ⟨other, hmem, hname⟩ := hthere
    exact ⟨other, mem_append_left _ hmem, hname⟩

theorem TextsApart.asked {call : Call} (apart : l.TextsApart) (h : Asked l call l') :
    l'.TextsApart := by
  cases h with
  | used h => exact apart.used h
  | named _ => exact apart.named _
  | extended _ hlink => exact apart.extended hlink

theorem TextsApart.after (apart : l.TextsApart) (calls : List Call) :
    (l.after calls).TextsApart := by
  induction calls generalizing l with
  | nil => exact apart
  | cons call calls ih => exact ih (apart.asked (call.asked l))

/-- The name that a definition leaves behind hides nothing that could be found. -/
theorem TextsApart.alike_named (apart : l.TextsApart) (fresh : l.isDefined a.moduleName = false) :
    Alike l (l.named a) where
  same := rfl
  funcs name type := by
    rw [func?_named]
    split
    · next hname =>
      rw [hname, func?]
      split
      · next ref found hlookup =>
        rw [apart _ _ _ hlookup] at fresh
        cases fresh
      · rfl
    · rfl
  memory := by rw [lookup?_memory_named]

/-- A definition that fails leaves a loader that cannot be told from the one before. -/
theorem TextsApart.alike_define (apart : l.TextsApart) {e : Failure}
    (failed : ((define a).run l).1 = .error e) : Alike l ((define a).run l).2 := by
  rcases define_cases l a with ⟨-, hrun⟩ | ⟨hfresh, ⟨-, hrun⟩ | ⟨loaded, -, hrun⟩⟩ <;>
    rw [hrun] at failed ⊢
  · exact .refl l
  · exact apart.alike_named hfresh
  · cases failed

end TextsApart

end Loader

end Machine

open Machine (Loader)

/-- **Requests that fail leave no trace.** A check in a table gives what `checkModule` gives; it
leaves the table as it was, or adds one class behind the others and gives its position. So however
many checks are made in one table and however many of them fail, those that are accepted make the
same table by themselves, with the same answers. And a definition that fails, in whatever loader
calls have led to, does not change the answers to any calls that come later. -/
theorem failures_leave_no_trace :
    (∀ (table : Typed.ClassTable) (call : Typed.CheckCall),
      (Typed.checkInPlace call).run table =
          ((Typed.checkModule table call.path call.tree call.imports).map fun _ => table.size,
            table.afterCheck call.path call.tree call.imports) ∧
        ((∃ e, (Typed.checkInPlace call).run table = (.error e, table)) ∨
          ∃ c, (Typed.checkInPlace call).run table = (.ok table.size, table.push c))) ∧
    (∀ (table : Typed.ClassTable) (calls : List Typed.CheckCall),
      outcomes Typed.checkInPlace
          (accepted calls (outcomes Typed.checkInPlace calls table).1) table =
        ((outcomes Typed.checkInPlace calls table).1.filter Except.isOk,
          (outcomes Typed.checkInPlace calls table).2)) ∧
    ∀ (earlier later : List Loader.Call) (a : Code.Artifact) (e : Failure),
      ((Loader.define a).run (Loader.initial.after earlier)).1 = .error e →
        ((Loader.define a).run (Loader.initial.after earlier)).2.answers later =
          (Loader.initial.after earlier).answers later := by
  refine ⟨?_, fun table calls => outcomes_accepted Typed.checkInPlace_undone calls table, ?_⟩
  · intro table call
    exact ⟨Typed.run_checkInPlace table call, Typed.checkInPlace_cases table call⟩
  intro earlier later a e failed
  have apart := Loader.textsApart_initial.after earlier
  exact (apart.alike_define failed).answers later

/-- The artifacts of two modules, of which the second imports the first. -/
def pairArtifacts : List Code.Artifact :=
  (Session.initial.definitions (Session.pairFiles "Base.one + Base.one").sources
    (.parse "App")).map (·.artifact)

def baseArtifact : Code.Artifact := pairArtifacts.getD 0 default

def appArtifact : Code.Artifact := pairArtifacts.getD 1 default

/-- The second class cannot be defined without the first. Defined in order, they work as if that had
not been tried. -/
theorem failures_leave_no_trace_pair :
    ((Loader.define appArtifact).run Loader.initial).1 = .error (.unlinked "App") ∧
      ((Loader.define appArtifact).run Loader.initial).2.answers
          [.isDefined "App", .define baseArtifact, .define appArtifact, .invoke "App" "twice" []] =
        [.ok (.known false), .ok .done, .ok .done, .ok (.value (.int 2))] := by
  have failed : ((Loader.define appArtifact).run (Loader.initial.after [])).1 =
      .error (.unlinked "App") := by decide +kernel
  refine ⟨failed, (failures_leave_no_trace.2.2 [] _ appArtifact _ failed).trans ?_⟩
  decide +kernel

end ClassLang
