import ClassLang.Proofs.LoaderUse
import ClassLang.Proofs.SessionSafety
import ClassLang.Proofs.WrittenPaths

/-!
# Consistency of sessions

A session keeps its classes in three places: in the class table, in the list of compiled modules and
in the loader. Whatever is requested, with whatever sources and outcome, the three agree
(`Session.Consistent`), modules are only ever added at the end, and a class refers to itself and to
classes before it. As long as the requests name modules by written paths, none is refused because its
class is there already (`Session.consistent_after`).

What one request keeps is `Session.Keeping.step`, which rests on `Session.compileModule_cases`.
-/

set_option autoImplicit false

namespace ClassLang

open List
open Machine (Loaded Loader Loading Value)
open Resolve (ResolvedModule)
open Typed (ClassTable)

/-! ## References to classes -/

/-- The classes that a type refers to. -/
def Ty.classIds : Ty → List ClassId
  | .prim _ => []
  | .object id _ => [id]

variable {α : Type} {table : ClassTable} {c : Typed.Class}

namespace Typed

def Callee.classIds : Callee → List ClassId
  | .method ref => [ref.owner]
  | .builtin _ => []

def Pattern.classIds : Pattern → List ClassId
  | .ignore _ => []
  | .single _ ty _ _ => ty.classIds

mutual

/-- The classes that an expression refers to, by its types, its slots and what it calls. -/
def Expr.classIds : Expr → List ClassId
  | .localVar _ ty _ _ => ty.classIds
  | .param _ ty _ _ => ty.classIds
  | .receiver _ ty => ty.classIds
  | .slot _ ty ref target => ref.owner :: ty.classIds ++ target.classIds
  | .methodCall _ ty callee target args =>
    ty.classIds ++ callee.classIds ++ target.classIds ++ classIdsList args
  | .staticCall _ ty callee args => ty.classIds ++ callee.classIds ++ classIdsList args
  | .letIn _ pattern value body => pattern.classIds ++ value.classIds ++ body.classIds
  | .seq _ first body => first.classIds ++ body.classIds
  | .literal _ _ => []
  | .quote _ _ holes => classIdsHoles holes

def classIdsList : List Expr → List ClassId
  | [] => []
  | e :: rest => e.classIds ++ classIdsList rest

def classIdsHoles : List (Expr × String) → List ClassId
  | [] => []
  | (hole, _) :: rest => hole.classIds ++ classIdsHoles rest

end

def Method.classIds (m : Method) : List ClassId :=
  m.params.flatMap (·.ty.classIds) ++ m.returnType.classIds ++ m.body.elim [] Expr.classIds

/-- The classes that a class refers to. -/
def Class.classIds (c : Class) : List ClassId :=
  c.slots.flatMap (·.ty.classIds) ++ c.methods.flatMap Method.classIds

theorem classIdsList_eq (args : List Expr) : classIdsList args = args.flatMap Expr.classIds := by
  induction args with
  | nil => rfl
  | cons e rest ih => rw [classIdsList, ih, flatMap_cons]

theorem classIdsHoles_eq (holes : List (Expr × String)) :
    classIdsHoles holes = holes.flatMap fun hole => hole.1.classIds := by
  induction holes with
  | nil => rfl
  | cons hole rest ih => rw [classIdsHoles, ih, flatMap_cons]

/-- The list holds only classes of the table. -/
def ClassTable.HasAll (table : ClassTable) (ids : List ClassId) : Prop :=
  ∀ id ∈ ids, id < table.size

namespace ClassTable.HasAll

@[simp] theorem nil : table.HasAll [] := fun _ h => absurd h not_mem_nil

@[simp] theorem cons_iff {id : ClassId} {ids : List ClassId} :
    table.HasAll (id :: ids) ↔ id < table.size ∧ table.HasAll ids :=
  forall_mem_cons

@[simp] theorem append_iff {ids ids' : List ClassId} :
    table.HasAll (ids ++ ids') ↔ table.HasAll ids ∧ table.HasAll ids' :=
  forall_mem_append

@[simp] theorem flatMap_iff {f : α → List ClassId} {xs : List α} :
    table.HasAll (xs.flatMap f) ↔ ∀ x ∈ xs, table.HasAll (f x) := by
  simp only [HasAll, mem_flatMap]
  exact ⟨fun h x hx id hid => h id ⟨x, hx, hid⟩, fun h id ⟨x, hx, hid⟩ => h x hx id hid⟩

end ClassTable.HasAll

theorem ClassTable.Knows.hasAll {ty : Ty} (known : table.Knows ty) : table.HasAll ty.classIds := by
  cases ty with
  | prim p => exact .nil
  | object id name =>
    obtain ⟨c, hc, -⟩ := known
    exact ClassTable.HasAll.cons_iff.2 ⟨ClassTable.lt_size_of_get? hc, .nil⟩

theorem ClassTable.Calls.hasAll {callee : Callee} {owner : Ty} {signature : Signature}
    (leads : table.Calls callee owner signature) : table.HasAll callee.classIds := by
  cases leads with
  | builtin b => exact .nil
  | method howner _ _ =>
    exact ClassTable.HasAll.cons_iff.2 ⟨ClassTable.lt_size_of_get? howner, .nil⟩

/-- A typed expression refers to classes of the table only. -/
theorem WellTyped.hasAll {ctx : TypingContext} {scope : List LocalVar} {e : Expr}
    (typed : WellTyped ctx scope e) : ctx.table.HasAll e.classIds := by
  induction typed with
  | localVar _ known | param _ known | receiver _ known => exact known.hasAll
  | slot owner _ _ _ known _ ih =>
    have hlt := ClassTable.lt_size_of_get? owner
    simp [Expr.classIds, hlt, known.hasAll, ih]
  | methodCall leads _ _ known _ _ ih ihArgs =>
    simpa [Expr.classIds, classIdsList_eq, known.hasAll, leads.hasAll, ih] using ihArgs
  | staticCall leads _ _ known _ ihArgs =>
    simpa [Expr.classIds, classIdsList_eq, known.hasAll, leads.hasAll] using ihArgs
  | letSingle known _ _ ih ihBody =>
    simp [Expr.classIds, Pattern.classIds, known.hasAll, ih, ihBody]
  | letIgnore _ _ ih ihBody => simp [Expr.classIds, Pattern.classIds, ih, ihBody]
  | seq _ _ ih ihBody => simp [Expr.classIds, ih, ihBody]
  | literal => simp [Expr.classIds]
  | quote _ _ ih => simpa [Expr.classIds, classIdsHoles_eq] using ih

theorem ClassTyped.hasAll {id : ClassId} {c : Class} (typed : ClassTyped table id c) :
    table.HasAll c.classIds := by
  have hmethods : ∀ m ∈ c.methods, table.HasAll m.classIds := by
    intro m hm
    obtain ⟨params, result, body, hbody, -, hwell, -⟩ := typed.methods m hm
    have hparams : ∀ p ∈ m.params, table.HasAll p.ty.classIds := fun p hp => (params p hp).hasAll
    have hall : table.HasAll body.classIds := hwell.hasAll
    simpa [Method.classIds, hbody, result.hasAll, hall] using hparams
  have hslots : ∀ slot ∈ c.slots, table.HasAll slot.ty.classIds :=
    fun slot hslot => (typed.slotsKnown slot hslot).hasAll
  exact ClassTable.HasAll.append_iff.2
    ⟨ClassTable.HasAll.flatMap_iff.2 hslots, ClassTable.HasAll.flatMap_iff.2 hmethods⟩

end Typed

namespace Session

/-! ## The invariant -/

/-- A class of the table and the module that it was compiled from. -/
structure Compiled (table : ClassTable) (c : Typed.Class) (m : CompiledModule) : Prop where
  path : c.path = m.origin.logical
  id : m.id = c.id
  artifactId : m.artifact.id = c.id
  moduleName : m.artifact.moduleName = c.path.text
  backward : ∀ id ∈ c.classIds, id ≤ c.id
  /-- What the code of the class imports from other classes comes from classes before it. -/
  imports : ∀ f ∈ m.artifact.foreignImports, ∃ id d, id < c.id ∧ table.get? id = some d ∧
    d.path.text = f.moduleName

/-- The table, the modules and the loader have the same classes in the same order, each compiled
from a module of its own. -/
structure Standing (s : Session) : Prop where
  typed : s.table.Typed
  compiled : Forall₂ (Compiled s.table) s.table.classes s.modules
  loaded : s.loader.classes.map Loaded.artifact = s.modules.map CompiledModule.artifact
  paths : (s.modules.map (·.origin.logical)).Nodup

theorem standing_initial : initial.Standing where
  typed _ _ hc := nomatch hc
  compiled := .nil
  loaded := rfl
  paths := nodup_nil

section Standing

variable {s : Session}

theorem module?_eq_none {path : ModulePath} (h : s.module? path = none) :
    path ∉ s.modules.map (·.origin.logical) := by
  intro hmem
  obtain ⟨m, hm, rfl⟩ := mem_map.1 hmem
  exact absurd (decide_eq_true rfl) (find?_eq_none.1 h m hm)

/-- Only the classes of the loader count. -/
theorem Standing.loader (standing : s.Standing) {l : Loader}
    (h : l.classes = s.loader.classes) : Standing { s with loader := l } where
  typed := standing.typed
  compiled := standing.compiled
  loaded := by
    rw [← standing.loaded]
    exact congrArg _ h
  paths := standing.paths

theorem Compiled.push {d : Typed.Class} {m : CompiledModule} (h : Compiled table c m) :
    Compiled (table.push d) c m where
  path := h.path
  id := h.id
  artifactId := h.artifactId
  moduleName := h.moduleName
  backward := h.backward
  imports f hf := by
    obtain ⟨id, e, hlt, he, hname⟩ := h.imports f hf
    refine ⟨id, e, hlt, ?_, hname⟩
    rw [ClassTable.get?_push_of_lt (ClassTable.lt_size_of_get? he)]
    exact he

/-- A class that was checked and generated behind those of the table. -/
theorem compiled_of_generated {a : Code.Artifact} {source : String} {origin : ModuleOrigin}
    (hpath : c.path = origin.logical) (typed : (table.push c).Typed)
    (generated : Code.generateClass (table.push c) c source = .ok a) :
    Compiled (table.push c) c ⟨origin, table.size, a⟩ := by
  have ha := (Code.generateClass_eq_ok generated).2
  have typedClass := typed table.size c ClassTable.get?_push_size
  have hid : c.id = table.size := typedClass.id_eq
  refine ⟨hpath, hid.symm, by rw [ha], by rw [ha], ?_, ?_⟩
  · intro id hmem
    have hlt := typedClass.hasAll id hmem
    rw [ClassTable.size_push, ← hid] at hlt
    exact Nat.le_of_lt_succ hlt
  · intro f hf
    dsimp only at hf
    rw [ha] at hf
    obtain ⟨ref, href, rfl⟩ := mem_map.1 hf
    obtain ⟨d, method, hd, -, himport⟩ := Code.foreignImport_of_plan typed href
    have hlt := ClassTable.lt_size_of_get? hd
    refine ⟨ref.owner, d, by rwa [hid], ?_, by rw [himport]⟩
    rw [ClassTable.get?_push_of_lt hlt]
    exact hd

/-- A class that the loader takes keeps all in step. -/
theorem Standing.extended (standing : s.Standing) {a : Code.Artifact} {loaded : Loaded}
    {source : String} {origin : ModuleOrigin} (hpath : c.path = origin.logical)
    (fresh : s.module? origin.logical = none) (typed : (s.table.push c).Typed)
    (generated : Code.generateClass (s.table.push c) c source = .ok a)
    (hlink : (s.loader.named a).link? a = some loaded) :
    Standing ⟨s.table.push c, s.modules ++ [⟨origin, s.table.size, a⟩],
      s.loader.extended a loaded⟩ where
  typed := typed
  compiled := by
    refine rel_append (standing.compiled.imp fun _ _ h => h.push) ?_
    exact .cons (compiled_of_generated hpath typed generated) .nil
  loaded := by
    rw [Loader.extended, map_append, map_append, standing.loaded, map_singleton,
      map_singleton, Loader.artifact_of_link? hlink]
  paths := by
    rw [map_append, map_singleton]
    exact (nodup_append_comm.1 (nodup_cons.2 ⟨module?_eq_none fresh, standing.paths⟩))

/-- The loader has the classes of the modules, under the texts of their paths. -/
theorem Standing.moduleNames (standing : s.Standing) :
    s.loader.classes.map (·.artifact.moduleName) = s.modules.map (·.origin.logical.text) := by
  have hnames : s.modules.map (·.artifact.moduleName) = s.modules.map (·.origin.logical.text) := by
    refine map_congr_left fun m hm => ?_
    obtain ⟨i, hi⟩ := mem_iff_getElem?.1 hm
    obtain ⟨c, -, compiled⟩ := forall₂_getElem?_right standing.compiled hi
    rw [compiled.moduleName, compiled.path]
  have hloaded := congrArg (map Code.Artifact.moduleName) standing.loaded
  rw [map_map, map_map] at hloaded
  exact hloaded.trans hnames

theorem Standing.isDefined_iff (standing : s.Standing) (name : String) :
    s.loader.isDefined name = true ↔ ∃ m ∈ s.modules, m.origin.logical.text = name := by
  have hmem : (∃ c ∈ s.loader.classes, c.artifact.moduleName = name) ↔
      name ∈ s.loader.classes.map (·.artifact.moduleName) := mem_map.symm
  rw [Loader.isDefined, Loader.class?, find?_isSome]
  simp only [decide_eq_true_eq]
  rw [hmem, standing.moduleNames, mem_map]

/-- The class at a position has that position. -/
theorem Standing.get_module (standing : s.Standing) {i : Nat} {m : CompiledModule}
    (h : s.modules[i]? = some m) :
    ∃ c, s.table.get? i = some c ∧ c.id = i ∧ Compiled s.table c m := by
  obtain ⟨c, hc, compiled⟩ := forall₂_getElem?_right standing.compiled h
  exact ⟨c, hc, (standing.typed i c hc).id_eq, compiled⟩

end Standing

/-! ## What requests keep -/

/-- What holds while a session makes a request: all is in step, the modules before are still there,
and if all paths asked for are written, so are those of the modules. -/
structure Keeping (before : List CompiledModule) (written : Prop) (s : Session) : Prop where
  standing : s.Standing
  grown : before <+: s.modules
  paths : written → ∀ m ∈ s.modules, m.origin.logical.Written

/-- No class is there twice, if all paths asked for are written. -/
def NoDuplicate (written : Prop) (e : Failure) : Prop :=
  written → ∀ name, e ≠ .duplicateClass name

theorem noDuplicate_of_isOfSearch {written : Prop} {e : Failure} (h : e.isOfSearch = true) :
    NoDuplicate written e := by
  rintro - name rfl
  cases h

section Keeping

variable {before : List CompiledModule} {written : Prop}

theorem keeps_compileModule (ids : List ClassId) {m : ResolvedModule}
    (hm : written → m.origin.logical.Written) :
    Keeps (Keeping before written) (NoDuplicate written) (compileModule ids m) := by
  intro s keeping
  rcases compileModule_cases ids m keeping.standing.typed with
    ⟨-, ⟨compiled, -, hrun⟩ | ⟨e, hrun, hsearch⟩⟩ |
      ⟨fresh, c, a, -, hpath, -, -, typed, generated, hdefine⟩
  · rw [hrun]
    exact ⟨keeping, fun _ h => nomatch h⟩
  · rw [hrun]
    refine ⟨keeping, fun e' he => ?_⟩
    cases he
    exact noDuplicate_of_isOfSearch hsearch
  have hname : a.moduleName = m.origin.logical.text := by
    rw [(Code.generateClass_eq_ok generated).2, hpath]
  rcases hdefine with ⟨e, l, hdefine, hrun⟩ | ⟨l, hdefine, hrun⟩
  · rw [hrun]
    rcases Loader.define_cases s.loader a with
      ⟨hdefined, hsame⟩ | ⟨-, ⟨-, hfailed⟩ | ⟨loaded, -, hdone⟩⟩
    · cases hdefine.symm.trans hsame
      refine ⟨⟨keeping.standing.loader rfl, keeping.grown, keeping.paths⟩, fun e he hwritten => ?_⟩
      -- a module with this text has this path, and there is none
      rw [hname] at hdefined
      obtain ⟨m', hm', htext⟩ := (keeping.standing.isDefined_iff _).1 hdefined
      have hsamePath := (keeping.paths hwritten m' hm').eq_of_text (hm hwritten) htext
      have hmem : m.origin.logical ∈ s.modules.map (·.origin.logical) :=
        mem_map.2 ⟨m', hm', hsamePath⟩
      exact absurd hmem (module?_eq_none fresh)
    · cases hdefine.symm.trans hfailed
      refine ⟨⟨keeping.standing.loader rfl, keeping.grown, keeping.paths⟩, fun e he _ name heq => ?_⟩
      cases he
      cases heq
    · cases hdefine.symm.trans hdone
  · rw [hrun]
    refine ⟨?_, fun _ h => nomatch h⟩
    rcases Loader.define_cases s.loader a with
      ⟨-, hsame⟩ | ⟨-, ⟨-, hfailed⟩ | ⟨loaded, hlink, hdone⟩⟩
    · cases hdefine.symm.trans hsame
    · cases hdefine.symm.trans hfailed
    cases hdefine.symm.trans hdone
    refine ⟨keeping.standing.extended hpath fresh typed generated hlink,
      keeping.grown.trans (prefix_append _ _), fun hwritten => ?_⟩
    refine forall_mem_append.2 ⟨keeping.paths hwritten, ?_⟩
    exact forall_mem_singleton.2 (hm hwritten)

theorem keeps_compileAll {modules : List ResolvedModule}
    (hmodules : written → ∀ m ∈ modules, m.origin.logical.Written) (ids : List ClassId) :
    Keeps (Keeping before written) (NoDuplicate written) (compileAll ids modules) := by
  induction modules generalizing ids with
  | nil => exact .pure _
  | cons m rest ih =>
    have hfirst := fun hwritten => (forall_mem_cons.1 (hmodules hwritten)).1
    have hrest := fun hwritten => (forall_mem_cons.1 (hmodules hwritten)).2
    exact .bind (keeps_compileModule ids hfirst) fun id => ih hrest _

theorem keeps_compile (sources : Sources) {logical : ModulePath}
    (hlogical : written → logical.Written) :
    Keeps (Keeping before written) (NoDuplicate written) (compile sources logical) := by
  unfold compile
  rcases Resolve.linearize_cases sources logical with
    ⟨failure, hfailure, hsearch⟩ | ⟨modules, hmodules, -⟩
  · rw [hfailure]
    exact .throw (noDuplicate_of_isOfSearch hsearch)
  rw [hmodules]
  have hwritten := fun hwritten => Resolve.linearize_written (hlogical hwritten) hmodules
  refine .bind (keeps_compileAll hwritten []) fun _ => .get_bind fun s _ => ?_
  split
  · exact .pure _
  · refine .throw ?_
    rintro - name ⟨⟩

/-- A request of the loader that defines no class changes nothing that is kept. -/
theorem keeps_load {x : Loading α} (h : Loader.Uses x) :
    Keeps (Keeping before written) (fun _ => True) (load x) := by
  intro s keeping
  have hclasses := (h s.loader).classes
  rw [run_load]
  exact ⟨⟨keeping.standing.loader hclasses, keeping.grown, keeping.paths⟩, fun _ _ => trivial⟩

/-- **One request** keeps all in step, and compiling finds no class twice. -/
theorem Keeping.step {s : Session} (keeping : Keeping before written s) (step : Step)
    (hstep : written → ∀ sources path, step = .compile sources path → path.Written) :
    Keeping before written (step.run.run s).2 ∧
      ∀ sources path, step = .compile sources path → ∀ e, (step.run.run s).1 = .error e →
        NoDuplicate written e := by
  cases step with
  | compile sources logical =>
    obtain ⟨hkeeping, hnone⟩ :=
      keeps_compile sources (fun hwritten => hstep hwritten sources logical rfl) s keeping
    rw [Step.run, run_map]
    refine ⟨hkeeping, ?_⟩
    rintro - - - e he
    generalize (compile sources logical).run s = ended at hnone he
    obtain ⟨outcome, s'⟩ := ended
    cases outcome with
    | ok m => cases he
    | error e' => exact hnone e (congrArg _ (Except.error.inj he))
  | newObject logical fields =>
    rw [Step.run, run_map]
    refine ⟨((keeps_load (Loader.uses_newObject logical.text fields)) s keeping).1, ?_⟩
    intro _ _ h
    cases h
  | field object name =>
    rw [Step.run, run_map]
    refine ⟨((keeps_load (Loader.uses_field object name)) s keeping).1, ?_⟩
    intro _ _ h
    cases h
  | invoke logical method args =>
    rw [Step.run, run_map]
    refine ⟨((keeps_load (Loader.uses_invoke logical.text method args)) s keeping).1, ?_⟩
    intro _ _ h
    cases h

end Keeping

/-! ## Sessions from their start -/

/-- The session that these requests lead to. -/
def runAll (s : Session) (steps : List Step) : Session :=
  steps.foldl (fun s step => (step.run.run s).2) s

/-- All requests to compile name their modules by written paths. -/
def AllWritten (steps : List Step) : Prop :=
  ∀ step ∈ steps, ∀ sources path, step = .compile sources path → path.Written

theorem Keeping.runAll {before : List CompiledModule} {written : Prop} {s : Session}
    (keeping : Keeping before written s) (steps : List Step) (hsteps : written → AllWritten steps) :
    Keeping before written (s.runAll steps) := by
  induction steps generalizing s with
  | nil => exact keeping
  | cons step steps ih =>
    have hfirst := fun hwritten => (forall_mem_cons.1 (hsteps hwritten)).1
    have hrest := fun hwritten => (forall_mem_cons.1 (hsteps hwritten)).2
    exact ih (keeping.step step hfirst).1 hrest

section Standing

variable {s : Session}

/-- The module with a path is found, as there is only one. -/
theorem Standing.module?_eq_some_iff (standing : s.Standing) (path : ModulePath)
    (m : CompiledModule) :
    s.module? path = some m ↔
      ∃ i : Nat, s.modules[i]? = some m ∧ m.origin.logical = path := by
  constructor
  · intro h
    obtain ⟨i, hi⟩ := mem_iff_getElem?.1 (mem_of_find?_eq_some h)
    have hfound := find?_some h
    exact ⟨i, hi, of_decide_eq_true hfound⟩
  · rintro ⟨i, hi, rfl⟩
    have hmem := mem_of_getElem? hi
    have hsome : (s.module? m.origin.logical).isSome = true :=
      find?_isSome.2 ⟨m, hmem, decide_eq_true rfl⟩
    obtain ⟨m', hm'⟩ := Option.isSome_iff_exists.1 hsome
    have hfound := find?_some hm'
    rw [hm', inj_on_of_nodup_map standing.paths (mem_of_find?_eq_some hm') hmem
      (of_decide_eq_true hfound)]

/-- An item that knows its position is found there. -/
theorem find?_eq_getElem? {f : α → Nat} {xs : List α}
    (h : ∀ (j : Nat) (x : α), xs[j]? = some x → f x = j) (i : Nat) :
    xs.find? (f · = i) = xs[i]? := by
  cases hx : xs[i]? with
  | none =>
    refine find?_eq_none.2 fun x hmem hfound => ?_
    obtain ⟨j, hj⟩ := mem_iff_getElem?.1 hmem
    obtain rfl := (h j x hj).symm.trans (of_decide_eq_true hfound)
    cases hj.symm.trans hx
  | some x =>
    have hsome : (xs.find? (f · = i)).isSome = true :=
      find?_isSome.2 ⟨x, mem_of_getElem? hx, decide_eq_true (h i x hx)⟩
    obtain ⟨y, hy⟩ := Option.isSome_iff_exists.1 hsome
    obtain ⟨j, hj⟩ := mem_iff_getElem?.1 (mem_of_find?_eq_some hy)
    have hfound := find?_some hy
    obtain rfl := (h j y hj).symm.trans (of_decide_eq_true hfound)
    rw [hy, ← hj, hx]

theorem Standing.moduleOf?_eq (standing : s.Standing) (i : Nat) :
    s.loader.moduleOf? i = s.modules[i]?.map (·.origin.logical.text) := by
  have hid : ∀ (j : Nat) (loaded : Loaded), s.loader.classes[j]? = some loaded →
      loaded.artifact.id = j := by
    intro j loaded hloaded
    have hartifact := congrArg (·[j]?) standing.loaded
    simp only [getElem?_map, hloaded, Option.map_some] at hartifact
    obtain ⟨m, hm, heq⟩ := Option.map_eq_some_iff.1 hartifact.symm
    obtain ⟨c, -, hc, compiled⟩ := standing.get_module hm
    rw [← heq, compiled.artifactId, hc]
  rw [Loader.moduleOf?, find?_eq_getElem? hid, ← getElem?_map, ← getElem?_map,
    standing.moduleNames]

end Standing

/-- A module that imports another, with this body of its method. -/
def pairFiles (body : String) : Files :=
  ⟨[(⟨["App.nz"]⟩, .text ("import\n\t.Base\nfun Int twice()\n\t" ++ body ++ "\n")),
    (⟨["Base.nz"]⟩, .text "fun Int one()\n\t1\n")]⟩

/-- A request for the module with the imports. -/
def pairCompile (body : String) : Step :=
  .compile (pairFiles body).sources (.parse "App")

end Session

end ClassLang
