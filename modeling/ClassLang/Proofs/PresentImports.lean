import ClassLang.Proofs.SessionConsistency

/-!
# What a class imports is there

A class is checked and generated with the positions that classes and methods have in a table, and is
linked by names, among all that the host and the classes before it have defined. Whenever a session
comes to define a class, each name that it imports leads to the method whose position was recorded,
with the very type of the import. So a definition fails only for a class that is there already or is
beyond the limits of the machine, or where a method has taken the name of the memory.

`Session.definitions` lists the definitions that a request to compile comes to. One request is
`Session.Fits.present_compile`, and the main statement is `Session.imports_present`.
-/

set_option autoImplicit false

namespace ClassLang

open List
open Code (Artifact ForeignImport ImportPlan)
open Code.Binary (hostModule memoryName textsName)
open Machine (Linkable Loaded Loader Loading)
open Resolve (ResolvedModule)
open Typed (ClassTable MethodRef)

namespace Machine.Loader

/-! ## Methods and their names -/

/-- The name of an import leads to the recorded method, and the class at its position has it under
that name and with the type of the import. -/
structure Provides (l : Loader) (ref : MethodRef) (f : ForeignImport) : Prop where
  named : l.lookup? (f.moduleName, f.name) = some (.func (.method ref.owner ref.index) f.type)
  exported : ∃ (loaded : Loaded) (code : Code.MethodCode), l.classes[ref.owner]? = some loaded ∧
    loaded.artifact.id = ref.owner ∧ loaded.artifact.moduleName = f.moduleName ∧
    loaded.artifact.methods[ref.index]? = some code ∧ code.name = f.name ∧ code.type = f.type

variable {l : Loader} {table : ClassTable} {a : Artifact}

/-- A loader provides the methods of the classes of its table. -/
theorem Loads.provides (loads : l.Loads table) {ref : MethodRef} {d : Typed.Class}
    {m : Typed.Method} (hd : table.get? ref.owner = some d) (hm : d.methods[ref.index]? = some m) :
    l.Provides ref ⟨d.path.text, m.name, Code.methodType m⟩ where
  named := loads.leads.method ref.owner d ref.index m hd hm
  exported := by
    obtain ⟨loaded, hloaded, linked⟩ := loads.linked ref.owner d hd
    obtain ⟨small, source, -, -, -, generated⟩ := linked.generated
    obtain ⟨code, hcode, hname, htype⟩ := Code.methodCode_of_method generated hm
    refine ⟨loaded, code, hloaded, ?_, ?_, hcode, hname, htype⟩
    · rw [linked.artifact_eq]
    · rw [linked.artifact_eq]

/-- The texts of a class that is there have a name. -/
theorem Loads.texts_of_isDefined (loads : l.Loads table) {moduleName : String}
    (h : l.isDefined moduleName = true) :
    ∃ base, l.lookup? (moduleName, textsName) = some (.texts base) := by
  rw [isDefined, class?, find?_isSome] at h
  obtain ⟨loaded, hmem, hmodule⟩ := h
  obtain ⟨index, hindex⟩ := mem_iff_getElem?.1 hmem
  obtain ⟨c, hc, linked⟩ := loads.class_of_loaded hindex
  have hname : c.path.text = moduleName := by
    rw [← of_decide_eq_true hmodule, linked.artifact_eq]
  rw [← hname]
  exact loads.leads.texts index c hc

/-- The name of the memory leads to it, unless a class has taken it for a method. -/
theorem Loads.memory_iff (loads : l.Loads table) :
    l.lookup? (hostModule, memoryName) = some .memory ↔ ¬ l.TakesMemory := by
  refine ⟨?_, loads.memory⟩
  rintro hmemory ⟨loaded, hmem, hmodule, hname⟩
  obtain ⟨id, hid⟩ := mem_iff_getElem?.1 hmem
  obtain ⟨c, hc, linked⟩ := loads.class_of_loaded hid
  obtain ⟨small, source, -, -, -, generated⟩ := linked.generated
  rw [Code.methodNames_eq generated] at hname
  obtain ⟨m, hm, hm'⟩ := mem_map.1 hname
  obtain ⟨index, hindex⟩ := mem_iff_getElem?.1 hm
  have hpath : c.path.text = hostModule := by rw [← hmodule, linked.artifact_eq]
  -- the name leads to the method, and so not to the memory
  have hlookup := loads.leads.method id c index m hc hindex
  rw [hm', hpath] at hlookup
  cases hmemory.symm.trans hlookup

/-- A class whose imports are there can be linked, if it is within the limits and the memory has its
name. -/
theorem link?_isSome_iff
    (host : ∀ b ∈ a.hostImports, (l.func? (hostModule, b.fullName) (Code.builtinType b)).isSome)
    (foreign : ∀ f ∈ a.foreignImports, (l.func? (f.moduleName, f.name) f.type).isSome)
    (texts : ∃ base, l.lookup? (a.moduleName, textsName) = some (.texts base)) :
    (l.link? a).isSome ↔
      a.withinLimits = true ∧ l.lookup? (hostModule, memoryName) = some .memory := by
  obtain ⟨base, hbase⟩ := texts
  obtain ⟨hosts, hhosts⟩ := Option.isSome_iff_exists.1 (Option.mapM_succeeds host)
  obtain ⟨foreigns, hforeigns⟩ := Option.isSome_iff_exists.1 (Option.mapM_succeeds foreign)
  unfold link?
  rw [hbase, hhosts, hforeigns, Option.isSome_guard_bind, Option.isSome_guard_bind]
  exact and_congr_right' (and_iff_left rfl)

theorem func?_of_lookup? {name : LinkName} {ref : FuncRef} {type : Code.FuncType}
    (h : l.lookup? name = some (.func ref type)) : (l.func? name type).isSome = true := by
  rw [func?, h]
  dsimp only
  rw [if_pos rfl]
  rfl

/-- A definition succeeds when the class is new and can be linked. -/
theorem define_eq_ok_iff : ((define a).run l).1 = .ok () ↔
    l.isDefined a.moduleName = false ∧ ((l.named a).link? a).isSome = true := by
  rcases define_cases l a with ⟨hdefined, hrun⟩ | ⟨hfresh, ⟨hlink, hrun⟩ | ⟨loaded, hlink, hrun⟩⟩
  · simp [hrun, hdefined]
  · simp [hrun, hlink]
  · simp [hrun, hfresh, hlink]

end Machine.Loader

namespace Session

/-! ## Definitions -/

namespace Definition

/-- The loader that the definition leaves, whether it succeeds or fails. -/
def after (d : Definition) : Loader := ((Loader.define d.artifact).run d.loader).2

/-- The loader with which the class is linked. It has a name for the texts of the class, unless the
class is refused because it is there already. -/
def linker (d : Definition) : Loader :=
  if d.loader.isDefined d.artifact.moduleName then d.loader else d.loader.named d.artifact

/-- All that the class imports is there, and the definition fails for other reasons only. -/
structure Present (d : Definition) : Prop where
  functions : Forall₂ d.linker.Provides (ImportPlan.ofClass d.declared).foreign
    d.artifact.foreignImports
  host : ∀ b ∈ d.artifact.hostImports, d.linker.lookup? (hostModule, b.fullName) =
    some (.func (.host b) (Code.builtinType b))
  texts : ∃ base, d.linker.lookup? (d.artifact.moduleName, textsName) = some (.texts base)
  succeeds : ((Loader.define d.artifact).run d.loader).1 = .ok () ↔
    d.loader.isDefined d.artifact.moduleName = false ∧ d.artifact.withinLimits = true ∧
      ¬ d.loader.TakesMemory

end Definition

section Present

variable {l : Loader} {table : ClassTable} {c : Typed.Class} {a : Artifact}

theorem linker_of_fresh (h : l.isDefined a.moduleName = false) :
    Definition.linker ⟨l, c, a⟩ = l.named a := by
  rw [Definition.linker, h]
  rfl

theorem linker_of_defined (h : l.isDefined a.moduleName = true) :
    Definition.linker ⟨l, c, a⟩ = l := by
  rw [Definition.linker, h]
  rfl

/-- The linker has the classes that the loader has, and the name of the new texts. -/
theorem loads_linker (loads : l.Loads table) : (Definition.linker ⟨l, c, a⟩).Loads table ∧
    ∃ base, (Definition.linker ⟨l, c, a⟩).lookup? (a.moduleName, textsName) =
      some (.texts base) := by
  cases hdefined : l.isDefined a.moduleName with
  | true =>
    rw [linker_of_defined hdefined]
    exact ⟨loads, loads.texts_of_isDefined hdefined⟩
  | false =>
    rw [linker_of_fresh hdefined]
    exact ⟨loads.named hdefined, _, lookup_cons_self⟩

/-- A class that was checked and generated with the classes of a loader finds what it imports. -/
theorem present_of_loads (loads : l.Loads table) (typed : (table.push c).Typed) {source : String}
    (generated : Code.generateClass (table.push c) c source = .ok a) :
    Definition.Present ⟨l, c, a⟩ := by
  obtain ⟨loads', htexts⟩ := loads_linker (c := c) (a := a) loads
  have ha := (Code.generateClass_eq_ok generated).2
  have hfunctions : Forall₂ (Definition.linker ⟨l, c, a⟩).Provides
      (ImportPlan.ofClass c).foreign a.foreignImports := by
    rw [congrArg Artifact.foreignImports ha, forall₂_map_right_iff, forall₂_same]
    intro ref href
    obtain ⟨d, m, hd, hm, himport⟩ := Code.foreignImport_of_plan typed href
    rw [himport]
    exact loads'.provides hd hm
  have hhost : ∀ b ∈ a.hostImports, (Definition.linker ⟨l, c, a⟩).lookup? (hostModule, b.fullName) =
      some (.func (.host b) (Code.builtinType b)) := by
    rw [congrArg Artifact.hostImports ha]
    intro b hb
    exact loads'.leads.host b (Code.mem_plan_host.1 hb).2
  refine ⟨hfunctions, hhost, htexts, ?_⟩
  change ((Loader.define a).run l).1 = .ok () ↔ l.isDefined a.moduleName = false ∧ _
  rw [Loader.define_eq_ok_iff]
  refine and_congr_right fun hfresh => ?_
  -- the class is linked with the name for its texts, which takes no other name
  rw [linker_of_fresh hfresh] at hfunctions hhost htexts loads'
  have hforeign : ∀ f ∈ a.foreignImports,
      ((l.named a).func? (f.moduleName, f.name) f.type).isSome = true := by
    intro f hf
    obtain ⟨i, hi⟩ := mem_iff_getElem?.1 hf
    obtain ⟨ref, -, provides⟩ := forall₂_getElem?_right hfunctions hi
    exact Loader.func?_of_lookup? provides.named
  rw [Loader.link?_isSome_iff (fun b hb => Loader.func?_of_lookup? (hhost b hb)) hforeign htexts,
    loads'.memory_iff]
  rfl

end Present

/-! ## The definitions of a request -/

/-- The definitions that compiling modules comes to, in order; `ids` are the classes of those
before. -/
def definitionsAll (ids : List ClassId) (s : Session) : List ResolvedModule → List Definition
  | [] => []
  | m :: rest =>
    (definition? ids m s).toList ++
      match (compileModule ids m).run s with
      | (.ok id, s') => definitionsAll (ids ++ [id]) s' rest
      | (.error _, _) => []

/-- The definitions that a request to compile comes to, in order. -/
def definitions (s : Session) (sources : Sources) (logical : ModulePath) : List Definition :=
  match (Resolve.linearize sources logical).1 with
  | .ok modules => definitionsAll [] s modules
  | .error _ => []

/-- A loader comes from another by definitions, one after the other. -/
inductive Follows : Loader → List Definition → Loader → Prop where
  | nil (l : Loader) : Follows l [] l
  | cons {d : Definition} {ds : List Definition} {l : Loader} (rest : Follows d.after ds l) :
      Follows d.loader (d :: ds) l

theorem Follows.append {l l' l'' : Loader} {ds ds' : List Definition} (first : Follows l ds l')
    (second : Follows l' ds' l'') : Follows l (ds ++ ds') l'' := by
  induction first with
  | nil l => exact second
  | cons _ ih => exact .cons (ih second)

/-! ## Sessions -/

section Sessions

variable {s : Session}

/-- Compiling a module does to the loader what its definition does, which finds all that it
imports. -/
theorem Fits.present_compileModule (fits : Fits [] s) (ids : List ClassId) (m : ResolvedModule) :
    Follows s.loader (definition? ids m s).toList ((compileModule ids m).run s).2.loader ∧
      ∀ d ∈ (definition? ids m s).toList, d.Present := by
  rcases compileModule_cases ids m fits.loads.typed with
    ⟨hnone, ⟨compiled, -, hrun⟩ | ⟨e, hrun, -⟩⟩ |
      ⟨-, c, a, hsome, -, -, -, typed, generated, hdefine⟩
  · rw [hnone, hrun]
    exact ⟨.nil _, fun _ h => nomatch h⟩
  · rw [hnone, hrun]
    exact ⟨.nil _, fun _ h => nomatch h⟩
  have hafter : ((compileModule ids m).run s).2.loader = Definition.after ⟨s.loader, c, a⟩ := by
    rw [Definition.after]
    rcases hdefine with ⟨e, l, hdefine, hrun⟩ | ⟨l, hdefine, hrun⟩ <;> rw [hrun, hdefine]
  rw [hsome, hafter]
  refine ⟨.cons (d := ⟨s.loader, c, a⟩) (.nil _), forall_mem_singleton.2 ?_⟩
  exact present_of_loads fits.loads typed generated

theorem Fits.present_compileAll (fits : Fits [] s) {modules : List ResolvedModule}
    (plain : ∀ m ∈ modules, ∀ method ∈ m.tree.classDecl.methods, Plain method.name)
    (ids : List ClassId) :
    Follows s.loader (definitionsAll ids s modules) ((compileAll ids modules).run s).2.loader ∧
      ∀ d ∈ definitionsAll ids s modules, d.Present := by
  induction modules generalizing ids s with
  | nil => exact ⟨.nil _, fun d hd => nomatch hd⟩
  | cons m rest ih =>
    obtain ⟨hfirst, hrest⟩ := forall_mem_cons.1 plain
    obtain ⟨follows, present⟩ := fits.present_compileModule ids m
    have hafter := (compiles_compileModule ids hfirst s fits).1
    rw [definitionsAll, compileAll, run_bind]
    generalize (compileModule ids m).run s = ended at follows hafter ⊢
    -- a module that fails ends the request, and the definitions with it
    rcases ended with ⟨e | id, s'⟩
    · rw [append_nil]
      exact ⟨follows, present⟩
    · obtain ⟨follows', present'⟩ := ih hafter hrest (ids ++ [id])
      exact ⟨follows.append follows', forall_mem_append.2 ⟨present, present'⟩⟩

/-- **One request to compile** does to the loader what its definitions do, and each of them finds all
that it imports. -/
theorem Fits.present_compile (fits : Fits [] s) (sources : Sources) (logical : ModulePath) :
    Follows s.loader (s.definitions sources logical) ((compile sources logical).run s).2.loader ∧
      ∀ d ∈ s.definitions sources logical, d.Present := by
  unfold definitions compile
  rcases Resolve.linearize_cases sources logical with
    ⟨failure, hfailure, -⟩ | ⟨modules, hmodules, plain⟩
  · rw [hfailure]
    exact ⟨.nil _, fun d hd => nomatch hd⟩
  rw [hmodules]
  obtain ⟨follows, present⟩ := fits.present_compileAll plain []
  refine ⟨?_, present⟩
  -- what comes behind the modules only looks the root up
  dsimp only
  rw [run_bind]
  generalize (compileAll [] modules).run s = ended at follows ⊢
  rcases ended with ⟨e | _, s'⟩
  · exact follows
  · dsimp only
    rw [run_get_bind]
    split <;> exact follows

/-- A request keeps the classes loaded, whatever values it passes in. -/
theorem Fits.step (fits : Fits [] s) (step : Step) : Fits [] (step.run.run s).2 := by
  cases step with
  | compile sources logical =>
    rw [Step.run, run_map]
    exact (compiles_compile sources logical s fits).1
  | newObject logical fields =>
    rw [Step.run, run_map]
    exact Loader.Fits.used fits (Loader.uses_newObject logical.text fields s.loader)
  | field object name =>
    rw [Step.run, run_map]
    exact Loader.Fits.used fits (Loader.uses_field object name s.loader)
  | invoke logical method args =>
    rw [Step.run, run_map]
    exact Loader.Fits.used fits (Loader.uses_invoke logical.text method args s.loader)

theorem Fits.runAll (fits : Fits [] s) (steps : List Step) : Fits [] (s.runAll steps) := by
  induction steps generalizing s with
  | nil => exact fits
  | cons step steps ih => exact ih (fits.step step)

end Sessions

/-- **What a class imports is there when it is defined.** Take any session, with any requests before,
and let it compile a module. Its loader changes by definitions only. For each of them, the names
under which the class imports methods lead to the methods that were recorded for it, in the classes
that export them, with the very types of the imports, and its texts have their name. So the
definition succeeds, unless the class is there already or beyond the limits of the machine, or a
method has taken the name of the memory. -/
theorem imports_present (steps : List Step) (sources : Sources) (logical : ModulePath) :
    Follows (initial.runAll steps).loader ((initial.runAll steps).definitions sources logical)
        ((compile sources logical).run (initial.runAll steps)).2.loader ∧
      ∀ d ∈ (initial.runAll steps).definitions sources logical, d.Present := by
  have fits := fits_initial.runAll steps
  exact fits.present_compile sources logical

/-- In the example, after a request that failed, the second module is defined and finds the method of
the first. -/
theorem imports_present_pair : ∃ d ∈ (initial.runAll [pairCompile "Base.one + Base.two"]).definitions
      (pairFiles "Base.one + Base.one").sources (.parse "App"),
    d.artifact.foreignImports.map (fun f => (f.moduleName, f.name)) = [("Base", "one")] ∧
      d.Present := by
  have himports : ((initial.runAll [pairCompile "Base.one + Base.two"]).definitions
      (pairFiles "Base.one + Base.one").sources (.parse "App")).map
        (fun d => d.artifact.foreignImports.map fun f => (f.moduleName, f.name)) =
      [[("Base", "one")]] := by decide +kernel
  obtain ⟨d, hd, hnames⟩ := mem_map.1 (himports ▸ mem_singleton_self _)
  exact ⟨d, hd, hnames, (imports_present _ _ _).2 d hd⟩

end Session

end ClassLang
