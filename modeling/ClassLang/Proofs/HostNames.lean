import ClassLang.Proofs.FailedRequests

/-!
# The names of the host

Classes are linked by names, and a class that is defined later hides the names of those before. The
methods that the host provides have a dot in their name, which no method of a module has, so nothing
hides them. The memory has no dot in its name: the module `nz` takes it away by a method `memory`,
and no class can be linked after that.

`Artifact.Produced` says which artifacts there can be, and `Loader.Named` what the names of a loader
lead to, after any calls (`Loader.Named.after`). The main statement is `host_names_kept`, and
`memory_name_lost` is the example with a module `nz`.
-/

set_option autoImplicit false

namespace ClassLang

open List
open Code (Artifact FuncType MethodCode)
open Code.Binary (hostModule memoryName textsName)
open Typed (ClassTable)

/-! ## Artifacts of modules -/

/-- The artifact of a module that was parsed, and checked with whatever classes are in a table. -/
inductive Code.Artifact.Produced : Artifact → Prop where
  | generated {table table' : ClassTable} {path : ModulePath} {source name : String}
      {tree : Tree.Module} {imports : List (Span × ClassId)} {c : Typed.Class} {a : Artifact}
      (reached : table.Reached) (parsed : Tree.parse source name = .ok tree)
      (checked : Typed.checkModule table path tree imports = .ok table')
      (added : table'.get? table.size = some c)
      (generated : Code.generateClass table' c source = .ok a) : Produced a

/-- The methods of a produced artifact have different names, which are words. -/
theorem Code.Artifact.Produced.names {a : Artifact} (produced : a.Produced) :
    (a.methods.map MethodCode.name).Nodup ∧ ∀ name ∈ a.methods.map MethodCode.name, Plain name := by
  cases produced with
  | @generated table table' path source name tree imports c a reached parsed checked added
      generated =>
      obtain ⟨c', rfl, -, -, hnames, typed⟩ := Typed.checkModule_typed reached.typed checked
      obtain rfl : c' = c := Option.some.inj (ClassTable.get?_push_size.symm.trans added)
      rw [Code.methodNames_eq generated]
      refine ⟨(typed _ _ added).names, ?_⟩
      rw [hnames]
      exact forall_mem_map.2 (Tree.plain_of_parse parsed)

namespace Machine.Loader

/-! ## What can be found -/

/-- A function of a type has a name: the host provides it, or a class has it as a method. -/
inductive Offers (l : Loader) : LinkName → FuncType → Prop where
  | host (b : Builtin) (provided : b.isInline = false) :
      Offers l (hostModule, b.fullName) (Code.builtinType b)
  | method {loaded : Loaded} {m : MethodCode} (there : loaded ∈ l.classes)
      (has : m ∈ loaded.artifact.methods) : Offers l (loaded.artifact.moduleName, m.name) m.type

/-- The names of a loader lead to what the host provides and to the methods of all its classes, and
to no other functions; the name of the memory leads to it unless a class has taken it. -/
structure Named (l : Loader) : Prop where
  host : ∀ b : Builtin, b.isInline = false →
    l.lookup? (hostModule, b.fullName) = some (.func (.host b) (Code.builtinType b))
  method : ∀ loaded ∈ l.classes, ∀ m ∈ loaded.artifact.methods,
    ∃ ref, l.lookup? (loaded.artifact.moduleName, m.name) = some (.func ref m.type)
  offered : ∀ name ref type, l.lookup? name = some (.func ref type) → l.Offers name type
  memory : ¬ l.TakesMemory → l.lookup? (hostModule, memoryName) = some .memory

section Offers

variable {l l' : Loader} {a : Artifact} {name : LinkName} {type : FuncType}

theorem Offers.mono (offers : l.Offers name type) (h : ∀ loaded ∈ l.classes, ∃ loaded' ∈ l'.classes,
    loaded'.artifact = loaded.artifact) : l'.Offers name type := by
  cases offers with
  | host b provided => exact .host b provided
  | @method loaded m there has =>
    obtain ⟨loaded', there', hsame⟩ := h loaded there
    rw [← hsame] at has ⊢
    exact .method there' has

/-- What is offered is what can be found. -/
theorem Named.func?_isSome_iff (named : l.Named) :
    (l.func? name type).isSome = true ↔ l.Offers name type := by
  constructor
  · intro h
    rw [func?] at h
    split at h
    · next ref found hlookup =>
      split at h
      · next hfound =>
        rw [← hfound]
        exact named.offered name ref found hlookup
      · cases h
    · cases h
  · intro offers
    cases offers with
    | host b provided => exact func?_of_lookup? (named.host b provided)
    | @method loaded m there has =>
      obtain ⟨ref, hlookup⟩ := named.method loaded there m has
      exact func?_of_lookup? hlookup

/-- The memory has its name exactly if no class has taken it. -/
theorem Named.memory_iff (named : l.Named) :
    l.lookup? (hostModule, memoryName) = some .memory ↔ ¬ l.TakesMemory := by
  refine ⟨?_, named.memory⟩
  rintro hmemory ⟨loaded, there, hmodule, hname⟩
  obtain ⟨m, has, hm⟩ := mem_map.1 hname
  obtain ⟨ref, hlookup⟩ := named.method loaded there m has
  rw [hmodule, hm] at hlookup
  cases hmemory.symm.trans hlookup

end Offers

/-! ## What definitions keep -/

section Keeps

variable {l l' : Loader} {a : Artifact} {loaded : Loaded}

theorem named_initial : initial.Named where
  host := leadsTo_hostNames.host
  method _ there := nomatch there
  offered name ref type h := by
    obtain ⟨before, behind, hnames, -⟩ := lookup_eq_some_iff.1 h
    have hmem : (name, Linkable.func ref type) ∈ hostNames := by
      rw [show hostNames = _ from hnames]
      exact mem_append_right _ mem_cons_self
    rcases mem_cons.1 hmem with heq | hmem
    · -- the first name is that of the memory
      cases (Prod.mk.inj heq).2
    obtain ⟨b, -, hb⟩ := mem_filterMap.1 hmem
    obtain ⟨hostName, hname, heq⟩ := Option.map_eq_some_iff.1 hb
    rw [Builtin.hostName?] at hname
    split at hname
    · cases hname
    · next provided =>
      cases hname
      cases heq
      exact .host b (eq_false_of_ne_true provided)
  memory _ := rfl

theorem Named.used (named : l.Named) (used : Used l l') : l'.Named := by
  obtain ⟨classes, names, memory, texts⟩ := l
  obtain ⟨classes', names', memory', texts'⟩ := l'
  obtain rfl : classes' = classes := used.classes
  obtain rfl : names' = names := used.names
  refine ⟨named.host, named.method, fun name ref type h => ?_, named.memory⟩
  exact (named.offered name ref type h).mono fun loaded there => ⟨loaded, there, rfl⟩

/-- A class that is there has another name than a module that is not defined. -/
theorem moduleName_ne (fresh : l.isDefined a.moduleName = false) (there : loaded ∈ l.classes) :
    loaded.artifact.moduleName ≠ a.moduleName := by
  intro heq
  obtain ⟨index, hindex⟩ := mem_iff_getElem?.1 there
  have hdefined := isSome_class? hindex
  rw [heq, fresh] at hdefined
  cases hdefined

/-- Names of a module without a class, none of them with a dot, hide neither what the host provides
nor a method. -/
theorem Named.behind (named : l.Named) (fresh : l.isDefined a.moduleName = false)
    {front : List (LinkName × Linkable)}
    (hfront : ∀ entry ∈ front, entry.1.1 = a.moduleName ∧ Undotted entry.1.2) :
    (∀ b : Builtin, b.isInline = false → (front ++ l.names).lookup (hostModule, b.fullName) =
        some (.func (.host b) (Code.builtinType b))) ∧
      ∀ loaded ∈ l.classes, ∀ m ∈ loaded.artifact.methods, ∃ ref,
        (front ++ l.names).lookup (loaded.artifact.moduleName, m.name) =
          some (.func ref m.type) := by
  constructor
  · intro b provided
    rw [lookup_behind]
    · exact named.host b provided
    · -- what the host provides has a dot in its name
      intro entry hentry heq
      refine (hfront entry hentry).2 ?_
      rw [heq]
      exact dot_mem_fullName b
  · intro loaded there m has
    rw [lookup_behind]
    · exact named.method loaded there m has
    · -- a method has the name of its own module, which is another one
      intro entry hentry heq
      refine moduleName_ne fresh there ?_
      rw [← (hfront entry hentry).1, heq]

theorem Named.named (named : l.Named) (fresh : l.isDefined a.moduleName = false) :
    (l.named a).Named := by
  have hfront : ∀ entry ∈ [((a.moduleName, textsName), Linkable.texts (UInt32.ofNat l.texts.size))],
      entry.1.1 = a.moduleName ∧ Undotted entry.1.2 :=
    forall_mem_singleton.2 ⟨rfl, undotted_textsName⟩
  obtain ⟨hhost, hmethod⟩ := named.behind fresh hfront
  refine ⟨hhost, hmethod, ?_, ?_⟩
  · intro name ref type h
    rw [lookup?, Loader.named, lookup_cons] at h
    split at h
    · cases h
    · exact (named.offered name ref type h).mono fun loaded there => ⟨loaded, there, rfl⟩
  · intro free
    rw [lookup?_memory_named]
    exact named.memory free

/-- A class that is linked is found by its names. -/
theorem Named.extended (named : l.Named) (fresh : l.isDefined a.moduleName = false)
    (produced : a.Produced) (hlink : (l.named a).link? a = some loaded) :
    (l.extended a loaded).Named := by
  obtain ⟨once, plain⟩ := produced.names
  have hartifact := artifact_of_link? hlink
  have named' := named.named fresh
  have hfront : ∀ entry ∈ methodNames l.classes.length a,
      entry.1.1 = a.moduleName ∧ Undotted entry.1.2 := by
    intro entry hentry
    obtain ⟨hfst, hname⟩ := fst_methodNames hentry
    exact ⟨hfst, undotted_of_plain (plain _ hname)⟩
  obtain ⟨hhost, hmethod⟩ := named'.behind fresh hfront
  have hgrown : ∀ old ∈ (l.named a).classes, ∃ same ∈ (l.extended a loaded).classes,
      same.artifact = old.artifact :=
    fun old there => ⟨old, mem_append_left _ there, rfl⟩
  refine ⟨hhost, ?_, ?_, ?_⟩
  · intro other there m has
    rcases mem_append.1 there with hold | hnew
    · exact hmethod other hold m has
    obtain rfl := mem_singleton.1 hnew
    rw [hartifact] at has ⊢
    obtain ⟨index, hindex⟩ := mem_iff_getElem?.1 has
    refine ⟨.method l.classes.length index, ?_⟩
    rw [lookup?, Loader.extended, lookup_append,
      lookup_methodNames once l.classes.length hindex, Option.some_or]
  · intro name ref type h
    rw [lookup?, Loader.extended, lookup_append] at h
    cases hlookup : (methodNames l.classes.length a).lookup name with
    | none =>
      rw [hlookup, Option.none_or] at h
      exact (named'.offered name ref type h).mono hgrown
    | some linkable =>
      -- the name is one of the new class
      rw [hlookup, Option.some_or] at h
      cases h
      obtain ⟨before, behind, hentries, -⟩ := lookup_eq_some_iff.1 hlookup
      have hmem : (name, Linkable.func ref type) ∈ methodNames l.classes.length a := by
        rw [hentries]
        exact mem_append_right _ mem_cons_self
      obtain ⟨⟨m, index⟩, hm, heq⟩ := mem_map.1 hmem
      cases heq
      have has : m ∈ loaded.artifact.methods := by
        rw [hartifact]
        exact fst_mem_of_mem_zipIdx hm
      rw [← hartifact]
      exact .method (mem_append_right _ mem_cons_self) has
  · intro free
    have hold : ¬ (l.named a).TakesMemory := by
      rintro ⟨taking, there, htakes⟩
      exact free ⟨taking, mem_append_left _ there, htakes⟩
    rw [lookup?, Loader.extended, lookup_behind]
    · exact named'.memory hold
    · -- a method of the new class that hides the memory would take its name
      intro entry hentry heq
      obtain ⟨hfst, hname⟩ := fst_methodNames hentry
      rw [heq] at hfst hname
      rw [← hartifact] at hfst hname
      exact free ⟨loaded, mem_append_right _ mem_cons_self, hfst.symm, hname⟩

/-- One call; what it defines is produced. -/
theorem Named.asked {call : Call} (named : l.Named) (h : Asked l call l')
    (produced : ∀ a, call = .define a → a.Produced) : l'.Named := by
  cases h with
  | used h => exact named.used h
  | named fresh => exact named.named fresh
  | extended fresh hlink => exact named.extended fresh (produced _ rfl) hlink

theorem Named.after (named : l.Named) {calls : List Call}
    (produced : ∀ a, .define a ∈ calls → a.Produced) : (l.after calls).Named := by
  induction calls generalizing l with
  | nil => exact named
  | cons call calls ih =>
    refine ih (named.asked (call.asked l) ?_) fun a ha => produced a (mem_cons_of_mem _ ha)
    rintro a rfl
    exact produced a mem_cons_self

/-- The classes that a call adds are defined by it. -/
theorem Asked.mem_classes {call : Call} (h : Asked l call l') (there : loaded ∈ l'.classes) :
    loaded ∈ l.classes ∨ call = .define loaded.artifact := by
  cases h with
  | used h => exact Or.inl (h.classes ▸ there)
  | named _ => exact Or.inl there
  | extended _ hlink =>
    rcases mem_append.1 there with hold | hnew
    · exact Or.inl hold
    · obtain rfl := mem_singleton.1 hnew
      exact Or.inr (congrArg Call.define (artifact_of_link? hlink).symm)

theorem mem_classes_after {calls : List Call} (there : loaded ∈ (l.after calls).classes) :
    loaded ∈ l.classes ∨ .define loaded.artifact ∈ calls := by
  induction calls generalizing l with
  | nil => exact Or.inl there
  | cons call calls ih =>
    rcases ih there with hold | hlater
    · refine ((call.asked l).mem_classes hold).imp_right fun hcall => ?_
      rw [hcall]
      exact mem_cons_self
    · exact Or.inr (mem_cons_of_mem _ hlater)

end Keeps

/-! ## Classes that can be linked -/

section Links

variable {l l' : Loader} {a : Artifact}

theorem isSome_of_mapM {α β : Type} {f : α → Option β} {items : List α} {results : List β}
    (h : items.mapM f = some results) : ∀ a ∈ items, (f a).isSome = true := by
  induction items generalizing results with
  | nil => exact fun _ ha => nomatch ha
  | cons first rest ih =>
    rw [mapM_cons] at h
    obtain ⟨b, hb, h⟩ := Option.bind_eq_some_iff.1 h
    obtain ⟨bs, hbs, -⟩ := Option.bind_eq_some_iff.1 h
    exact forall_mem_cons.2 ⟨Option.isSome_iff_exists.2 ⟨b, hb⟩, ih hbs⟩

/-- What a class that was linked has asked for. -/
theorem offers_of_link? (named : l.Named) (h : (l.link? a).isSome = true) :
    a.withinLimits = true ∧
      (∀ b ∈ a.hostImports, l.Offers (hostModule, b.fullName) (Code.builtinType b)) ∧
      ∀ f ∈ a.foreignImports, l.Offers (f.moduleName, f.name) f.type := by
  obtain ⟨loaded, hlink⟩ := Option.isSome_iff_exists.1 h
  obtain ⟨base, host, foreign, htexts, hhost, hforeign, -⟩ := link?_eq_some hlink
  refine ⟨?_, fun b hb => ?_, fun f hf => ?_⟩
  · unfold link? at h
    exact (Option.isSome_guard_bind.1 h).1
  · exact named.func?_isSome_iff.1 (isSome_of_mapM hhost b hb)
  · exact named.func?_isSome_iff.1 (isSome_of_mapM hforeign f hf)

/-- A class links in every loader in which its texts and the memory have their names and that offers
what it imports. -/
theorem link?_of_offers (named : l.Named) (named' : l'.Named) (h : (l.link? a).isSome = true)
    (more : ∀ name type, l.Offers name type → l'.Offers name type)
    (texts : ∃ base, l'.lookup? (a.moduleName, textsName) = some (.texts base)) :
    (l'.link? a).isSome = true ↔ ¬ l'.TakesMemory := by
  obtain ⟨hlimits, hhost, hforeign⟩ := offers_of_link? named h
  rw [link?_isSome_iff (fun b hb => named'.func?_isSome_iff.2 (more _ _ (hhost b hb)))
    (fun f hf => named'.func?_isSome_iff.2 (more _ _ (hforeign f hf))) texts, named'.memory_iff]
  exact and_iff_right hlimits

/-- A class that can be defined with some classes can be defined with more, unless its module has a
class or the memory has lost its name. -/
theorem define_of_more (named : l.Named) (named' : l'.Named)
    (more : ∀ loaded ∈ l.classes, ∃ loaded' ∈ l'.classes, loaded'.artifact = loaded.artifact)
    (h : ((define a).run l).1 = .ok ()) (fresh' : l'.isDefined a.moduleName = false) :
    ((define a).run l').1 = .ok () ↔ ¬ l'.TakesMemory := by
  obtain ⟨fresh, hlink⟩ := define_eq_ok_iff.1 h
  rw [define_eq_ok_iff, and_iff_right fresh', link?_of_offers (named.named fresh)
    (named'.named fresh') hlink (fun _ _ offers => offers.mono more) ⟨_, lookup_cons_self⟩]
  rfl

end Links

end Machine.Loader

open Machine (Loader)

/-- **The names of the host after definitions.** Make any calls to a loader, with artifacts of any
modules. What the host provides keeps its names. The memory keeps its name exactly if no class of
the module `nz` has a method `memory`. And a class that can be defined in a new loader, after the
classes that it needs, can be defined once these are there, among any others, exactly under that
condition. -/
theorem host_names_kept {calls : List Loader.Call}
    (produced : ∀ a, .define a ∈ calls → a.Produced) :
    (∀ b : Builtin, b.isInline = false →
      (Loader.initial.after calls).lookup? (hostModule, b.fullName) =
          Loader.initial.lookup? (hostModule, b.fullName) ∧
        Loader.initial.lookup? (hostModule, b.fullName) =
          some (.func (.host b) (Code.builtinType b))) ∧
    ((Loader.initial.after calls).lookup? (hostModule, memoryName) =
        Loader.initial.lookup? (hostModule, memoryName) ↔
      ¬ (Loader.initial.after calls).TakesMemory) ∧
    ∀ (needed : List Artifact) (a : Artifact),
      ((Loader.define a).run (Loader.initial.after (needed.map .define))).1 = .ok () →
      (∀ d ∈ needed, ∃ loaded ∈ (Loader.initial.after calls).classes, loaded.artifact = d) →
      (Loader.initial.after calls).isDefined a.moduleName = false →
      (((Loader.define a).run (Loader.initial.after calls)).1 = .ok () ↔
        ¬ (Loader.initial.after calls).TakesMemory) := by
  have named := Loader.named_initial.after produced
  refine ⟨fun b provided => ?_, named.memory_iff, ?_⟩
  · have hinitial := Loader.named_initial.host b provided
    exact ⟨(named.host b provided).trans hinitial.symm, hinitial⟩
  · intro needed a hdefine there fresh
    -- the classes that are needed are there, so some call has defined them
    have produced' : ∀ d, Loader.Call.define d ∈ needed.map .define → d.Produced := by
      intro d hd
      obtain ⟨d', hd', heq⟩ := mem_map.1 hd
      obtain rfl := Loader.Call.define.inj heq
      obtain ⟨loaded, hloaded, rfl⟩ := there d' hd'
      exact produced _ ((Loader.mem_classes_after hloaded).resolve_left not_mem_nil)
    refine Loader.define_of_more (Loader.named_initial.after produced') named ?_ hdefine fresh
    intro loaded hloaded
    have hmem := (Loader.mem_classes_after hloaded).resolve_left not_mem_nil
    obtain ⟨d, hd, heq⟩ := mem_map.1 hmem
    obtain rfl := Loader.Call.define.inj heq
    exact there _ hd

/-! ## Examples -/

/-- Parses, checks and generates a module whose imports are in a table. -/
def produce? (table : ClassTable) (moduleName source : String) (imports : List (Span × ClassId)) :
    Option (Artifact × ClassTable) := do
  let tree ← (Tree.parse source moduleName).toOption
  let table' ← (Typed.checkModule table (.parse moduleName) tree imports).toOption
  let c ← table'.get? table.size
  let a ← (Code.generateClass table' c source).toOption
  return (a, table')

theorem produced_of_produce? {table table' : ClassTable} {moduleName source : String}
    {imports : List (Span × ClassId)} {a : Artifact} (reached : table.Reached)
    (h : produce? table moduleName source imports = some (a, table')) :
    a.Produced ∧ table'.Reached := by
  obtain ⟨tree, htree, h⟩ := Option.bind_eq_some_iff.1 h
  obtain ⟨checked, hchecked, h⟩ := Option.bind_eq_some_iff.1 h
  obtain ⟨c, hc, h⟩ := Option.bind_eq_some_iff.1 h
  obtain ⟨a', ha, h⟩ := Option.bind_eq_some_iff.1 h
  cases h
  have hcheck := eq_ok_of_toOption hchecked
  refine ⟨.generated reached (eq_ok_of_toOption htree) hcheck hc (eq_ok_of_toOption ha), ?_⟩
  have hafter : table.afterCheck (.parse moduleName) tree imports = table' := by
    rw [ClassTable.afterCheck, hcheck]
  rw [← hafter]
  exact .check _ _ _ reached

/-- A module whose method has the name of the memory. -/
def takerText : String := "fun Int memory()\n\t1\n"

/-- The artifact of a module that has the name of the host. -/
def takingArtifact : Artifact := ((produce? .empty "nz" takerText []).getD default).1

/-- The same text as a module of another name. -/
def otherArtifact : Artifact := ((produce? .empty "other" takerText []).getD default).1

/-- A module, and the table with its class. -/
def leafProduced : Artifact × ClassTable :=
  (produce? .empty "Base" "fun Int one()\n\t1\n" []).getD default

/-- A module that imports another one and uses a method of the host. -/
def userArtifact : Artifact :=
  ((produce? leafProduced.2 "App" "import\n\t.Base\nfun Int x()\n\tBase.one ^ Base.one\n"
    [(⟨8, 13⟩, 0)]).getD default).1

theorem produced_of_isSome {moduleName source : String}
    (h : (produce? .empty moduleName source []).isSome = true) :
    ((produce? .empty moduleName source []).getD default).1.Produced := by
  obtain ⟨⟨a, table'⟩, hsome⟩ := Option.isSome_iff_exists.1 h
  rw [hsome]
  exact (produced_of_produce? .empty hsome).1

theorem produced_taking : takingArtifact.Produced := by
  have hsome : (produce? .empty "nz" takerText []).isSome = true := by decide +kernel
  exact produced_of_isSome hsome

theorem produced_other : otherArtifact.Produced := by
  have hsome : (produce? .empty "other" takerText []).isSome = true := by decide +kernel
  exact produced_of_isSome hsome

theorem produced_leaf : leafProduced.1.Produced := by
  have hsome : (produce? .empty "Base" "fun Int one()\n\t1\n" []).isSome = true := by decide +kernel
  exact produced_of_isSome hsome

/-- The module is defined behind the one that it imports and a third one, which has taken no name of
the host. -/
theorem host_names_kept_user :
    userArtifact.foreignImports.map (fun f => (f.moduleName, f.name)) = [("Base", "one")] ∧
      userArtifact.hostImports = [.intPow] ∧
      ((Loader.define userArtifact).run
        (Loader.initial.after [.define otherArtifact, .define leafProduced.1])).1 = .ok () := by
  have produced : ∀ a, Loader.Call.define a ∈
      [Loader.Call.define otherArtifact, Loader.Call.define leafProduced.1] → a.Produced := by
    intro a ha
    rcases mem_cons.1 ha with heq | ha
    · rw [Loader.Call.define.inj heq]
      exact produced_other
    · rw [Loader.Call.define.inj (mem_singleton.1 ha)]
      exact produced_leaf
  have hfree : ¬ (Loader.initial.after
      [.define otherArtifact, .define leafProduced.1]).TakesMemory := by
    unfold Loader.TakesMemory
    decide +kernel
  have hfresh : ((Loader.define userArtifact).run
      (Loader.initial.after ([leafProduced.1].map .define))).1 = .ok () := by decide +kernel
  have hthere : ∀ d ∈ [leafProduced.1], ∃ loaded ∈ (Loader.initial.after
      [.define otherArtifact, .define leafProduced.1]).classes, loaded.artifact = d := by
    decide +kernel
  have hundefined : (Loader.initial.after
      [.define otherArtifact, .define leafProduced.1]).isDefined userArtifact.moduleName =
        false := by
    decide +kernel
  refine ⟨by decide +kernel, by decide +kernel, ?_⟩
  obtain ⟨-, -, hdefine⟩ := host_names_kept produced
  exact (hdefine [leafProduced.1] userArtifact hfresh hthere hundefined).2 hfree

/-- A module `nz` takes the name of the memory away by its method `memory`, and a class that a new
loader can define is refused from then on. -/
theorem memory_name_lost :
    takingArtifact.Produced ∧ otherArtifact.Produced ∧
      ((Loader.define otherArtifact).run Loader.initial).1 = .ok () ∧
      (Loader.initial.after [.define takingArtifact]).lookup? (hostModule, memoryName) ≠
        Loader.initial.lookup? (hostModule, memoryName) ∧
      ((Loader.define otherArtifact).run (Loader.initial.after [.define takingArtifact])).1 =
        .error (.unlinked "other") :=
  ⟨produced_taking, produced_other, by decide +kernel, by decide +kernel, by decide +kernel⟩

end ClassLang
