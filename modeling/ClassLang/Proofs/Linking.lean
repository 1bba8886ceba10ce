import ClassLang.Machine.Loader
import ClassLang.Proofs.ParsedNames
import ClassLang.Proofs.Simulation

/-!
# Linking

A class that is defined is linked by the names of what it imports, while its code was generated for
callees known by their position. Both lead to the same functions: host functions and texts keep their
names, as the names of methods are plain, and modules have different names, so no class takes a name
of another one.

`Loader.Loads` says that the classes of a table are loaded and linked. `Loader.define_cases` says
once what a definition can do, `Loader.Loads.named` and `Loader.Loads.extended` that it keeps the
classes loaded.
-/

set_option autoImplicit false

namespace ClassLang.Machine

open List Code
open Code (Artifact functionSpace generateClass ImportPlan)
open Code.Binary (hostModule memoryName textsName)
open Typed (Callee ClassTable Method MethodRef)

/-! ## Names -/

/-- The names that a class can be linked by lead to what they are the names of, with their types. -/
structure LeadsTo (names : List (LinkName × Linkable)) (table : ClassTable) : Prop where
  host : ∀ b : Builtin, b.isInline = false →
    names.lookup (hostModule, b.fullName) = some (.func (.host b) (builtinType b))
  method : ∀ (id : ClassId) (c : Typed.Class) (index : Nat) (m : Method), table.get? id = some c →
    c.methods[index]? = some m →
    names.lookup (c.path.text, m.name) = some (.func (.method id index) (methodType m))
  texts : ∀ (id : ClassId) (c : Typed.Class), table.get? id = some c →
    ∃ base, names.lookup (c.path.text, textsName) = some (.texts base)

theorem leadsTo_hostNames : LeadsTo Loader.hostNames .empty where
  host b hb := by cases b <;> first | rfl | cases hb
  method _ _ _ _ hc := nomatch hc
  texts _ _ hc := nomatch hc

/-- A text without dots. -/
def Undotted (text : String) : Prop := '.' ∉ text.toList

theorem undotted_textsName : Undotted textsName := by
  unfold Undotted
  decide +kernel

variable {text : String} {front names : List (LinkName × Linkable)}

theorem undotted_of_plain (h : Plain text) : Undotted text :=
  fun hmem => absurd (h '.' hmem) (by decide)

theorem ne_textsName_of_plain (h : Plain text) : text ≠ textsName := by
  rintro rfl
  have hmem : '$' ∈ textsName.toList := by decide +kernel
  exact absurd (h '$' hmem) (by decide)

theorem dot_mem_fullName (b : Builtin) : '.' ∈ b.fullName.toList := by
  simp [Builtin.fullName]

/-- Names in front of others do not hide a name that is not among them. -/
theorem lookup_behind {name : LinkName} (h : ∀ entry ∈ front, entry.1 ≠ name) :
    (front ++ names).lookup name = names.lookup name := by
  have hnone : front.lookup name = none := by
    refine lookup_eq_none_iff.2 fun entry hentry => ?_
    exact bne_iff_ne.2 (h entry hentry).symm
  rw [lookup_append, hnone, Option.none_or]

/-- Names of a module that has no class yet, none of them with a dot, leave the others as they
are. -/
theorem LeadsTo.behind {table : ClassTable} (leads : LeadsTo names table) {moduleName : String}
    (fresh : ∀ id c, table.get? id = some c → c.path.text ≠ moduleName)
    (hfront : ∀ entry ∈ front, entry.1.1 = moduleName ∧ Undotted entry.1.2) :
    LeadsTo (front ++ names) table where
  host b hb := by
    rw [lookup_behind]
    · exact leads.host b hb
    · -- the names of the host have a dot
      rintro entry hentry heq
      refine (hfront entry hentry).2 ?_
      rw [heq]
      exact dot_mem_fullName b
  method id c index m hc hm := by
    rw [lookup_behind]
    · exact leads.method id c index m hc hm
    · -- the methods of other classes are named by other modules
      rintro entry hentry heq
      refine fresh id c hc ?_
      rw [← (hfront entry hentry).1, heq]
  texts id c hc := by
    rw [lookup_behind]
    · exact leads.texts id c hc
    · rintro entry hentry heq
      refine fresh id c hc ?_
      rw [← (hfront entry hentry).1, heq]

namespace Loader

variable {l : Loader} {a : Artifact}

theorem fst_methodNames {entry : LinkName × Linkable} {classIndex : Nat}
    (h : entry ∈ methodNames classIndex a) :
    entry.1.1 = a.moduleName ∧ entry.1.2 ∈ a.methods.map MethodCode.name := by
  obtain ⟨⟨m, index⟩, hm, rfl⟩ := mem_map.1 h
  exact ⟨rfl, mem_map_of_mem (fst_mem_of_mem_zipIdx hm)⟩

/-- The names of the methods of a class lead to them, where they are different. -/
theorem lookup_methodNames (once : (a.methods.map MethodCode.name).Nodup) (classIndex : Nat)
    {index : Nat} {m : MethodCode} (hm : a.methods[index]? = some m) :
    (methodNames classIndex a).lookup (a.moduleName, m.name) =
      some (.func (.method classIndex index) m.type) := by
  have hmem : ((a.moduleName, m.name), Linkable.func (.method classIndex index) m.type) ∈
      methodNames classIndex a :=
    mem_map.2 ⟨(m, index), mem_zipIdx_iff_getElem?.2 hm, rfl⟩
  have hnames : (methodNames classIndex a).map Prod.fst =
      (a.methods.map MethodCode.name).map fun name => (a.moduleName, name) := by
    have hfst : a.methods = a.methods.zipIdx.map Prod.fst := by simp
    conv_rhs => rw [hfst]
    simp only [methodNames, map_map]
    rfl
  refine lookup_of_mem ?_ hmem
  rw [hnames]
  exact once.map fun _ _ h => (Prod.mk.inj h).2

/-! ## Links -/

variable {loaded : Loaded}

theorem link?_eq_some (h : l.link? a = some loaded) :
    ∃ base host foreign, l.lookup? (a.moduleName, textsName) = some (.texts base) ∧
      a.hostImports.mapM (fun b => l.func? (hostModule, b.fullName) (builtinType b)) =
        some host ∧
      a.foreignImports.mapM (fun f => l.func? (f.moduleName, f.name) f.type) = some foreign ∧
      loaded = ⟨a, host ++ foreign ++ a.methods.zipIdx.map fun (_, index) =>
        FuncRef.method l.classes.length index, base⟩ := by
  unfold link? at h
  obtain ⟨-, -, h⟩ := Option.bind_eq_some_iff.1 h
  obtain ⟨-, -, h⟩ := Option.bind_eq_some_iff.1 h
  obtain ⟨linkable, hlinkable, h⟩ := Option.bind_eq_some_iff.1 h
  cases linkable with
  | memory => exact nomatch h
  | func ref type => exact nomatch h
  | texts base =>
    obtain ⟨host, hhost, h⟩ := Option.bind_eq_some_iff.1 h
    obtain ⟨foreign, hforeign, h⟩ := Option.bind_eq_some_iff.1 h
    cases h
    exact ⟨base, host, foreign, hlinkable, hhost, hforeign, rfl⟩

theorem artifact_of_link? (h : l.link? a = some loaded) : loaded.artifact = a := by
  obtain ⟨base, host, foreign, -, -, -, rfl⟩ := link?_eq_some h
  rfl

theorem eq_of_func? {name : LinkName} {type found : FuncType} {ref ref' : FuncRef}
    (leads : l.lookup? name = some (.func ref found)) (h : l.func? name type = some ref') :
    ref' = ref := by
  rw [func?, leads] at h
  dsimp only at h
  split at h
  · exact (Option.some.inj h).symm
  · cases h

/-- The functions of a linked class are those that its code was generated for. -/
theorem functions_of_link? {table : ClassTable} (leads : LeadsTo l.names table)
    (count : l.classes.length = table.size) {c : Typed.Class} (typed : (table.push c).Typed)
    {source : String} (generated : generateClass (table.push c) c source = .ok a)
    (h : l.link? a = some loaded) : loaded.functions = (functionSpace c).map FuncRef.ofCallee := by
  obtain ⟨base, host, foreign, -, hhost, hforeign, rfl⟩ := link?_eq_some h
  obtain ⟨hmethods, ha⟩ := generateClass_eq_ok generated
  have hid : c.id = table.size := (typed table.size c ClassTable.get?_push_size).id_eq
  have hhosts : host = (ImportPlan.ofClass c).host.map FuncRef.host := by
    rw [ha] at hhost
    refine eq_map_of_mapM hhost fun b hb ref href => ?_
    exact eq_of_func? (leads.host b (mem_plan_host.1 hb).2) href
  have hforeigns : foreign =
      (ImportPlan.ofClass c).foreign.map fun ref => FuncRef.method ref.owner ref.index := by
    rw [ha, mapM_map] at hforeign
    refine eq_map_of_mapM hforeign fun ref href ref' href' => ?_
    obtain ⟨d, m, hd, hm, himport⟩ := foreignImport_of_plan typed href
    rw [Function.comp_apply, himport] at href'
    exact eq_of_func? (leads.method ref.owner d ref.index m hd hm) href'
  have hown : (a.methods.zipIdx.map Prod.snd).map (FuncRef.method l.classes.length) =
      (c.methods.zipIdx.map Prod.snd).map (FuncRef.method c.id) := by
    rw [zipIdx_map_snd, zipIdx_map_snd, count, ← hid, hmethods.length_eq]
  rw [map_map, map_map] at hown
  rw [functionSpace, map_append, map_append, map_map, map_map, map_map,
    hhosts, hforeigns]
  exact congrArg _ hown

/-! ## Definitions -/

/-- The loader with a name for the texts of a class. -/
def named (l : Loader) (a : Artifact) : Loader :=
  { l with names := ((a.moduleName, textsName), .texts (UInt32.ofNat l.texts.size)) :: l.names }

/-- The loader with one more class. -/
def extended (l : Loader) (a : Artifact) (loaded : Loaded) : Loader where
  classes := l.classes ++ [loaded]
  names := methodNames l.classes.length a ++ (l.named a).names
  memory := l.memory
  texts := l.texts.appendList a.texts

/-- What a definition does: it refuses a class that is there, a link that fails leaves a name
behind, and otherwise there is one more class. -/
theorem define_cases (l : Loader) (a : Artifact) :
    l.isDefined a.moduleName = true ∧
        (define a).run l = (.error (.duplicateClass a.moduleName), l) ∨
      l.isDefined a.moduleName = false ∧
        ((l.named a).link? a = none ∧
            (define a).run l = (.error (.unlinked a.moduleName), l.named a) ∨
          ∃ loaded, (l.named a).link? a = some loaded ∧
            (define a).run l = (.ok (), l.extended a loaded)) := by
  rw [define, run_get_bind]
  cases hdefined : l.isDefined a.moduleName with
  | true => exact Or.inl ⟨rfl, rfl⟩
  | false =>
    refine Or.inr ⟨rfl, ?_⟩
    cases hlink : (l.named a).link? a with
    | none =>
      refine Or.inl ⟨rfl, ?_⟩
      rw [if_neg Bool.false_ne_true]
      dsimp only
      rw [← named, hlink]
      rfl
    | some loaded =>
      refine Or.inr ⟨loaded, rfl, ?_⟩
      rw [if_neg Bool.false_ne_true]
      dsimp only
      rw [← named, hlink]
      rfl

/-! ## Loaded classes -/

/-- A class has taken the name of the memory for a method. -/
def TakesMemory (l : Loader) : Prop :=
  ∃ loaded ∈ l.classes, loaded.artifact.moduleName = hostModule ∧
    memoryName ∈ loaded.artifact.methods.map MethodCode.name

/-- The classes of a table are loaded at their positions, under different names. -/
structure Loads (l : Loader) (table : ClassTable) : Prop where
  typed : table.Typed
  count : l.classes.length = table.size
  linked : ∀ (id : ClassId) (c : Typed.Class), table.get? id = some c →
    ∃ loaded, l.classes[id]? = some loaded ∧ Linked table id c loaded l.texts
  apart : ∀ (id id' : ClassId) (c c' : Typed.Class), table.get? id = some c →
    table.get? id' = some c' → c.path.text = c'.path.text → id = id'
  leads : LeadsTo l.names table
  memory : ¬ l.TakesMemory → l.lookup? (hostModule, memoryName) = some .memory

theorem loads_initial : initial.Loads .empty where
  typed _ _ hc := nomatch hc
  count := rfl
  linked _ _ hc := nomatch hc
  apart _ _ _ _ hc := nomatch hc
  leads := leadsTo_hostNames
  memory _ := rfl

end Loader

section Linked

variable {table : ClassTable} {id : ClassId} {c : Typed.Class} {loaded : Loaded} {texts : Texts}

/-- What the artifact of a loaded class says about the class. -/
theorem Linked.artifact_eq (linked : Linked table id c loaded texts) :
    loaded.artifact = ⟨id, c.name, c.path.text, classFields c, loaded.artifact.methods,
      classTexts c, loaded.artifact.hostImports, loaded.artifact.foreignImports⟩ := by
  obtain ⟨small, source, -, -, typed, generated⟩ := linked.generated
  have hartifact := (generateClass_eq_ok generated).2
  rw [typed.id_eq] at hartifact
  rw [hartifact]

/-- A class stays linked when classes and texts are added. -/
theorem Linked.later (linked : Linked table id c loaded texts) {table' : ClassTable}
    (grown : table.Extends table') {texts' : Texts} (kept : Kept texts texts') :
    Linked table' id c loaded texts' where
  generated := by
    obtain ⟨small, source, small_grown, hc, typed, generated⟩ := linked.generated
    exact ⟨small, source, .trans small_grown grown, hc, typed, generated⟩
  functions := linked.functions
  texts k text hk enough := kept.textOf? (linked.texts k text hk (mt kept.exhausted enough))

end Linked

namespace Loader

variable {l : Loader} {a : Artifact} {table : ClassTable} {c : Typed.Class} {loaded : Loaded}

theorem isSome_class? {index : Nat} (h : l.classes[index]? = some loaded) :
    l.isDefined loaded.artifact.moduleName = true := by
  rw [isDefined, class?, find?_isSome]
  exact ⟨loaded, mem_of_getElem? h, decide_eq_true rfl⟩

/-- A module that is not defined has no class. -/
theorem Loads.fresh (loads : l.Loads table) {moduleName : String}
    (h : l.isDefined moduleName = false) (id : ClassId) (c : Typed.Class)
    (hc : table.get? id = some c) :
    c.path.text ≠ moduleName := by
  rintro rfl
  obtain ⟨loaded, hloaded, linked⟩ := loads.linked id c hc
  have hdefined := isSome_class? hloaded
  rw [linked.artifact_eq, h] at hdefined
  exact nomatch hdefined

/-- The name of the texts hides no other. -/
theorem Loads.named (loads : l.Loads table) (h : l.isDefined a.moduleName = false) :
    (l.named a).Loads table where
  typed := loads.typed
  count := loads.count
  linked := loads.linked
  apart := loads.apart
  leads := by
    have hfront : ∀ entry ∈ [((a.moduleName, textsName),
        Linkable.texts (UInt32.ofNat l.texts.size))],
        entry.1.1 = a.moduleName ∧ Undotted entry.1.2 := by
      intro entry hentry
      obtain rfl := mem_singleton.1 hentry
      exact ⟨rfl, undotted_textsName⟩
    exact loads.leads.behind (loads.fresh h) hfront
  memory free := by
    rw [lookup?, Loader.named, ← singleton_append, lookup_behind]
    · exact loads.memory free
    · intro entry hentry heq
      obtain rfl := mem_singleton.1 hentry
      exact absurd (Prod.mk.inj heq).2 (by decide)

theorem kept_extended (l : Loader) (a : Artifact) (loaded : Loaded) :
    Kept l.texts (l.extended a loaded).texts := by
  rw [Kept, extended]
  simp

/-- The texts of a new class are found from their base on. -/
theorem textOf?_appendList {texts : Texts} {added : List String}
    (enough : ¬ Exhausted (texts.appendList added)) {k : Nat} (hk : added[k]? = some text) :
    textOf? (texts.appendList added) (UInt32.ofNat texts.size + UInt32.ofNat k) = some text := by
  have hlist : (texts.appendList added).toList = texts.toList ++ added := by simp
  have hlength : (texts.appendList added).size = texts.size + added.length := by
    rw [← Array.length_toList, hlist, length_append, Array.length_toList]
  have hk' : k < added.length := (List.getElem?_eq_some_iff.1 hk).1
  have hlt : texts.size + k < maxTexts := by
    have hsize := Nat.not_lt.1 enough
    omega
  have hhandle : (UInt32.ofNat texts.size + UInt32.ofNat k).toNat = texts.size + k := by
    rw [← UInt32.ofNat_add]
    refine UInt32.toNat_ofNat_of_lt' (Nat.lt_trans hlt ?_)
    decide
  rw [textOf?, hhandle, if_pos hlt, ← Array.getElem?_toList, hlist,
    getElem?_append_right (by simp), Array.length_toList, Nat.add_sub_cancel_left]
  exact hk

variable {source : String}

theorem linked_of_link? (loads : l.Loads table) (h : l.isDefined a.moduleName = false)
    (typed : (table.push c).Typed) (generated : generateClass (table.push c) c source = .ok a)
    (hlink : (l.named a).link? a = some loaded) :
    Linked (table.push c) table.size c loaded (l.extended a loaded).texts := by
  have hnamed := loads.named h
  have hfunctions := functions_of_link? hnamed.leads hnamed.count typed generated hlink
  obtain ⟨base, host, foreign, hbase, -, -, rfl⟩ := link?_eq_some hlink
  -- the name of the texts that was put in front is the one that is found
  obtain rfl : UInt32.ofNat l.texts.size = base := by
    rw [lookup?, Loader.named, lookup_cons_self] at hbase
    exact Linkable.texts.inj (Option.some.inj hbase)
  exact ⟨⟨_, source, .refl _, ClassTable.get?_push_size,
    typed table.size c ClassTable.get?_push_size, generated⟩, hfunctions,
    fun k text hk enough => textOf?_appendList enough hk⟩

/-- The names of a new class lead to its methods and its texts and hide no other. -/
theorem leadsTo_extended (loads : l.Loads table) (h : l.isDefined a.moduleName = false)
    (typed : (table.push c).Typed) (plain : ∀ m ∈ c.methods, Plain m.name)
    (generated : generateClass (table.push c) c source = .ok a) :
    LeadsTo (l.extended a loaded).names (table.push c) := by
  have hnames := methodNames_eq generated
  have hmodule : a.moduleName = c.path.text := by rw [(generateClass_eq_ok generated).2]
  have hfront : ∀ entry ∈ methodNames l.classes.length a,
      entry.1.1 = a.moduleName ∧ Plain entry.1.2 := by
    intro entry hentry
    obtain ⟨hfst, hname⟩ := fst_methodNames hentry
    rw [hnames] at hname
    obtain ⟨m, hm, hm'⟩ := mem_map.1 hname
    rw [← hm']
    exact ⟨hfst, plain m hm⟩
  have hold : LeadsTo (l.extended a loaded).names table :=
    (loads.named h).leads.behind (loads.fresh h) fun entry hentry =>
      ⟨(hfront entry hentry).1, undotted_of_plain (hfront entry hentry).2⟩
  refine ⟨hold.host, ?_, ?_⟩
  · intro id d index m hd hm
    rcases ClassTable.get?_push_eq_some hd with hd | ⟨rfl, rfl⟩
    · exact hold.method id d index m hd hm
    obtain ⟨code, hcode, hname, htype⟩ := methodCode_of_method generated hm
    have once : (a.methods.map MethodCode.name).Nodup := by
      rw [hnames]
      exact (typed _ _ hd).names
    have hlookup := lookup_methodNames once l.classes.length hcode
    rw [hmodule, hname, htype, loads.count] at hlookup
    rw [Loader.extended, lookup_append, loads.count, hlookup]
    rfl
  · intro id d hd
    rcases ClassTable.get?_push_eq_some hd with hd | ⟨rfl, rfl⟩
    · exact hold.texts id d hd
    refine ⟨UInt32.ofNat l.texts.size, ?_⟩
    rw [Loader.extended, lookup_behind, Loader.named, hmodule, lookup_cons_self]
    rintro entry hentry heq
    refine ne_textsName_of_plain (hfront entry hentry).2 ?_
    rw [heq]

/-- A class whose link succeeds is loaded. -/
theorem Loads.extended (loads : l.Loads table) (h : l.isDefined a.moduleName = false)
    (typed : (table.push c).Typed) (plain : ∀ m ∈ c.methods, Plain m.name)
    (generated : generateClass (table.push c) c source = .ok a)
    (hlink : (l.named a).link? a = some loaded) : (l.extended a loaded).Loads (table.push c) := by
  have hmodule : a.moduleName = c.path.text := by rw [(generateClass_eq_ok generated).2]
  have hfresh := loads.fresh h
  have grown : table.Extends (table.push c) := .push table c
  have kept := kept_extended l a loaded
  refine ⟨typed, ?_, ?_, ?_, ?_, ?_⟩
  · rw [Loader.extended, length_append, loads.count, ClassTable.size_push]
    rfl
  · intro id d hd
    rcases ClassTable.get?_push_eq_some hd with hold | ⟨rfl, rfl⟩
    · obtain ⟨loaded', hloaded', linked⟩ := loads.linked id d hold
      refine ⟨loaded', ?_, linked.later grown kept⟩
      exact (getElem?_append_left (List.getElem?_eq_some_iff.1 hloaded').1).trans hloaded'
    refine ⟨loaded, ?_, ?_⟩
    · rw [← loads.count]
      exact getElem?_concat_length
    · exact linked_of_link? loads h typed generated hlink
  · intro id id' d d' hd hd' hsame
    rcases ClassTable.get?_push_eq_some hd with hold | ⟨rfl, rfl⟩ <;>
      rcases ClassTable.get?_push_eq_some hd' with hold' | ⟨rfl, rfl⟩
    · exact loads.apart id id' d d' hold hold' hsame
    · exact absurd (hsame.trans hmodule.symm) (hfresh id d hold)
    · exact absurd (hsame.symm.trans hmodule.symm) (hfresh id' d' hold')
    · rfl
  · exact leadsTo_extended loads h typed plain generated
  · intro free
    rw [lookup?, Loader.extended, lookup_behind]
    · refine (loads.named h).memory fun ⟨taking, hmem, htakes⟩ => free ⟨taking, ?_, htakes⟩
      exact mem_append_left _ hmem
    · -- a method with the name of the memory would have taken it
      intro entry hentry heq
      obtain ⟨hfst, hname⟩ := fst_methodNames hentry
      rw [heq] at hfst hname
      refine free ⟨loaded, mem_append_right _ mem_cons_self, ?_, ?_⟩
      · rw [artifact_of_link? hlink, ← hfst]
      · rw [artifact_of_link? hlink]
        exact hname

end Loader

end ClassLang.Machine
