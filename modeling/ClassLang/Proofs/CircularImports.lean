import ClassLang.Proofs.FileCounts

/-!
# Circular imports

A search reports a circular import only where there is one, and where it can follow all imports, it
finds every cycle (`linearize_circular_iff`). It follows them as deep as the number of files allows,
which is enough where the files are counted right. They are so in the sources that a session has:
files that are given one by one, and those of a tree of directories (`Sources.FromFiles`).
-/

set_option autoImplicit false

namespace ClassLang

/-- Sources that are files: given one by one, or in a tree of directories, where the root is named by
a path that can be written. -/
inductive Sources.FromFiles (root : ModulePath) : Sources → Prop where
  | files (files : Files) : FromFiles root files.sources
  | tree (tree : FileTree) (directory : String) (written : root.Written) :
      FromFiles root (tree.sources directory)

namespace Resolve

theorem counted_of_fromFiles {sources : Sources} {root : ModulePath} (h : sources.FromFiles root) :
    Counted sources root := by
  cases h with
  | files files => exact counted_files files root
  | tree tree directory written => exact counted_fileTree tree directory written

/-! ## Lists of modules that can be used -/

/-- What an import of a module means, if it is relative and means something. -/
def importTarget? (read : ModulePath → ReadOutcome) (m : ModuleOrigin) (item : Tree.Import) :
    Option ModuleOrigin :=
  match item.path with
  | .relative rel => (m.full.resolve? rel).map fun target =>
    ⟨target, fileFor read target rel.parentsOnly⟩
  | .fromTop _ => none

variable {read : ModulePath → ReadOutcome} {m : ModuleOrigin}

theorem importTarget?_eq_some_iff {m' : ModuleOrigin} {item : Tree.Import} :
    importTarget? read m item = some m' ↔ ∃ rel, item.path = .relative rel ∧
      m.full.resolve? rel = some m'.logical ∧ m'.full = fileFor read m'.logical rel.parentsOnly := by
  constructor
  · intro h
    unfold importTarget? at h
    split at h
    · next rel hrel =>
      obtain ⟨target, hresolve, rfl⟩ := Option.map_eq_some_iff.1 h
      exact ⟨rel, hrel, hresolve, rfl⟩
    · cases h
  · rintro ⟨rel, hrel, hresolve, hfull⟩
    unfold importTarget?
    rw [hrel]
    exact Option.map_eq_some_iff.2 ⟨m'.logical, hresolve, by rw [← hfull]⟩

/-- Whether a module can be used and imports only modules of a list. -/
def importsIn (read : ModulePath → ReadOutcome) (known : List ModuleOrigin) (m : ModuleOrigin) :
    Bool :=
  match m.logical.last?, read m.full with
  | some name, .text source =>
    match Tree.parse source name with
    | .ok tree => tree.imports.all fun item => (importTarget? read m item).any (known.contains ·)
    | .error _ => false
  | _, _ => false

theorem needs_of_importsIn {known : List ModuleOrigin} (h : importsIn read known m = true) :
    Usable read m ∧ ∀ m', Needs read m m' → m' ∈ known := by
  unfold importsIn at h
  split at h
  · next name source hname htext =>
    split at h
    · next tree hparse =>
      have hastree : HasTree read m tree := ⟨name, source, hname, htext, hparse⟩
      have htargets : ∀ item ∈ tree.imports, ∃ m', importTarget? read m item = some m' ∧
          m' ∈ known := by
        intro item hitem
        obtain ⟨m', htarget, hmem⟩ := (Option.any_eq_true _ _).1 (List.all_eq_true.1 h item hitem)
        exact ⟨m', htarget, List.contains_iff_mem.1 hmem⟩
      refine ⟨⟨tree, hastree, fun item hitem => ?_⟩, fun m' needs => ?_⟩
      · obtain ⟨target, htarget, -⟩ := htargets item hitem
        obtain ⟨rel, hrel, hresolve, -⟩ := importTarget?_eq_some_iff.1 htarget
        exact ⟨rel, target.logical, hrel, hresolve⟩
      · obtain ⟨span, rel, ⟨tree', item, hastree', hitem, -, hrel, hresolve⟩, hfull⟩ := needs
        obtain rfl := hastree.unique hastree'
        obtain ⟨target, htarget, hmem⟩ := htargets item hitem
        have htarget' := importTarget?_eq_some_iff.2 ⟨rel, hrel, hresolve, hfull⟩
        rwa [Option.some.inj (htarget'.symm.trans htarget)]
    · cases h
  · cases h

/-- A list of modules that can be used, with the root and with what they import. -/
theorem usable_of_importsIn {root : ModulePath} {known : List ModuleOrigin}
    (hroot : ⟨root, fileFor read root false⟩ ∈ known)
    (hknown : ∀ m ∈ known, importsIn read known m = true) (needed : Needed read root m) :
    Usable read m := by
  have hmem : m ∈ known := by
    induction needed with
    | refl => exact hroot
    | tail _ needs ih => exact (needs_of_importsIn (hknown _ ih)).2 _ needs
  exact (needs_of_importsIn (hknown m hmem)).1

/-- Two modules that import each other, with one that both of them import and one that imports
both. -/
def ringFiles : Files :=
  ⟨[(⟨["app.nz"]⟩, .text "import\n\t.left\n\t.right\nfun Int x()\n\t1\n"),
    (⟨["left.nz"]⟩, .text "import\n\t.base\n\t.right\nfun Int x()\n\t2\n"),
    (⟨["right.nz"]⟩, .text "import\n\t.base\n\t.left\nfun Int x()\n\t3\n"),
    (⟨["base.nz"]⟩, .text "fun Int x()\n\t4\n")]⟩

def ringModules : List ModuleOrigin :=
  ["app", "left", "right", "base"].map fun name => ⟨⟨[name]⟩, ⟨[name ++ extension]⟩⟩

/-! ## Cycles -/

/-- **Cycles.** A circular import that is reported is there: the module has, at the place, an import
of the path that is named, and from a module with that name a chain of imports leads to it. And if
no module has two files and every module that the root needs can be used, a circular import is
reported exactly when the root needs modules that need each other, and otherwise the search
succeeds. For this the files must be counted right, as they are where the sources are files. -/
theorem linearize_circular_iff (sources : Sources) (root : ModulePath) :
    (∀ origin? span path,
      (linearize sources root).1 = .error (.inModule ⟨origin?, ⟨span, .circularDependency path⟩⟩) →
      ∃ m, origin? = some m ∧ Closes sources.read root m span path) ∧
    (sources.FromFiles root → Counted sources root) ∧
    (Counted sources root → sources.OneFileEach →
      (∀ m, Needed sources.read root m → Usable sources.read m) →
      ((∃ m span path, (linearize sources root).1 =
          .error (.attributed m ⟨span, .circularDependency path⟩)) ↔ HasCycle sources.read root) ∧
      (¬ HasCycle sources.read root → ∃ out, (linearize sources root).1 = .ok out)) := by
  refine ⟨fun _ _ _ => closes_of_circular, counted_of_fromFiles, fun counted single usable => ?_⟩
  rcases linearize_of_usable single counted usable with ⟨out, hok⟩ | ⟨cycle, reported⟩
  · have acyclic := acyclic_of_linearize single usable hok
    refine ⟨⟨?_, fun cycle => absurd cycle acyclic⟩, fun _ => ⟨out, hok⟩⟩
    rintro ⟨m, span, path, h⟩
    cases h.symm.trans hok
  · exact ⟨⟨fun _ => cycle, fun _ => reported⟩, fun acyclic => absurd cycle acyclic⟩

/-- The two modules that import each other are met from the one that imports both. The import that
closes the cycle is the second one of the module that is reached last. -/
theorem linearize_circular_iff_ring :
    (linearize ringFiles.sources ⟨["app"]⟩).1 = .error (.attributed ⟨⟨["right"]⟩, ⟨["right.nz"]⟩⟩
      ⟨⟨15, 20⟩, .circularDependency ⟨["left"]⟩⟩) ∧
    Closes ringFiles.sources.read ⟨["app"]⟩ ⟨⟨["right"]⟩, ⟨["right.nz"]⟩⟩ ⟨15, 20⟩ ⟨["left"]⟩ ∧
    HasCycle ringFiles.sources.read ⟨["app"]⟩ := by
  obtain ⟨reported, counted, exact⟩ := linearize_circular_iff ringFiles.sources ⟨["app"]⟩
  have hview : ((linearize ringFiles.sources ⟨["app"]⟩).1.map fun _ => ()) =
      .error (.attributed ⟨⟨["right"]⟩, ⟨["right.nz"]⟩⟩
        ⟨⟨15, 20⟩, .circularDependency ⟨["left"]⟩⟩) := by decide +kernel
  have hrun : (linearize ringFiles.sources ⟨["app"]⟩).1 =
      .error (.attributed ⟨⟨["right"]⟩, ⟨["right.nz"]⟩⟩
        ⟨⟨15, 20⟩, .circularDependency ⟨["left"]⟩⟩) := by
    generalize (linearize ringFiles.sources ⟨["app"]⟩).1 = outcome at hview ⊢
    cases outcome with
    | error e => exact congrArg Except.error (Except.error.inj hview)
    | ok out => cases hview
  have hknown : ∀ m ∈ ringModules,
      importsIn ringFiles.sources.read ringModules m = true := by decide +kernel
  have cyclic := (exact (counted (.files ringFiles)) (oneFileEach_of_noEntry (by decide))
    (fun _ => usable_of_importsIn (by decide +kernel) hknown)).1
  obtain ⟨m, hm, closes⟩ := reported _ _ _ hrun
  obtain rfl := Option.some.inj hm
  exact ⟨hrun, closes, cyclic.1 ⟨_, _, _, hrun⟩⟩

end Resolve

end ClassLang
