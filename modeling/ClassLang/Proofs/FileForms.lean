import ClassLang.Proofs.ModuleOrder

/-!
# The files of modules

A module is in the file with its name or in the entry of its directory. An import that only goes up
means the entry, any other the file with the name, where there is one, and else the entry
(`fileFor`). But only the first request for a module finds a file; the others share what it found.

So an import need not get the file that it asks for. `forms_met_iff` says when all of them do:
exactly when no two imports ask for a module in different forms, unless the module has no file with
its name. `forms_unmet_lateParent` is a set of files where they do not.
-/

set_option autoImplicit false

namespace ClassLang

open List

namespace Resolve

/-! ## Who asked for a module -/

/-- One of the modules has an import along `rel`, and it got the module `target`. -/
structure ImportsAlong (out : List ResolvedModule) (importer : ResolvedModule) (rel : RelativePath)
    (target : ResolvedModule) : Prop where
  listed : importer ∈ out
  entry : ∃ item span position, (item, span, position) ∈ importer.tree.imports.zip importer.imports ∧
    item.path = .relative rel ∧ out[position]? = some target

/-- The module is in the file that one of the imports which got it asks for. -/
def Asked (read : ModulePath → ReadOutcome) (out : List ResolvedModule) (target : ResolvedModule) :
    Prop :=
  ∃ importer rel, ImportsAlong out importer rel target ∧
    target.origin.full = fileFor read target.origin.logical rel.parentsOnly

theorem Asked.longer {read : ModulePath → ReadOutcome} {out out' : List ResolvedModule}
    {target : ResolvedModule} (h : out <+: out') (asked : Asked read out target) :
    Asked read out' target := by
  obtain ⟨importer, rel, ⟨hlisted, item, span, position, hentry, hrel, htarget⟩, hfull⟩ := asked
  exact ⟨importer, rel, ⟨h.subset hlisted, item, span, position, hentry, hrel,
    getElem?_of_prefix h htarget⟩, hfull⟩

section Asked

variable {read : ModulePath → ReadOutcome} {bound : Nat} {s s' : Search}

/-- The modules that come up while imports are followed are in the files that some import asks for:
one of a finished module, or one of those that are followed. -/
theorem followImports_asked
    (hvisit : ∀ importer? logical directoryOnly s position s', s.Ordered read →
      (visit read bound importer? logical directoryOnly).run s = (.ok position, s') →
      ∀ j m, s.finished.length ≤ j → s'.finished[j]? = some m → Asked read s'.finished m ∨
        j = position ∧ m.origin.full = fileFor read m.origin.logical directoryOnly)
    {origin : ModuleOrigin} {items : List Tree.Import} {entries : List (Span × Nat)}
    (ordered : s.Ordered read)
    (h : (followImports (fun importer => visit read bound (some importer)) origin items).run s =
      (.ok entries, s')) {j : Nat} {m : ResolvedModule} (hnew : s.finished.length ≤ j)
    (hm : s'.finished[j]? = some m) :
    Asked read s'.finished m ∨ ∃ item span rel, (item, span, j) ∈ items.zip entries ∧
      item.path = .relative rel ∧
      m.origin.full = fileFor read m.origin.logical rel.parentsOnly := by
  induction items generalizing s entries with
  | nil =>
    cases h
    exact absurd (List.getElem?_eq_some_iff.1 hm).1 (Nat.not_lt.2 hnew)
  | cons item rest ih =>
    have hcase := followCase (fun importer => visit read bound (some importer)) origin item rest s
    rw [h] at hcase
    cases hcase with
    | @followed rel target position others t _ relative resolved visited followed =>
      have first := visit_ordered ordered visited
      obtain ⟨-, grows, -, -⟩ :=
        followImports_ordered (fun _ _ _ _ _ _ => visit_ordered) first.ordered followed
      rcases Nat.lt_or_ge j t.finished.length with hearly | hlate
      · -- it came up under the first import
        have hm' := getElem?_below_prefix grows.finished hearly hm
        rcases hvisit _ _ _ _ _ _ ordered visited j m hnew hm' with asked | ⟨rfl, hfull⟩
        · exact Or.inl (asked.longer grows.finished)
        · exact Or.inr ⟨item, item.span, rel, mem_cons_self, relative, hfull⟩
      · rcases ih first.ordered followed hlate with asked | ⟨item', span, rel', hmem, hpath, hfull⟩
        · exact Or.inl asked
        · exact Or.inr ⟨item', span, rel', mem_cons_of_mem _ hmem, hpath, hfull⟩

/-- The modules that come up under a visit are in the files that some import asks for, apart from
the module itself, which is in the file that the visit asks for. -/
theorem visit_asked {importer? : Option Importer} {logical : ModulePath} {directoryOnly : Bool}
    {position : Nat} (ordered : s.Ordered read)
    (h : (visit read bound importer? logical directoryOnly).run s = (.ok position, s')) {j : Nat}
    {m : ResolvedModule} (hnew : s.finished.length ≤ j) (hm : s'.finished[j]? = some m) :
    Asked read s'.finished m ∨
      j = position ∧ m.origin.full = fileFor read m.origin.logical directoryOnly := by
  induction bound generalizing importer? logical directoryOnly s s' position j m with
  | zero => cases h
  | succ bound ih =>
    have hcase := visitCase read bound importer? logical directoryOnly s
    rw [h] at hcase
    cases hcase with
    | shared mark => exact absurd (List.getElem?_eq_some_iff.1 hm).1 (Nat.not_lt.2 hnew)
    | @closed name source tree reads imports t fresh named text parsed followed =>
      have hprefix : t.finished <+: (t.closed ⟨⟨logical, fileFor read logical directoryOnly⟩,
          source, tree, imports⟩).finished := prefix_append _ _
      rcases Nat.lt_or_ge j t.finished.length with hearly | hlate
      · have hm' := getElem?_below_prefix hprefix hearly hm
        left
        rcases followImports_asked (fun _ _ _ _ _ _ ordered h _ _ => ih ordered h)
            ((ordered.opened fresh).reading reads) followed hnew hm' with
          asked | ⟨item, span, rel, hmem, hpath, hfull⟩
        · exact asked.longer hprefix
        · -- the import is one of the module that is finished now
          exact ⟨_, rel, ⟨mem_append_right _ mem_cons_self, item, span, j, hmem, hpath,
            getElem?_of_prefix hprefix hm'⟩, hfull⟩
      · right
        have hlt := (List.getElem?_eq_some_iff.1 hm).1
        rw [Search.closed, length_append] at hlt
        have hj : j = t.finished.length := Nat.le_antisymm (Nat.le_of_lt_succ hlt) hlate
        rw [hj, Search.closed, getElem?_concat_length] at hm
        cases hm
        exact ⟨hj, rfl⟩

end Asked

/-! ## The forms that imports ask for -/

/-- Every import gets the module that its path means, in the file that it asks for: the entry of the
directory if the path only goes up, and otherwise the file with the name of the module, or the entry
where there is no such file. -/
def FormsMet (read : ModulePath → ReadOutcome) (out : List ResolvedModule) : Prop :=
  ∀ importer rel target, ImportsAlong out importer rel target →
    importer.origin.full.resolve? rel = some target.origin.logical ∧
      target.origin.full = fileFor read target.origin.logical rel.parentsOnly

/-- The imports that got a module ask for it in one form, if it has a file with its name. -/
def OneFormEach (read : ModulePath → ReadOutcome) (out : List ResolvedModule) : Prop :=
  ∀ importer importer' rel rel' target file, ImportsAlong out importer rel target →
    ImportsAlong out importer' rel' target →
    target.origin.logical.withExtension? extension = some file → read file ≠ .missing →
    rel.parentsOnly = rel'.parentsOnly

/-- The two forms of a module are different files just when it has a file with its name. -/
theorem fileFor_eq_iff (read : ModulePath → ReadOutcome) (logical : ModulePath)
    (directoryOnly directoryOnly' : Bool) :
    fileFor read logical directoryOnly = fileFor read logical directoryOnly' ↔
      ∀ file, logical.withExtension? extension = some file → read file ≠ .missing →
        directoryOnly = directoryOnly' := by
  constructor
  · intro heq file hfile present
    have hnamed := fileFor_of_exists hfile present
    cases directoryOnly <;> cases directoryOnly'
    · rfl
    · exact absurd (heq.symm.trans hnamed) (push_ne_withExtension? hfile)
    · exact absurd (heq.trans hnamed) (push_ne_withExtension? hfile)
    · rfl
  · intro same
    cases hfile : logical.withExtension? extension with
    | none => cases directoryOnly <;> cases directoryOnly' <;> simp [fileFor, hfile]
    | some file =>
      by_cases missing : read file = .missing
      · rw [fileFor_of_missing hfile missing, fileFor_of_missing hfile missing]
      · rw [same file hfile missing]

/-- **When imports get what they ask for.** Among the modules that a root needs, every import gets
the file that it asks for exactly when no module that has a file with its name is asked for in both
forms. -/
theorem forms_met_iff {sources : Sources} {root : ModulePath} {out : List ResolvedModule}
    (h : (linearize sources root).1 = .ok out) :
    FormsMet sources.read out ↔ OneFormEach sources.read out := by
  obtain ⟨position, s, hrun, rfl⟩ := linearize_eq_ok h
  have visited := visit_ordered (Search.ordered_empty _) hrun
  constructor
  · intro met importer importer' rel rel' target file himport himport' hfile present
    have heq := (met _ _ _ himport).2.symm.trans (met _ _ _ himport').2
    exact (fileFor_eq_iff _ _ _ _).1 heq file hfile present
  · intro agree importer rel target himport
    obtain ⟨hlisted, item, span, j, hentry, hpath, htarget⟩ := himport
    obtain ⟨i, hi⟩ := mem_iff_getElem?.1 hlisted
    obtain ⟨-, leads⟩ := forall₂_iff_zip.1 (visited.ordered.found i importer hi).imports
    obtain ⟨-, rel', target', hpath', hlt, htarget', hresolve⟩ := leads hentry
    obtain rfl := Tree.ImportPath.relative.inj (hpath.symm.trans hpath')
    obtain rfl := Option.some.inj (htarget.symm.trans htarget')
    refine ⟨hresolve, ?_⟩
    -- the root is last, so an import asked for the module first
    have hne : j ≠ position := by
      have hi' := (List.getElem?_eq_some_iff.1 hi).1
      rw [visited.last rfl] at hi'
      omega
    rcases visit_asked (Search.ordered_empty _) hrun (Nat.zero_le j) htarget with
      ⟨importer', rel', himport', hfull⟩ | ⟨hposition, -⟩
    · rw [hfull, fileFor_eq_iff]
      intro file hfile present
      exact agree _ _ _ _ _ file himport' ⟨hlisted, item, span, j, hentry, hpath, htarget⟩ hfile
        present
    · exact absurd hposition hne

/-! ## Examples -/

/-- Whether an import names something, so that it does not only go up. -/
def namesSomething (item : Tree.Import) : Bool :=
  match item.path with
  | .relative rel => !rel.parentsOnly
  | .fromTop _ => true

/-- All imports of the four modules name something, so each gets what it asks for. -/
theorem forms_met_iff_diamond :
    (linearize diamondFiles.sources ⟨["app"]⟩).1 = .ok diamondOrder ∧
      FormsMet diamondFiles.sources.read diamondOrder := by
  refine ⟨linearize_diamond, (forms_met_iff linearize_diamond).2 ?_⟩
  have named : ∀ m ∈ diamondOrder, ∀ item ∈ m.tree.imports, namesSomething item = true := by
    decide +kernel
  have hrel : ∀ importer rel target, ImportsAlong diamondOrder importer rel target →
      rel.parentsOnly = false := by
    rintro importer rel target ⟨hlisted, item, span, position, hentry, hpath, -⟩
    have hnamed := named importer hlisted item (of_mem_zip hentry).1
    rw [namesSomething, hpath] at hnamed
    simpa using hnamed
  intro importer importer' rel rel' target file himport himport' _ _
  rw [hrel _ _ _ himport, hrel _ _ _ himport']

/-- A root that first imports a module by its name, and then one below it that imports it by going
up. There is no entry of the directory. -/
def lateParentFiles : Files :=
  ⟨[(⟨["top.nz"]⟩, .text "import\n\t.pkg\n\t.pkg.leaf\nfun Int x()\n\t1\n"),
    (⟨["pkg.nz"]⟩, .text "fun Int x()\n\t1\n"),
    (⟨["pkg", "leaf.nz"]⟩, .text "import\n\t.\nfun Int x()\n\t1\n")]⟩

/-- The import that only goes up gets a file that it does not ask for, because the import by name
came first. -/
theorem forms_unmet_lateParent :
    ∃ out, (linearize lateParentFiles.sources ⟨["top"]⟩).1 = .ok out ∧
      ¬ FormsMet lateParentFiles.sources.read out := by
  have hview : ((linearize lateParentFiles.sources ⟨["top"]⟩).1.map fun out =>
      out.map fun m => (m.origin, m.tree.imports.map Tree.Import.path, m.imports)).toOption =
      some [(⟨⟨["pkg"]⟩, ⟨["pkg.nz"]⟩⟩, [], []),
        (⟨⟨["pkg", "leaf"]⟩, ⟨["pkg", "leaf.nz"]⟩⟩, [.relative ⟨1, ⟨[]⟩⟩], [(⟨8, 9⟩, 0)]),
        (⟨⟨["top"]⟩, ⟨["top.nz"]⟩⟩, [.relative ⟨1, ⟨["pkg"]⟩⟩, .relative ⟨1, ⟨["pkg", "leaf"]⟩⟩],
          [(⟨8, 12⟩, 0), (⟨14, 23⟩, 1)])] := by decide +kernel
  generalize (linearize lateParentFiles.sources ⟨["top"]⟩).1 = outcome at hview ⊢
  cases outcome with
  | error failure => cases hview
  | ok out =>
    refine ⟨out, rfl, fun met => ?_⟩
    obtain ⟨pkg, others, rfl, hpkg, hothers⟩ := map_eq_cons_iff.1 (Option.some.inj hview)
    obtain ⟨leaf, others, rfl, hleaf, -⟩ := map_eq_cons_iff.1 hothers
    simp only [Prod.mk.injEq, map_eq_singleton_iff] at hpkg hleaf
    obtain ⟨hpkg, -⟩ := hpkg
    obtain ⟨-, ⟨item, hitems, hpath⟩, hentries⟩ := hleaf
    have himport : ImportsAlong (pkg :: leaf :: others) leaf ⟨1, ⟨[]⟩⟩ pkg := by
      refine ⟨by simp, item, ⟨8, 9⟩, 0, ?_, hpath, rfl⟩
      rw [hitems, hentries]
      exact mem_singleton.2 rfl
    have hfull := (met _ _ _ himport).2
    rw [hpkg] at hfull
    exact absurd hfull (by decide)

end Resolve

/-! ## One file for each module -/

/-- No module has a file with its name and a directory with an entry. -/
def Sources.OneFileEach (sources : Sources) : Prop :=
  ∀ (logical file : ModulePath) (text text' : String),
    logical.withExtension? Resolve.extension = some file → sources.read file = .text text →
    sources.read (logical.push Resolve.directoryEntry) ≠ .text text'

/-- A module then has one place. -/
theorem Sources.OneFileEach.origin_eq {sources : Sources} (single : sources.OneFileEach)
    {origin origin' : ModuleOrigin} (hlogical : origin'.logical = origin.logical)
    (located : Resolve.Located origin) (located' : Resolve.Located origin') {source source' : String}
    (text : sources.read origin.full = .text source)
    (text' : sources.read origin'.full = .text source') : origin' = origin := by
  obtain ⟨logical, full⟩ := origin
  obtain ⟨logical', full'⟩ := origin'
  obtain rfl : logical' = logical := hlogical
  have hfull : full' = full := by
    rcases located with hfile | hentry
    · rcases located' with hfile' | hentry'
      · exact Option.some.inj (hfile'.symm.trans hfile)
      · dsimp only at hentry'
        rw [hentry'] at text'
        exact absurd text' (single logical' full source source' hfile text)
    · rcases located' with hfile' | hentry'
      · dsimp only at hentry
        rw [hentry] at text
        exact absurd text (single logical' full' source' source hfile' text')
      · exact hentry'.trans hentry.symm
  rw [hfull]

/-- Files of which none is the entry of a directory. -/
theorem oneFileEach_of_noEntry {files : Files}
    (h : ∀ entry ∈ files.entries, entry.1.last? ≠ some Resolve.directoryEntry) :
    files.sources.OneFileEach := by
  intro logical file text text' _ _ hread
  have hmissing : files.entries.lookup (logical.push Resolve.directoryEntry) = none := by
    refine lookup_eq_none_iff.2 fun entry hentry => bne_iff_ne.2 ?_
    intro heq
    refine h entry hentry ?_
    rw [← heq, ModulePath.push, ModulePath.last?, getLast?_concat]
  have hnone : files.sources.read (logical.push Resolve.directoryEntry) = .missing := by
    change (files.entries.lookup (logical.push Resolve.directoryEntry)).getD .missing = .missing
    rw [hmissing, Option.getD_none]
  rw [hnone] at hread
  cases hread

end ClassLang
