import ClassLang.Proofs.Steps
import ClassLang.Resolve

/-!
# Steps of a search

What the steps of a search for modules do, each said once. A request asks for a module in one of two
forms: by a name, which means the file with the name where there is one and else the entry of the
directory, or only by the directory. Finding a module reads the file that the request means
(`run_locate_fileFor`). `VisitCase` lists how a visit of a module can end, and `FollowCase` how
following imports can; all that holds along a search is proved from these.
-/

set_option autoImplicit false

namespace ClassLang.Resolve

/-- The file of a module is the file with its name or the entry of its directory. -/
def Located (origin : ModuleOrigin) : Prop :=
  origin.logical.withExtension? extension = some origin.full ∨
    origin.full = origin.logical.push directoryEntry

/-! ## The file that a request means -/

section FileFor

variable (read : ModulePath → ReadOutcome) (logical : ModulePath) (directoryOnly : Bool)

/-- The file that a request for a module means: the entry of its directory, or, unless it asks for
nothing else, the file with the name of the module where there is one. -/
def fileFor : ModulePath :=
  match if directoryOnly then none else logical.withExtension? extension with
  | some file => if read file = .missing then logical.push directoryEntry else file
  | none => logical.push directoryEntry

/-- The files that are asked for to find a module, in order. -/
def asked : List ModulePath :=
  match if directoryOnly then none else logical.withExtension? extension with
  | some file => if read file = .missing then [file, logical.push directoryEntry] else [file]
  | none => [logical.push directoryEntry]

/-- The file that is meant is among those that are asked for. -/
theorem fileFor_mem_asked :
    fileFor read logical directoryOnly ∈ asked read logical directoryOnly := by
  unfold fileFor asked
  split
  · split
    · exact List.mem_cons_of_mem _ List.mem_cons_self
    · exact List.mem_cons_self
  · exact List.mem_cons_self

theorem located_fileFor : Located ⟨logical, fileFor read logical directoryOnly⟩ := by
  unfold fileFor
  split
  · next file hfile =>
    split
    · exact Or.inr rfl
    · cases directoryOnly with
      | true => cases hfile
      | false => exact Or.inl hfile
  · exact Or.inr rfl

variable {read logical} {file : ModulePath}

/-- Without a file of its name, a module is meant in one form only. -/
theorem fileFor_of_missing (hfile : logical.withExtension? extension = some file)
    (missing : read file = .missing) (directoryOnly : Bool) :
    fileFor read logical directoryOnly = logical.push directoryEntry := by
  cases directoryOnly with
  | true => rfl
  | false =>
    rw [fileFor, if_neg Bool.false_ne_true, hfile]
    exact if_pos missing

theorem fileFor_of_exists (hfile : logical.withExtension? extension = some file)
    (present : read file ≠ .missing) : fileFor read logical false = file := by
  rw [fileFor, if_neg Bool.false_ne_true, hfile]
  exact if_neg present

/-- The file with the name of a module is not the entry of its directory. -/
theorem push_ne_withExtension? (hfile : logical.withExtension? extension = some file) :
    logical.push directoryEntry ≠ file := by
  obtain ⟨name, hname, rfl⟩ := Option.map_eq_some_iff.1 hfile
  intro heq
  have hlength := congrArg (List.length ∘ ModulePath.parts) heq
  have hpos : 0 < logical.parts.length := by
    rw [List.length_pos_iff]
    rintro hnil
    rw [hnil] at hname
    cases hname
  simp only [Function.comp_apply, ModulePath.push, List.length_append, List.length_dropLast,
    List.length_singleton] at hlength
  omega

end FileFor

/-! ## States of a search -/

namespace Search

/-- The search with the files that were asked for in place of those before. -/
def reading (s : Search) (reads : List ModulePath) : Search := { s with reads := reads }

/-- The search with one more module open. -/
def opened (s : Search) (logical : ModulePath) : Search :=
  { s with marks := (logical, .visiting) :: s.marks }

/-- The search with one more module finished. -/
def closed (s : Search) (m : ResolvedModule) : Search :=
  { s with
    marks := (m.origin.logical, Mark.finished s.finished.length) :: s.marks
    finished := s.finished ++ [m] }

theorem lookup_cons_of_ne {path logical : ModulePath} {mark : Mark} (h : path ≠ logical)
    (marks : List (ModulePath × Mark)) :
    List.lookup path ((logical, mark) :: marks) = marks.lookup path := by
  rw [List.lookup_cons, beq_false_of_ne h]

end Search

/-! ## Finding a file -/

/-- What is found when reading the file that is meant gives this. -/
def foundIn (full : ModulePath) : ReadOutcome → Except Failure (Option (ModulePath × String))
  | .text source => .ok (some (full, source))
  | .missing => .ok none
  | .failed reason => .error (.sourceUnreadable reason)

theorem run_readFile_eq (read : ModulePath → ReadOutcome) (path : ModulePath) (s : Search) :
    (readFile read path).run s =
      ((foundIn path (read path)).map (Option.map Prod.snd), s.reading (s.reads ++ [path])) := by
  rw [readFile, modify, run_modifyGet_bind]
  cases read path <;> rfl

/-- **Finding a module** reads the file that the request means. -/
theorem run_locate_fileFor (read : ModulePath → ReadOutcome) (logical : ModulePath)
    (directoryOnly : Bool) (s : Search) :
    (locate read logical directoryOnly).run s =
      (foundIn (fileFor read logical directoryOnly) (read (fileFor read logical directoryOnly)),
        s.reading (s.reads ++ asked read logical directoryOnly)) := by
  have entry : ∀ s : Search, (do
      let source? ← readFile read (logical.push directoryEntry)
      return source?.map fun source => (logical.push directoryEntry, source) :
        Resolving (Option (ModulePath × String))).run s =
      (foundIn (logical.push directoryEntry) (read (logical.push directoryEntry)),
        s.reading (s.reads ++ [logical.push directoryEntry])) := by
    intro s
    rw [run_bind, run_readFile_eq]
    cases read (logical.push directoryEntry) <;> rfl
  unfold locate fileFor asked
  dsimp only
  generalize (if directoryOnly = true then none else logical.withExtension? extension) = form
  cases form with
  | none => exact entry s
  | some file =>
    dsimp only
    rw [run_bind, run_readFile_eq]
    cases hread : read file with
    | missing =>
      have hentry := entry (s.reading (s.reads ++ [file]))
      rw [Search.reading, Search.reading, List.append_assoc] at hentry
      rw [if_pos rfl, if_pos rfl]
      exact hentry
    | text source | failed reason =>
      rw [if_neg ReadOutcome.noConfusion, if_neg ReadOutcome.noConfusion, hread]
      rfl

/-! ## One visit -/

section Visits

variable (read : ModulePath → ReadOutcome) (bound : Nat) (importer? : Option Importer)
  (logical : ModulePath) (directoryOnly : Bool) (s : Search)

/-- How a visit of a module can end, when `bound` more modules may be open inside it. -/
inductive VisitCase : Except Failure Nat × Search → Prop where
  /-- The module was finished before. -/
  | shared {position} (mark : s.marks.lookup logical = some (.finished position)) :
      VisitCase (.ok position, s)
  /-- The imports of the module are still followed. -/
  | circular (mark : s.marks.lookup logical = some .visiting) :
      VisitCase (.error (failFor importer? (.circularDependency logical)), s)
  | nameless (unnamed : logical.last? = none) :
      VisitCase (.error (failFor importer? .emptyModulePath), s)
  | unreadable {reason reads} (failed : read (fileFor read logical directoryOnly) = .failed reason)
      (asks : reads = s.reads ++ asked read logical directoryOnly)
      (fresh : s.marks.lookup logical = none) :
      VisitCase (.error (.sourceUnreadable reason), (s.opened logical).reading reads)
  | unfound {rel reads} (missing : read (fileFor read logical directoryOnly) = .missing)
      (asks : reads = s.reads ++ asked read logical directoryOnly)
      (fresh : s.marks.lookup logical = none) :
      VisitCase (.error (failFor importer? (notFound rel logical directoryOnly)),
        (s.opened logical).reading reads)
  | unparsed {name source e reads} (named : logical.last? = some name)
      (text : read (fileFor read logical directoryOnly) = .text source)
      (parsed : Tree.parse source name = .error e)
      (asks : reads = s.reads ++ asked read logical directoryOnly)
      (fresh : s.marks.lookup logical = none) :
      VisitCase (.error (.attributed ⟨logical, fileFor read logical directoryOnly⟩ e),
        (s.opened logical).reading reads)
  /-- One of the imports fails. -/
  | stopped {name source} {tree : Tree.Module} {reads e t} (fresh : s.marks.lookup logical = none)
      (named : logical.last? = some name)
      (text : read (fileFor read logical directoryOnly) = .text source)
      (parsed : Tree.parse source name = .ok tree)
      (followed : (followImports (fun importer => visit read bound (some importer))
        ⟨logical, fileFor read logical directoryOnly⟩ tree.imports).run
          ((s.opened logical).reading reads) = (.error e, t))
      (asks : reads = s.reads ++ asked read logical directoryOnly) : VisitCase (.error e, t)
  /-- The module is finished, behind all that it imports. -/
  | closed {name source} {tree : Tree.Module} {reads imports} {t : Search}
      (fresh : s.marks.lookup logical = none) (named : logical.last? = some name)
      (text : read (fileFor read logical directoryOnly) = .text source)
      (parsed : Tree.parse source name = .ok tree)
      (followed : (followImports (fun importer => visit read bound (some importer))
        ⟨logical, fileFor read logical directoryOnly⟩ tree.imports).run
          ((s.opened logical).reading reads) = (.ok imports, t))
      (asks : reads = s.reads ++ asked read logical directoryOnly) :
      VisitCase (.ok t.finished.length,
        t.closed ⟨⟨logical, fileFor read logical directoryOnly⟩, source, tree, imports⟩)

theorem visitCase : VisitCase read bound importer? logical directoryOnly s
    ((visit read (bound + 1) importer? logical directoryOnly).run s) := by
  change VisitCase _ _ _ _ _ _ ((get >>= _ : Resolving Nat).run s)
  rw [run_get_bind]
  split
  · next mark => exact .shared mark
  · next mark => exact .circular mark
  · next unnamed => exact .nameless unnamed
  · next name fresh named =>
    change VisitCase _ _ _ _ _ _
      ((locate read logical directoryOnly >>= _).run (s.opened logical))
    rw [run_bind, run_locate_fileFor]
    cases hread : read (fileFor read logical directoryOnly) with
    | failed reason => exact .unreadable hread rfl fresh
    | missing => exact .unfound hread rfl fresh
    | text source =>
      dsimp only [foundIn]
      cases hparse : Tree.parse source name with
      | error e => exact .unparsed named hread hparse rfl fresh
      | ok tree =>
        dsimp only
        rw [run_bind]
        rcases hfollow : (followImports (fun importer => visit read bound (some importer))
          ⟨logical, fileFor read logical directoryOnly⟩ tree.imports).run
            ((s.opened logical).reading ((s.opened logical).reads ++
              asked read logical directoryOnly)) with ⟨e | imports, t⟩
        · exact .stopped fresh named hread hparse hfollow rfl
        · exact .closed fresh named hread hparse hfollow rfl

end Visits

section Follows

variable (visit : Importer → ModulePath → Bool → Resolving Nat) (origin : ModuleOrigin)
  (item : Tree.Import) (rest : List Tree.Import) (s : Search)

/-- How following the imports of a module can end, from its first one on. -/
inductive FollowCase : Except Failure (List (Span × Nat)) × Search → Prop where
  | global {path} (fromTop : item.path = .fromTop path) :
      FollowCase (.error (.attributed origin ⟨item.span, .notImplemented .globalImports⟩), s)
  | unresolvable {rel} (relative : item.path = .relative rel)
      (unresolved : origin.full.resolve? rel = none) :
      FollowCase (.error (.attributed origin ⟨item.span, .unresolvable rel origin.logical⟩), s)
  | failed {rel : RelativePath} {target e t}
      (relative : item.path = .relative rel) (resolved : origin.full.resolve? rel = some target)
      (visited : (visit ⟨origin, item.span, rel⟩ target rel.parentsOnly).run s = (.error e, t)) :
      FollowCase (.error e, t)
  | stopped {rel : RelativePath} {target position e t t'} (relative : item.path = .relative rel)
      (resolved : origin.full.resolve? rel = some target)
      (visited : (visit ⟨origin, item.span, rel⟩ target rel.parentsOnly).run s = (.ok position, t))
      (followed : (followImports visit origin rest).run t = (.error e, t')) :
      FollowCase (.error e, t')
  | followed {rel : RelativePath} {target position others t t'}
      (relative : item.path = .relative rel) (resolved : origin.full.resolve? rel = some target)
      (visited : (visit ⟨origin, item.span, rel⟩ target rel.parentsOnly).run s = (.ok position, t))
      (followed : (followImports visit origin rest).run t = (.ok others, t')) :
      FollowCase (.ok ((item.span, position) :: others), t')

theorem followCase :
    FollowCase visit origin item rest s ((followImports visit origin (item :: rest)).run s) := by
  rw [followImports]
  split
  · next fromTop => exact .global fromTop
  · next rel relative =>
    split
    · next unresolved => exact .unresolvable relative unresolved
    · next target resolved =>
      rw [run_bind]
      rcases hvisit : (visit ⟨origin, item.span, rel⟩ target rel.parentsOnly).run s with
        ⟨e | position, t⟩
      · exact .failed relative resolved hvisit
      dsimp only
      rw [run_bind]
      rcases hfollow : (followImports visit origin rest).run t with ⟨e | others, t'⟩
      · exact .stopped relative resolved hvisit hfollow
      · exact .followed relative resolved hvisit hfollow

end Follows

/-- The search for a root starts with nothing marked. -/
theorem linearize_eq_ok {sources : Sources} {root : ModulePath} {out : List ResolvedModule}
    (h : (linearize sources root).1 = .ok out) :
    ∃ position s, (visit sources.read (depthBound sources.fileCount root) none root false).run
      Search.empty = (.ok position, s) ∧ s.finished = out := by
  unfold linearize at h
  rcases hrun : (visit sources.read (depthBound sources.fileCount root) none root false).run
    Search.empty with ⟨e | position, s⟩ <;> rw [hrun] at h
  · cases h
  · exact ⟨position, s, rfl, Except.ok.inj h⟩

end ClassLang.Resolve
