import ClassLang.Proofs.ErrorOrigins
import ClassLang.Proofs.Cycles

/-!
# The files that a search asks for

A search is a list of requests, each for a module by its name or by its directory, and no two for the
same module (`Requested`, from `visit_goes`). The files that it asks for are those of its requests.
But modules with different names can be in one file: the entry of a directory is the file of the
directory, and also that of the module with the name of the entry in it. `reads_nodup_iff` says that
this is the only way in which a file is asked for twice, and `entry_read_twice` is a case of it.
-/

set_option autoImplicit false

namespace ClassLang.Resolve

open List Search

/-! ## Requests -/

/-- A wish for a module: by its name, or only by its directory. -/
structure Request where
  logical : ModulePath
  directoryOnly : Bool
deriving DecidableEq

/-- The name under which the entry of a directory is a module of its own. -/
def entryName : String := "main"

namespace Request

section

variable (read : ModulePath → ReadOutcome) (q : Request)

/-- The module, in the file that is meant. -/
def origin : ModuleOrigin := ⟨q.logical, fileFor read q.logical q.directoryOnly⟩

/-- The files that are asked for. -/
def files : List ModulePath := asked read q.logical q.directoryOnly

/-- The file with the name of the module, unless only the directory is looked into. -/
def named : List ModulePath :=
  if q.directoryOnly then [] else (q.logical.withExtension? extension).toList

/-- The directory is looked into. -/
def LooksInside : Prop := ∀ file ∈ q.named, read file = .missing

instance : Decidable (q.LooksInside read) :=
  inferInstanceAs (Decidable (∀ file ∈ q.named, read file = .missing))

/-- The entry of the directory, if it is looked into. -/
def entry : List ModulePath := if q.LooksInside read then [q.logical.push directoryEntry] else []

/-- First comes the file with the name, then the entry. -/
theorem files_eq : q.files read = q.named ++ q.entry read := by
  obtain ⟨logical, directoryOnly⟩ := q
  cases directoryOnly with
  | true => simp [files, asked, named, entry, LooksInside]
  | false =>
    cases hfile : logical.withExtension? extension with
    | none => simp [files, asked, named, entry, LooksInside, hfile]
    | some file =>
      by_cases hmissing : read file = .missing
      · simp [files, asked, named, entry, LooksInside, hfile, hmissing]
      · simp [files, asked, named, entry, LooksInside, hfile, hmissing]

end

variable {read : ModulePath → ReadOutcome} {q q' : Request} {file : ModulePath}

theorem mem_named_iff : file ∈ q.named ↔
    q.directoryOnly = false ∧ q.logical.withExtension? extension = some file := by
  unfold named
  split <;> simp_all

theorem mem_entry_iff : file ∈ q.entry read ↔
    q.LooksInside read ∧ file = q.logical.push directoryEntry := by
  unfold entry
  split <;> simp_all

theorem full_mem_files (q : Request) : (q.origin read).full ∈ q.files read :=
  fileFor_mem_asked read q.logical q.directoryOnly

theorem full_of_looksInside (h : q.LooksInside read) :
    (q.origin read).full = q.logical.push directoryEntry := by
  unfold origin fileFor
  split
  · next file hfile =>
    refine if_pos (h file ?_)
    rw [mem_named_iff]
    split at hfile
    · cases hfile
    · next hform => exact ⟨Bool.eq_false_iff.2 hform, hfile⟩
  · rfl

theorem withExtension?_push_entryName (logical : ModulePath) :
    (logical.push entryName).withExtension? extension = some (logical.push directoryEntry) := by
  simp [ModulePath.withExtension?, ModulePath.push]
  rfl

/-- A file is asked for by name and as an entry just when one module is the entry of the other. -/
theorem logical_eq_of_named_entry (hnamed : file ∈ q'.named) (hentry : file ∈ q.entry read) :
    q' = ⟨q.logical.push entryName, false⟩ := by
  obtain ⟨hform, hfile⟩ := mem_named_iff.1 hnamed
  obtain ⟨-, rfl⟩ := mem_entry_iff.1 hentry
  have hlogical := withExtension?_injective hfile (withExtension?_push_entryName q.logical)
  obtain ⟨logical, directoryOnly⟩ := q'
  obtain rfl : logical = _ := hlogical
  obtain rfl : directoryOnly = false := hform
  rfl

end Request

/-! ## The requests of a search -/

/-- The requests that a search for a root can make, in order: first the root by its name, then
imports of modules that were found, each under a name that was not asked for before. -/
inductive Requested (read : ModulePath → ReadOutcome) (root : ModulePath) : List Request → Prop where
  | none : Requested read root []
  | root : Requested read root [⟨root, false⟩]
  | next {requests : List Request} {importer q : Request} {span : Span} {rel : RelativePath}
      (before : Requested read root requests) (asked : importer ∈ requests)
      (imports : HasImport read (importer.origin read) span rel q.logical)
      (form : q.directoryOnly = rel.parentsOnly) (fresh : q.logical ∉ requests.map Request.logical) :
      Requested read root (requests ++ [q])

theorem Requested.nodup {read : ModulePath → ReadOutcome} {root : ModulePath}
    {requests : List Request} (h : Requested read root requests) :
    (requests.map Request.logical).Nodup := by
  induction h with
  | none => exact nodup_nil
  | root => exact nodup_singleton _
  | next _ _ _ _ fresh ih =>
    rw [map_append, nodup_append]
    refine ⟨ih, nodup_singleton _, ?_⟩
    intro a ha b hb heq
    obtain rfl := mem_singleton.1 hb
    exact fresh (heq ▸ ha)

/-- The state of a search that made these requests. -/
structure Search.Made (s : Search) (read : ModulePath → ReadOutcome) (root : ModulePath)
    (requests : List Request) : Prop where
  requested : Requested read root requests
  reads : s.reads = requests.flatMap (Request.files read)
  marked : ∀ q ∈ requests, s.marks.lookup q.logical ≠ none

/-- The request may be made next. -/
def Due (read : ModulePath → ReadOutcome) (root : ModulePath) (requests : List Request)
    (q : Request) : Prop :=
  requests = [] ∧ q = ⟨root, false⟩ ∨
    ∃ importer ∈ requests, ∃ span rel, HasImport read (importer.origin read) span rel q.logical ∧
      q.directoryOnly = rel.parentsOnly

/-- From `s` on, the search made more requests, and if all went well, each of them finished one
module. -/
def Search.Goes (read : ModulePath → ReadOutcome) (root : ModulePath) (requests : List Request)
    (s t : Search) (done : Prop) : Prop :=
  ∃ more, t.Made read root (requests ++ more) ∧ (done →
    (t.finished.map ResolvedModule.origin).Perm
      (s.finished.map ResolvedModule.origin ++ more.map (Request.origin read)))

section Made

variable {read : ModulePath → ReadOutcome} {root : ModulePath} {requests : List Request}
  {s t : Search}

theorem Search.lookup_cons_ne_none {path logical : ModulePath} {mark : Mark}
    {marks : List (ModulePath × Mark)} (h : path ≠ logical → marks.lookup path ≠ none) :
    lookup path ((logical, mark) :: marks) ≠ none := by
  by_cases heq : path = logical
  · simp [heq]
  · rw [lookup_cons_of_ne heq]
    exact h heq

theorem Search.Made.goes (made : s.Made read root requests) (done : Prop) :
    Goes read root requests s s done := by
  refine ⟨[], ?_, ?_⟩
  · rwa [append_nil]
  · simp

/-- A request that is due is made: its files are asked for. -/
theorem Search.Made.opened (made : s.Made read root requests) {q : Request}
    (due : Due read root requests q) (fresh : s.marks.lookup q.logical = none) :
    ((s.opened q.logical).reading (s.reads ++ q.files read)).Made read root (requests ++ [q]) := by
  refine ⟨?_, ?_, ?_⟩
  · rcases due with ⟨rfl, rfl⟩ | ⟨importer, hasked, span, rel, himports, hform⟩
    · exact .root
    refine .next made.requested hasked himports hform ?_
    intro hmem
    obtain ⟨q', hq', heq⟩ := mem_map.1 hmem
    exact made.marked q' hq' (heq ▸ fresh)
  · rw [flatMap_append, ← made.reads]
    simp [reading]
  · intro q' hq'
    refine lookup_cons_ne_none fun hne => ?_
    rcases mem_append.1 hq' with hq' | hq'
    · exact made.marked q' hq'
    · exact absurd (congrArg Request.logical (mem_singleton.1 hq')) hne

theorem Search.Made.closed (made : s.Made read root requests) (m : ResolvedModule) :
    (s.closed m).Made read root requests :=
  ⟨made.requested, made.reads, fun q hq => lookup_cons_ne_none fun _ => made.marked q hq⟩

theorem Search.Goes.imp {done done' : Prop} (h : Goes read root requests s t done)
    (himp : done' → done) : Goes read root requests s t done' := by
  obtain ⟨more, made, hdone⟩ := h
  exact ⟨more, made, fun h => hdone (himp h)⟩

/-- One search behind another that went well. -/
theorem Search.Goes.trans {more : List Request} {u : Search} {done : Prop}
    (second : Goes read root (requests ++ more) t u done)
    (first : (t.finished.map ResolvedModule.origin).Perm
      (s.finished.map ResolvedModule.origin ++ more.map (Request.origin read))) :
    Goes read root requests s u done := by
  obtain ⟨others, made, hdone⟩ := second
  refine ⟨more ++ others, by rwa [append_assoc] at made, fun h => (hdone h).trans ?_⟩
  rw [map_append, ← append_assoc]
  exact first.append_right _

/-- What following imports does, if each visit does so. -/
theorem followImports_goes {bound : Nat}
    (hvisit : ∀ importer? q requests s r t, s.Made read root requests → Due read root requests q →
      (visit read bound importer? q.logical q.directoryOnly).run s = (r, t) →
      Goes read root requests s t (∃ position, r = .ok position))
    {m : Request} {tree : Tree.Module} (hm : m ∈ requests) (htree : HasTree read (m.origin read) tree)
    {items : List Tree.Import} (hitems : items ⊆ tree.imports) (made : s.Made read root requests)
    {r : Except Failure (List (Span × Nat))}
    (h : (followImports (fun importer => visit read bound (some importer)) (m.origin read)
      items).run s = (r, t)) :
    Goes read root requests s t (∃ entries, r = .ok entries) := by
  induction items generalizing s r requests with
  | nil =>
    cases h
    exact made.goes _
  | cons item rest ih =>
    obtain ⟨hitem, hrest⟩ := cons_subset.1 hitems
    have hcase := followCase (fun importer => visit read bound (some importer)) (m.origin read)
      item rest s
    rw [h] at hcase
    have due : ∀ {rel : RelativePath} {target : ModulePath}, item.path = .relative rel →
        (m.origin read).full.resolve? rel = some target →
        Due read root requests ⟨target, rel.parentsOnly⟩ := fun hpath hresolve =>
      .inr ⟨m, hm, item.span, _, ⟨tree, item, htree, hitem, rfl, hpath, hresolve⟩, rfl⟩
    cases hcase with
    | global => exact made.goes _
    | unresolvable => exact made.goes _
    | failed relative resolved visited =>
      refine (hvisit _ ⟨_, _⟩ _ _ _ _ made (due relative resolved) visited).imp ?_
      rintro ⟨entries, hentries⟩
      cases hentries
    | stopped relative resolved visited followed =>
      obtain ⟨more, made', hdone⟩ := hvisit _ ⟨_, _⟩ _ _ _ _ made (due relative resolved) visited
      have hothers := ih (mem_append_left more hm) hrest made' followed
      exact hothers.trans (hdone ⟨_, rfl⟩)
    | followed relative resolved visited followed =>
      obtain ⟨more, made', hdone⟩ := hvisit _ ⟨_, _⟩ _ _ _ _ made (due relative resolved) visited
      have hothers := ih (mem_append_left more hm) hrest made' followed
      exact (hothers.trans (hdone ⟨_, rfl⟩)).imp fun _ => ⟨_, rfl⟩

/-- **A visit** makes one request, behind which come those of the imports, or none. -/
theorem visit_goes {bound : Nat} {importer? : Option Importer} {q : Request}
    {r : Except Failure Nat} (made : s.Made read root requests) (due : Due read root requests q)
    (h : (visit read bound importer? q.logical q.directoryOnly).run s = (r, t)) :
    Goes read root requests s t (∃ position, r = .ok position) := by
  induction bound generalizing importer? q requests s t r with
  | zero =>
    cases h
    exact made.goes _
  | succ bound ih =>
    have hcase := visitCase read bound importer? q.logical q.directoryOnly s
    rw [h] at hcase
    -- the imports are followed when the request itself has been made
    have hfollow : ∀ {name source tree reads r' t'}, s.marks.lookup q.logical = none →
        q.logical.last? = some name → read (fileFor read q.logical q.directoryOnly) = .text source →
        Tree.parse source name = .ok tree → reads = s.reads ++ asked read q.logical q.directoryOnly →
        (followImports (fun importer => visit read bound (some importer)) (q.origin read)
          tree.imports).run ((s.opened q.logical).reading reads) = (r', t') →
        Goes read root (requests ++ [q]) ((s.opened q.logical).reading reads) t'
          (∃ entries, r' = .ok entries) := by
      rintro name source tree reads r' t' fresh named text parsed rfl followed
      exact followImports_goes (fun _ _ _ _ _ _ => ih) (mem_append_right _ mem_cons_self)
        ⟨name, source, named, text, parsed⟩ (Subset.refl _) (made.opened due fresh) followed
    have hfailed : ∀ {reads : List ModulePath} {e : Failure}, s.marks.lookup q.logical = none →
        reads = s.reads ++ asked read q.logical q.directoryOnly →
        Goes read root requests s ((s.opened q.logical).reading reads)
          (∃ position, (.error e : Except Failure Nat) = .ok position) := by
      rintro reads e fresh rfl
      refine ⟨[q], made.opened due fresh, ?_⟩
      rintro ⟨position, hposition⟩
      cases hposition
    cases hcase with
    | shared | circular | nameless => exact made.goes _
    | unreadable _ asks fresh | unfound _ asks fresh => exact hfailed fresh asks
    | unparsed _ _ _ asks fresh => exact hfailed fresh asks
    | stopped fresh named text parsed followed asks =>
      obtain ⟨more, made', -⟩ := hfollow fresh named text parsed asks followed
      refine ⟨[q] ++ more, by rwa [append_assoc] at made', ?_⟩
      rintro ⟨position, hposition⟩
      cases hposition
    | @closed name source tree reads imports t fresh named text parsed followed asks =>
      obtain ⟨more, made', hdone⟩ := hfollow fresh named text parsed asks followed
      refine ⟨[q] ++ more, ?_, fun _ => ?_⟩
      · rw [append_assoc] at made'
        exact made'.closed _
      · have hperm := (hdone ⟨imports, rfl⟩).append_right [q.origin read]
        rw [append_assoc] at hperm
        rw [closed, map_append]
        exact hperm.trans (perm_append_comm.append_left _)

end Made

/-! ## Files that are asked for twice -/

/-- A directory is looked into whose entry is also asked for by the name that it has as a module. -/
def EntryByName (read : ModulePath → ReadOutcome) (requests : List Request) : Prop :=
  ∃ q ∈ requests, q.LooksInside read ∧ ⟨q.logical.push entryName, false⟩ ∈ requests

section Twice

variable {read : ModulePath → ReadOutcome} {root : ModulePath} {requests : List Request}

/-- The files asked for, once by name and once as entries. -/
theorem files_perm (read : ModulePath → ReadOutcome) (requests : List Request) :
    (requests.flatMap (Request.files read)).Perm
      (requests.flatMap Request.named ++ requests.flatMap (Request.entry read)) := by
  have hfiles : Request.files read = fun q => q.named ++ q.entry read :=
    funext fun q => q.files_eq read
  rw [hfiles]
  exact (flatMap_append_perm _ _ _).symm

/-- Requests for different modules ask for different files, if each asks for one file at most, by
which the module is known. -/
theorem nodup_flatMap_of_logical {files : Request → List ModulePath}
    (names : (requests.map Request.logical).Nodup) (each : ∀ q, (files q).Nodup)
    (known : ∀ q q' file, file ∈ files q → file ∈ files q' → q.logical = q'.logical) :
    (requests.flatMap files).Nodup := by
  rw [nodup_flatMap]
  refine ⟨fun q _ => each q, ?_⟩
  refine (pairwise_map.1 names).imp ?_
  intro q q' hne file hfile hfile'
  exact hne (known q q' file hfile hfile')

theorem nodup_named (h : Requested read root requests) : (requests.flatMap Request.named).Nodup := by
  refine nodup_flatMap_of_logical h.nodup ?_ ?_
  · intro q
    unfold Request.named
    split
    · exact nodup_nil
    · cases q.logical.withExtension? extension <;> simp
  · intro q q' file hfile hfile'
    exact withExtension?_injective (Request.mem_named_iff.1 hfile).2 (Request.mem_named_iff.1 hfile').2

theorem nodup_entry (h : Requested read root requests) :
    (requests.flatMap (Request.entry read)).Nodup := by
  refine nodup_flatMap_of_logical h.nodup ?_ ?_
  · intro q
    unfold Request.entry
    split <;> simp
  · intro q q' file hfile hfile'
    have hpush := (Request.mem_entry_iff.1 hfile).2.symm.trans (Request.mem_entry_iff.1 hfile').2
    exact congrArg ModulePath.mk (append_cancel_right (ModulePath.mk.inj hpush))

/-- **Files asked for twice** are entries that are asked for by name too. -/
theorem nodup_files_iff (h : Requested read root requests) :
    (requests.flatMap (Request.files read)).Nodup ↔ ¬ EntryByName read requests := by
  rw [(files_perm read requests).nodup_iff, nodup_append]
  constructor
  · rintro ⟨-, -, hdisjoint⟩ ⟨q, hq, hinside, hnamed⟩
    refine hdisjoint _ (mem_flatMap.2 ⟨_, hnamed, ?_⟩) _
      (mem_flatMap.2 ⟨q, hq, Request.mem_entry_iff.2 ⟨hinside, rfl⟩⟩) rfl
    exact Request.mem_named_iff.2 ⟨rfl, Request.withExtension?_push_entryName q.logical⟩
  · intro hnot
    refine ⟨nodup_named h, nodup_entry h, ?_⟩
    rintro file hfile file' hfile' rfl
    obtain ⟨q', hq', hnamed⟩ := mem_flatMap.1 hfile
    obtain ⟨q, hq, hentry⟩ := mem_flatMap.1 hfile'
    obtain rfl := Request.logical_eq_of_named_entry hnamed hentry
    exact hnot ⟨q, hq, (Request.mem_entry_iff.1 hentry).1, hq'⟩

theorem count_files_le (h : Requested read root requests) (file : ModulePath) :
    (requests.flatMap (Request.files read)).count file ≤ 2 := by
  rw [(files_perm read requests).count_eq, count_append]
  have hnamed := nodup_iff_count_le_one.1 (nodup_named h) file
  have hentry := nodup_iff_count_le_one.1 (nodup_entry h) file
  omega

/-- If each request finds its module, a file is asked for twice just when it is that of two
modules. -/
theorem nodup_files_iff_full (h : Requested read root requests)
    (found : ∀ q ∈ requests, read (q.origin read).full ≠ .missing) :
    (requests.flatMap (Request.files read)).Nodup ↔
      (requests.map fun q => (q.origin read).full).Nodup := by
  constructor
  · intro hnodup
    have hpairs := (nodup_flatMap.1 hnodup).2
    refine pairwise_map.2 (hpairs.imp ?_)
    intro q q' hdisjoint heq
    exact hdisjoint q.full_mem_files (heq ▸ q'.full_mem_files)
  · intro hfulls
    rw [nodup_files_iff h]
    rintro ⟨q, hq, hinside, hnamed⟩
    have hentry := Request.full_of_looksInside hinside
    have hpresent := found q hq
    rw [hentry] at hpresent
    have hfull : ((⟨q.logical.push entryName, false⟩ : Request).origin read).full =
        q.logical.push directoryEntry :=
      fileFor_of_exists (Request.withExtension?_push_entryName q.logical) hpresent
    -- the two requests are different, since one path is longer
    have heq := inj_on_of_nodup_map hfulls hq hnamed (hentry.trans hfull.symm)
    have hlength := congrArg (fun r : Request => r.logical.parts.length) heq
    simp [ModulePath.push] at hlength

end Twice

/-- **Each module is searched for once.** The files that a search asks for are those of its
requests, each of which is for another module. No file is asked for more than twice, and one is
asked for twice exactly if it is the entry of a directory that is looked into and also asked for by
its own name. A search that succeeds has then found two modules in this file. -/
theorem reads_nodup_iff (sources : Sources) (root : ModulePath) :
    ∃ requests, Requested sources.read root requests ∧
      (linearize sources root).2 = requests.flatMap (Request.files sources.read) ∧
      (∀ file, (linearize sources root).2.count file ≤ 2) ∧
      ((linearize sources root).2.Nodup ↔ ¬ EntryByName sources.read requests) ∧
      ∀ out, (linearize sources root).1 = .ok out →
        ((linearize sources root).2.Nodup ↔ (out.map fun m => m.origin.full).Nodup) := by
  rcases hrun : (visit sources.read (depthBound sources.fileCount root) none root false).run
    Search.empty with ⟨r, t⟩
  have made : Search.empty.Made sources.read root [] := ⟨.none, rfl, forall_mem_nil _⟩
  obtain ⟨requests, made, hdone⟩ :=
    visit_goes (q := ⟨root, false⟩) made (.inl ⟨rfl, rfl⟩) hrun
  rw [nil_append] at made
  have hreads : (linearize sources root).2 = requests.flatMap (Request.files sources.read) := by
    rw [← made.reads]
    unfold linearize
    rw [hrun]
  refine ⟨requests, made.requested, hreads, ?_, ?_, ?_⟩
  · intro file
    rw [hreads]
    exact count_files_le made.requested file
  · rw [hreads]
    exact nodup_files_iff made.requested
  · intro out hout
    obtain ⟨position, s, hrun', rfl⟩ := linearize_eq_ok hout
    obtain ⟨rfl, rfl⟩ := Prod.mk.inj (hrun.symm.trans hrun')
    have hperm := hdone ⟨position, rfl⟩
    rw [Search.empty, map_nil, nil_append] at hperm
    have hfulls : (t.finished.map fun m => m.origin.full).Perm
        (requests.map fun q => (q.origin sources.read).full) := by
      simpa [Function.comp_def] using hperm.map ModuleOrigin.full
    rw [hreads, hfulls.nodup_iff]
    refine nodup_files_iff_full made.requested fun q hq => ?_
    obtain ⟨m, hm, horigin⟩ := mem_map.1 (hperm.mem_iff.2 (mem_map_of_mem hq))
    have htext := (linearize_read hout hm).1.text
    rw [horigin] at htext
    simp [htext]

/-- A root with two imports, which ask for the same file: one for the directory, one for its entry by
name. -/
def twoNamesFiles : Files :=
  ⟨[(⟨["app.nz"]⟩, .text "import\n\t.left\n\t.right\nfun Int x()\n\t1\n"),
    (⟨["left.nz"]⟩, .text "import\n\t.pkg\nfun Int x()\n\t1\n"),
    (⟨["right.nz"]⟩, .text "import\n\t.pkg.main\nfun Int x()\n\t1\n"),
    (⟨["pkg", "main.nz"]⟩, .text "fun Int x()\n\t1\n")]⟩

/-- The entry of the directory is read once for each name, and becomes two modules. -/
theorem entry_read_twice :
    ((linearize twoNamesFiles.sources ⟨["app"]⟩).1.map fun out =>
        out.map ResolvedModule.origin).toOption =
      some [⟨⟨["pkg"]⟩, ⟨["pkg", "main.nz"]⟩⟩, ⟨⟨["left"]⟩, ⟨["left.nz"]⟩⟩,
        ⟨⟨["pkg", "main"]⟩, ⟨["pkg", "main.nz"]⟩⟩, ⟨⟨["right"]⟩, ⟨["right.nz"]⟩⟩,
        ⟨⟨["app"]⟩, ⟨["app.nz"]⟩⟩] ∧
      (linearize twoNamesFiles.sources ⟨["app"]⟩).2 = [⟨["app.nz"]⟩, ⟨["left.nz"]⟩, ⟨["pkg.nz"]⟩,
        ⟨["pkg", "main.nz"]⟩, ⟨["right.nz"]⟩, ⟨["pkg", "main.nz"]⟩] := by
  decide +kernel

end ClassLang.Resolve
