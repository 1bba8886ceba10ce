import ClassLang.Proofs.FileForms
import ClassLang.Proofs.ParserFaults
import Mathlib.Data.List.Perm.Subperm
import Mathlib.Data.List.ProdSigma

/-!
# Cycles of imports

The modules that a root needs form a graph: `Needs` goes from a module to the one that an import of
it means, in the file that the import asks for. The search is exact about cycles in it. While the
search runs, the modules that are marked as open are the chain of imports that it has followed from
the root (`Search.Opens`), so a module that is met while it is open closes a cycle
(`visit_fails`, by induction on the number of modules that may be open), and a search that succeeds
has put every module behind those that it needs (`OriginAt.needs`), so there is none.

The bound on the number of open modules is never met, if the files are counted right: a file is known
by two names at most (`length_le_of_located`).
-/

set_option autoImplicit false

namespace ClassLang

open List

/-- A module that is met while its own imports are followed. -/
def Failure.isCircular : Failure → Bool
  | .inModule ⟨_, _, .circularDependency _⟩ => true
  | _ => false

theorem Failure.isCircular_iff {e : Failure} : e.isCircular = true ↔
    ∃ origin? span path, e = .inModule ⟨origin?, ⟨span, .circularDependency path⟩⟩ := by
  constructor
  · intro h
    unfold isCircular at h
    split at h
    · exact ⟨_, _, _, rfl⟩
    · cases h
  · rintro ⟨origin?, span, path, rfl⟩
    rfl

variable {read : ModulePath → ReadOutcome} {logical : ModulePath} {directoryOnly : Bool}
  {m : ModuleOrigin} {stack : List ModuleOrigin}

namespace Resolve

open Relation (ReflTransGen TransGen)

/-! ## The graph of imports -/

section Graph

variable (read : ModulePath → ReadOutcome)

/-- The file of the module can be read and parsed. -/
def HasTree (m : ModuleOrigin) (tree : Tree.Module) : Prop :=
  ∃ name source, m.logical.last? = some name ∧ read m.full = .text source ∧
    Tree.parse source name = .ok tree

/-- The module has an import at a place, whose path means `target` in its file. -/
def HasImport (m : ModuleOrigin) (span : Span) (rel : RelativePath) (target : ModulePath) : Prop :=
  ∃ tree item, HasTree read m tree ∧ item ∈ tree.imports ∧ item.span = span ∧
    item.path = .relative rel ∧ m.full.resolve? rel = some target

/-- The first module imports the second, which is in the file that the import asks for. -/
def Needs (m m' : ModuleOrigin) : Prop :=
  ∃ span rel, HasImport read m span rel m'.logical ∧
    m'.full = fileFor read m'.logical rel.parentsOnly

/-- The root needs the module, by itself or for one that it needs. -/
def Needed (root : ModulePath) : ModuleOrigin → Prop :=
  ReflTransGen (Needs read) ⟨root, fileFor read root false⟩

/-- Among the modules that the root needs, one needs itself along a chain of imports. -/
def HasCycle (root : ModulePath) : Prop :=
  ∃ m, Needed read root m ∧ TransGen (Needs read) m m

/-- The module can be read and parsed, and all its imports are relative and mean something. -/
def Usable (m : ModuleOrigin) : Prop :=
  ∃ tree, HasTree read m tree ∧ ∀ item ∈ tree.imports,
    ∃ rel target, item.path = .relative rel ∧ m.full.resolve? rel = some target

end Graph

section Graph

variable {root : ModulePath} {m' : ModuleOrigin}

theorem HasTree.unique {tree tree' : Tree.Module} (h : HasTree read m tree)
    (h' : HasTree read m tree') : tree = tree' := by
  obtain ⟨name, source, hname, htext, hparse⟩ := h
  obtain ⟨name', source', hname', htext', hparse'⟩ := h'
  cases hname.symm.trans hname'
  cases htext.symm.trans htext'
  exact Except.ok.inj (hparse.symm.trans hparse')

theorem Usable.text (h : Usable read m) : ∃ source, read m.full = .text source := by
  obtain ⟨tree, ⟨name, source, -, htext, -⟩, -⟩ := h
  exact ⟨source, htext⟩

theorem Needs.located (h : Needs read m m') : Located m' := by
  obtain ⟨span, rel, -, hfull⟩ := h
  have hlocated := located_fileFor read m'.logical rel.parentsOnly
  rwa [← hfull] at hlocated

theorem Needed.located (h : Needed read root m) : Located m := by
  cases h with
  | refl => exact located_fileFor read root false
  | tail _ needs => exact needs.located

end Graph

/-! ## Open modules -/

/-- Who asks for a module while others are open, the innermost first: nobody asks for the root, and
the innermost open module asks for what it imports. -/
inductive Asks (read : ModulePath → ReadOutcome) (root : ModulePath) :
    List ModuleOrigin → Option Importer → ModulePath → Bool → Prop where
  | root : Asks read root [] none root false
  | imported {m rest span} {rel : RelativePath} {target} (has : HasImport read m span rel target) :
      Asks read root (m :: rest) (some ⟨m, span, rel⟩) target rel.parentsOnly

/-- The modules of the list are those that are open in a search. They have different names and texts,
the root needs them, and each of them leads to the first along imports. -/
structure Search.Opens (read : ModulePath → ReadOutcome) (root : ModulePath)
    (stack : List ModuleOrigin) (s : Search) : Prop where
  marked : ∀ path, s.marks.lookup path = some .visiting ↔ path ∈ stack.map ModuleOrigin.logical
  names : (stack.map ModuleOrigin.logical).Nodup
  needed : ∀ m ∈ stack, Needed read root m
  texts : ∀ m ∈ stack, ∃ source, read m.full = .text source
  inner : ∀ top ∈ stack.head?, ∀ m ∈ stack, ReflTransGen (Needs read) m top

variable {source : String} {path : ModulePath} {s : Search} {importer? : Option Importer}

section Opens

variable {root : ModulePath} {s' : Search}

theorem Search.opens_empty (read : ModulePath → ReadOutcome) (root : ModulePath) :
    Search.empty.Opens read root [] where
  marked _ := ⟨(nomatch ·), (nomatch ·)⟩
  names := nodup_nil
  needed _ hm := nomatch hm
  texts _ hm := nomatch hm
  inner _ _ _ hm := nomatch hm

/-- What is asked for is needed. -/
theorem Asks.needed (asks : Asks read root stack importer? logical directoryOnly)
    (opens : s.Opens read root stack) :
    Needed read root ⟨logical, fileFor read logical directoryOnly⟩ := by
  cases asks with
  | root => exact .refl
  | @imported m rest span rel target has =>
    exact (opens.needed m mem_cons_self).tail ⟨span, rel, has, rfl⟩

/-- Opening a module that is asked for. -/
theorem Search.Opens.opened (opens : s.Opens read root stack)
    (asks : Asks read root stack importer? logical directoryOnly)
    (fresh : s.marks.lookup logical = none)
    (text : read (fileFor read logical directoryOnly) = .text source) (reads : List ModulePath) :
    ((s.opened logical).reading reads).Opens read root
      (⟨logical, fileFor read logical directoryOnly⟩ :: stack) where
  marked path := by
    change (s.opened logical).marks.lookup path = _ ↔ _
    rw [map_cons, mem_cons, ← opens.marked path]
    by_cases hpath : path = logical
    · rw [hpath, Search.opened, lookup_cons_self]
      exact ⟨fun _ => Or.inl rfl, fun _ => rfl⟩
    · rw [Search.opened, Search.lookup_cons_of_ne hpath]
      exact ⟨Or.inr, fun h => h.resolve_left hpath⟩
  names := by
    refine nodup_cons.2 ⟨fun hmem => ?_, opens.names⟩
    have hvisiting := (opens.marked logical).2 hmem
    rw [fresh] at hvisiting
    cases hvisiting
  needed := forall_mem_cons.2 ⟨asks.needed opens, opens.needed⟩
  texts := forall_mem_cons.2 ⟨⟨source, text⟩, opens.texts⟩
  inner top htop := by
    cases htop
    refine forall_mem_cons.2 ⟨.refl, fun m hm => ?_⟩
    cases asks with
    | root => cases hm
    | @imported m' rest span rel target has =>
      exact (opens.inner m' rfl m hm).tail ⟨span, rel, has, rfl⟩

/-- A search in which the same modules are open. -/
theorem Search.Opens.same (opens : s.Opens read root stack)
    (h : ∀ path, s'.marks.lookup path = some .visiting ↔ s.marks.lookup path = some .visiting) :
    s'.Opens read root stack :=
  { opens with marked := fun path => (h path).trans (opens.marked path) }

end Opens

/-! ## Visits that succeed -/

/-- Following imports with success leaves open what was open. -/
theorem followImports_visiting {visit : Importer → ModulePath → Bool → Resolving Nat}
    (hvisit : ∀ importer target directoryOnly s position s',
      (visit importer target directoryOnly).run s = (.ok position, s') →
      (s'.marks.lookup path = some .visiting ↔ s.marks.lookup path = some .visiting))
    {origin : ModuleOrigin} {items : List Tree.Import} {entries : List (Span × Nat)} {s' : Search}
    (h : (followImports visit origin items).run s = (.ok entries, s')) :
    s'.marks.lookup path = some .visiting ↔ s.marks.lookup path = some .visiting := by
  induction items generalizing s entries with
  | nil =>
    cases h
    exact Iff.rfl
  | cons item rest ih =>
    have hcase := followCase visit origin item rest s
    rw [h] at hcase
    cases hcase with
    | followed relative resolved visited followed =>
      exact (ih followed).trans (hvisit _ _ _ _ _ _ visited)

theorem visit_visiting {bound : Nat} {s' : Search} {position : Nat}
    (h : (visit read bound importer? logical directoryOnly).run s = (.ok position, s'))
    (path : ModulePath) :
    s'.marks.lookup path = some .visiting ↔ s.marks.lookup path = some .visiting := by
  induction bound generalizing importer? logical directoryOnly s s' position with
  | zero => cases h
  | succ bound ih =>
    have hcase := visitCase read bound importer? logical directoryOnly s
    rw [h] at hcase
    cases hcase with
    | shared mark => exact Iff.rfl
    | @closed name source tree reads imports t fresh named text parsed followed =>
      have hinside := followImports_visiting (fun _ _ _ _ _ _ => ih) followed
      by_cases hpath : path = logical
      · -- it was opened and is finished
        rw [hpath, fresh, Search.closed, lookup_cons_self]
        constructor
        · intro hfinished
          cases hfinished
        · intro hnone
          cases hnone
      · rw [Search.closed, Search.lookup_cons_of_ne hpath]
        refine hinside.trans ?_
        change (s.opened logical).marks.lookup path = _ ↔ _
        rw [Search.opened, Search.lookup_cons_of_ne hpath]

/-! ## Visits that fail -/

/-- An import at a place closes a cycle: it means a module from which a chain of imports leads back
to the module that has it. -/
structure Closes (read : ModulePath → ReadOutcome) (root : ModulePath) (m : ModuleOrigin)
    (span : Span) (path : ModulePath) : Prop where
  has : ∃ rel, HasImport read m span rel path
  chain : ∃ start, start.logical = path ∧ Needed read root start ∧
    ReflTransGen (Needs read) start m ∧ (m.logical = path → start = m)

/-- Why a search fails in which at most `limit` modules may be open: an import closes a cycle, a
module cannot be used, or that many modules are open. -/
inductive Fails (read : ModulePath → ReadOutcome) (root : ModulePath) (limit : Nat) :
    Failure → Prop where
  | circular {m : ModuleOrigin} {span : Span} {path : ModulePath}
      (closes : Closes read root m span path) :
      Fails read root limit (.attributed m ⟨span, .circularDependency path⟩)
  | unusable {m : ModuleOrigin} {e : Failure} (needed : Needed read root m)
      (unusable : ¬ Usable read m) (other : e.isCircular = false) : Fails read root limit e
  | deep {stack : List ModuleOrigin} {s : Search} {e : Failure} (opens : s.Opens read root stack)
      (length : stack.length = limit) (other : e.isCircular = false) : Fails read root limit e

theorem isCircular_failFor (importer? : Option Importer) {fault : Fault}
    (h : ∀ path, fault ≠ .circularDependency path) :
    (failFor importer? fault).isCircular = false := by
  rw [← Bool.not_eq_true, Failure.isCircular_iff]
  rintro ⟨origin?, span, path, heq⟩
  cases importer? with
  | none | some importer => exact h path (congrArg CompileError.fault (congrArg ModuleError.error
      (Failure.inModule.inj heq)))

theorem isCircular_of_parse {name : String} {e : CompileError}
    (h : Tree.parse source name = .error e) (origin : ModuleOrigin) :
    (Failure.attributed origin e).isCircular = false := by
  rw [← Bool.not_eq_true, Failure.isCircular_iff]
  rintro ⟨origin?, span, path, heq⟩
  obtain ⟨-, rfl⟩ := ModuleError.mk.inj (Failure.inModule.inj heq)
  rcases (Tree.parse_error h).2.2 with ⟨hfault, -⟩ | hfault <;> cases hfault

section Fails

variable {root : ModulePath} {limit bound : Nat} {s' : Search} {e : Failure}

/-- A module that is asked for and open closes a cycle. -/
theorem Asks.closes (asks : Asks read root stack importer? logical directoryOnly)
    (opens : s.Opens read root stack) (mark : s.marks.lookup logical = some .visiting) :
    ∃ importer, importer? = some importer ∧ Closes read root importer.origin importer.span logical := by
  obtain ⟨start, hstart, hlogical⟩ := mem_map.1 ((opens.marked logical).1 mark)
  cases asks with
  | root => cases hstart
  | @imported m rest span rel target has =>
    refine ⟨_, rfl, ⟨rel, has⟩, start, hlogical, opens.needed start hstart,
      opens.inner m rfl start hstart, fun hsame => ?_⟩
    exact inj_on_of_nodup_map opens.names hstart mem_cons_self
      (hlogical.trans hsame.symm)

/-- Following the imports of the innermost open module. -/
theorem followImports_fails (hvisit : ∀ {importer? logical directoryOnly s e s'},
      Asks read root (m :: stack) importer? logical directoryOnly →
      s.Opens read root (m :: stack) →
      (visit read bound importer? logical directoryOnly).run s = (.error e, s') →
      Fails read root limit e) {tree : Tree.Module} (hastree : HasTree read m tree)
    {items : List Tree.Import} (hitems : ∀ item ∈ items, item ∈ tree.imports)
    (opens : s.Opens read root (m :: stack))
    (h : (followImports (fun importer => visit read bound (some importer)) m items).run s =
      (.error e, s')) : Fails read root limit e := by
  induction items generalizing s with
  | nil => cases h
  | cons item rest ih =>
    obtain ⟨hitem, hrest⟩ := forall_mem_cons.1 hitems
    have needed := opens.needed m mem_cons_self
    have hcase := followCase (fun importer => visit read bound (some importer)) m item rest s
    rw [h] at hcase
    cases hcase with
    | global fromTop =>
      refine .unusable needed ?_ rfl
      rintro ⟨tree', hastree', usable⟩
      obtain rfl := hastree.unique hastree'
      obtain ⟨rel, target, relative, -⟩ := usable item hitem
      cases fromTop.symm.trans relative
    | unresolvable relative unresolved =>
      refine .unusable needed ?_ rfl
      rintro ⟨tree', hastree', usable⟩
      obtain rfl := hastree.unique hastree'
      obtain ⟨rel', target, relative', resolved⟩ := usable item hitem
      cases relative.symm.trans relative'
      cases unresolved.symm.trans resolved
    | failed relative resolved visited =>
      exact hvisit (.imported ⟨tree, item, hastree, hitem, rfl, relative, resolved⟩) opens visited
    | stopped relative resolved visited followed =>
      exact ih hrest (opens.same (visit_visiting visited)) followed

/-- **Why a visit fails.** The induction is on the number of modules that may still be opened. -/
theorem visit_fails (asks : Asks read root stack importer? logical directoryOnly)
    (opens : s.Opens read root stack) (hlimit : stack.length + bound = limit)
    (h : (visit read bound importer? logical directoryOnly).run s = (.error e, s')) :
    Fails read root limit e := by
  induction bound generalizing stack importer? logical directoryOnly s e s' with
  | zero =>
    cases h
    exact .deep opens hlimit (isCircular_failFor importer? fun _ => Fault.noConfusion)
  | succ bound ih =>
    have needed := asks.needed opens
    have hcase := visitCase read bound importer? logical directoryOnly s
    rw [h] at hcase
    cases hcase with
    | circular mark =>
      obtain ⟨importer, rfl, closes⟩ := asks.closes opens mark
      exact .circular closes
    | nameless unnamed =>
      refine .unusable needed ?_ (isCircular_failFor importer? fun _ => Fault.noConfusion)
      rintro ⟨tree, ⟨name, source, hname, -⟩, -⟩
      cases unnamed.symm.trans hname
    | unreadable failed =>
      refine .unusable needed ?_ rfl
      intro usable
      obtain ⟨source, htext⟩ := usable.text
      cases failed.symm.trans htext
    | @unfound rel reads missing =>
      refine .unusable needed ?_ (isCircular_failFor importer? fun path heq => ?_)
      · intro usable
        obtain ⟨source, htext⟩ := usable.text
        cases missing.symm.trans htext
      · unfold notFound at heq
        dsimp only at heq
        split at heq <;> cases heq
    | unparsed named text parsed =>
      refine .unusable needed ?_ (isCircular_of_parse parsed _)
      rintro ⟨tree, ⟨name, source, hname, htext, hparse⟩, -⟩
      cases named.symm.trans hname
      cases text.symm.trans htext
      cases parsed.symm.trans hparse
    | @stopped name source tree reads e t fresh named text parsed followed =>
      refine followImports_fails (fun asks opens => ih asks opens ?_) ⟨name, source, named, text,
        parsed⟩ (fun _ hitem => hitem) (opens.opened asks fresh text reads) followed
      rw [length_cons]
      omega

end Fails

/-! ## Searches that succeed -/

/-- The module that came out at a position. -/
def OriginAt (out : List ResolvedModule) (i : Nat) (m : ModuleOrigin) : Prop :=
  ∃ r, out[i]? = some r ∧ r.origin = m

section Positions

variable {sources : Sources} {root : ModulePath} {i position : Nat} {m' : ModuleOrigin}

/-- What a module needs that came out is in front of it. -/
theorem OriginAt.needs (ordered : s.Ordered sources.read) (single : sources.OneFileEach)
    (h : OriginAt s.finished i m) (needs : Needs sources.read m m') (usable : Usable sources.read m') :
    ∃ j < i, OriginAt s.finished j m' := by
  obtain ⟨r, hr, rfl⟩ := h
  obtain ⟨span, rel, ⟨tree, item, hastree, hitem, -, hrel, hresolve⟩, -⟩ := id needs
  have found := ordered.found i r hr
  obtain ⟨name, hname, hparse⟩ := found.tree
  obtain rfl := hastree.unique ⟨name, r.source, hname, found.text, hparse⟩
  obtain ⟨k, hk⟩ := mem_iff_getElem?.1 hitem
  obtain ⟨entry, -, -, rel', r', hrel', hlt, hr', hresolve'⟩ := forall₂_getElem?_left found.imports hk
  cases hrel.symm.trans hrel'
  have hlogical := Option.some.inj (hresolve'.symm.trans hresolve)
  obtain ⟨source, htext⟩ := usable.text
  exact ⟨entry.2, hlt, r', hr', single.origin_eq hlogical needs.located
    (ordered.located r' (mem_of_getElem? hr')) htext (ordered.found _ _ hr').text⟩

section Usable

variable (single : sources.OneFileEach)
  (usable : ∀ m, Needed sources.read root m → Usable sources.read m)

include single usable

theorem OriginAt.chain (ordered : s.Ordered sources.read)
    (h : OriginAt s.finished i m) (needed : Needed sources.read root m)
    (chain : TransGen (Needs sources.read) m m') : ∃ j < i, OriginAt s.finished j m' := by
  induction chain with
  | single needs => exact h.needs ordered single needs (usable _ (needed.tail needs))
  | tail chain needs ih =>
    obtain ⟨j, hlt, hj⟩ := ih
    obtain ⟨k, hlt', hk⟩ := hj.needs ordered single needs
      (usable _ ((needed.trans chain.to_reflTransGen).tail needs))
    exact ⟨k, hlt'.trans hlt, hk⟩

/-- Every module that the root needs came out. -/
theorem Needed.originAt
    (visited : Visited sources.read root Search.empty position s)
    (needed : Needed sources.read root m) : ∃ i, OriginAt s.finished i m := by
  induction needed with
  | refl =>
    obtain ⟨r, hr, hlogical⟩ := visited.named
    obtain ⟨source, htext⟩ := (usable _ .refl).text
    exact ⟨position, r, hr, single.origin_eq hlogical (located_fileFor _ _ _)
      (visited.ordered.located r (mem_of_getElem? hr)) htext
      (visited.ordered.found _ _ hr).text⟩
  | tail chain needs ih =>
    obtain ⟨i, hi⟩ := ih
    obtain ⟨j, -, hj⟩ := hi.needs visited.ordered single needs (usable _ (.tail chain needs))
    exact ⟨j, hj⟩

/-- Around a cycle, the positions would get smaller and smaller. -/
theorem OriginAt.not_cycle (ordered : s.Ordered sources.read)
    (h : OriginAt s.finished i m) (needed : Needed sources.read root m) :
    ¬ TransGen (Needs sources.read) m m := by
  intro cycle
  induction i using Nat.strong_induction_on with
  | _ i ih =>
    obtain ⟨j, hlt, hj⟩ := h.chain single usable ordered needed cycle
    exact ih j hlt hj

end Usable

end Positions

/-! ## The number of files -/

/-- The number of files of the sources is right for a root: the files of the modules that the root
needs are not more, where each may be reached along each part of the path of the root. -/
def Counted (sources : Sources) (root : ModulePath) : Prop :=
  ∃ files : List ModulePath, files.length ≤ sources.fileCount * (root.parts.length + 1) ∧
    ∀ m source, Needed sources.read root m → sources.read m.full = .text source → m.full ∈ files

theorem mem_of_read {files : Files} (h : files.read path = .text source) :
    path ∈ files.entries.map Prod.fst := by
  change (files.entries.lookup path).getD .missing = .text source at h
  cases hlookup : files.entries.lookup path with
  | none =>
    rw [hlookup] at h
    cases h
  | some outcome =>
    obtain ⟨before, behind, hentries, -⟩ := lookup_eq_some_iff.1 hlookup
    refine mem_map.2 ⟨(path, outcome), ?_, rfl⟩
    rw [hentries]
    exact mem_append_right _ mem_cons_self

/-- Sources that are given file by file count them right. -/
theorem counted_files (files : Files) (root : ModulePath) : Counted files.sources root := by
  refine ⟨files.entries.map Prod.fst, ?_, fun m source _ htext => mem_of_read htext⟩
  rw [length_map]
  exact Nat.le_mul_of_pos_right _ (Nat.succ_pos _)

theorem withExtension?_injective {a b file : ModulePath} (ha : a.withExtension? extension = some file)
    (hb : b.withExtension? extension = some file) : a = b := by
  obtain ⟨name, hname, rfl⟩ := Option.map_eq_some_iff.1 ha
  obtain ⟨name', hname', heq⟩ := Option.map_eq_some_iff.1 hb
  obtain ⟨hfront, hlast⟩ := append_inj' (ModulePath.mk.inj heq) rfl
  obtain rfl := (String.append_left_inj extension).1 (singleton_inj.1 hlast)
  have hparts : b.parts = a.parts := by
    rw [← dropLast_append_getLast? _ hname, ← dropLast_append_getLast? _ hname', hfront]
  exact congrArg ModulePath.mk hparts.symm

/-- The file of a module, and whether the file has its name. -/
def fileForm (m : ModuleOrigin) : ModulePath × Bool :=
  (m.full, decide (m.logical.withExtension? extension = some m.full))

theorem logical_eq_of_fileForm {m' : ModuleOrigin} (located : Located m) (located' : Located m')
    (h : fileForm m = fileForm m') : m.logical = m'.logical := by
  obtain ⟨hfull, hform⟩ := Prod.mk.inj h
  rw [decide_eq_decide] at hform
  by_cases hnamed : m.logical.withExtension? extension = some m.full
  · exact withExtension?_injective (hnamed.trans (congrArg some hfull)) (hform.1 hnamed)
  have hentry := located.resolve_left hnamed
  have hentry' := located'.resolve_left (mt hform.2 hnamed)
  have hpush := hentry.symm.trans (hfull.trans hentry')
  exact congrArg ModulePath.mk (append_cancel_right (ModulePath.mk.inj hpush))

/-- A file is known by two names at most, so there are at most twice as many modules with different
names as there are files. -/
theorem length_le_of_located {files : List ModulePath}
    (names : (stack.map ModuleOrigin.logical).Nodup) (located : ∀ m ∈ stack, Located m)
    (mem : ∀ m ∈ stack, m.full ∈ files) : stack.length ≤ 2 * files.length := by
  have hnodup : (stack.map fileForm).Nodup := by
    refine (Nodup.of_map _ names).map_on fun m hm m' hm' heq => ?_
    exact inj_on_of_nodup_map names hm hm'
      (logical_eq_of_fileForm (located m hm) (located m' hm') heq)
  have hsubset : stack.map fileForm ⊆ files ×ˢ [true, false] := by
    intro form hform
    obtain ⟨m, hm, rfl⟩ := mem_map.1 hform
    have hflag : ∀ flag : Bool, flag ∈ [true, false] := by decide
    exact mem_product.2 ⟨mem m hm, hflag _⟩
  have hlength := (subperm_of_subset hnodup hsubset).length_le
  rw [length_map, length_product] at hlength
  rwa [Nat.mul_comm] at hlength

/-- The open modules are no more than twice the files that they are in. -/
theorem Search.Opens.length_le {root : ModulePath} (opens : s.Opens read root stack)
    {files : List ModulePath}
    (holds : ∀ m source, Needed read root m → read m.full = .text source → m.full ∈ files) :
    stack.length ≤ 2 * files.length := by
  refine length_le_of_located opens.names (fun m hm => (opens.needed m hm).located) fun m hm => ?_
  obtain ⟨source, htext⟩ := opens.texts m hm
  exact holds m source (opens.needed m hm) htext

/-! ## Cycles -/

section Cycles

variable {sources : Sources} {root : ModulePath}

/-- A search succeeds, or fails for one of the causes. -/
theorem linearize_fails (sources : Sources) (root : ModulePath) :
    (∃ out, (linearize sources root).1 = .ok out) ∨
      ∃ e, (linearize sources root).1 = .error e ∧
        Fails sources.read root (depthBound sources.fileCount root) e := by
  unfold linearize
  rcases hrun : (visit sources.read (depthBound sources.fileCount root) none root false).run
    Search.empty with ⟨e | position, s⟩
  · exact Or.inr ⟨e, rfl, visit_fails .root (Search.opens_empty _ _) (Nat.zero_add _) hrun⟩
  · exact Or.inl ⟨s.finished, rfl⟩

/-- So many modules are never open. -/
theorem not_deep (counted : Counted sources root) (opens : s.Opens sources.read root stack) :
    stack.length ≠ depthBound sources.fileCount root := by
  obtain ⟨files, hcount, holds⟩ := counted
  have hlength := opens.length_le holds
  rw [depthBound, Nat.mul_assoc]
  omega

/-- Where every needed module can be used, an import that closes a cycle shows one in the graph. -/
theorem Closes.cycle (single : sources.OneFileEach)
    (usable : ∀ m, Needed sources.read root m → Usable sources.read m) {span : Span}
    (closes : Closes sources.read root m span path) : HasCycle sources.read root := by
  obtain ⟨⟨rel, has⟩, start, rfl, needed, chain, -⟩ := closes
  -- the import means the start of the chain in the one file that it has
  have needs : Needs sources.read m ⟨start.logical,
      fileFor sources.read start.logical rel.parentsOnly⟩ := ⟨span, rel, has, rfl⟩
  obtain ⟨source, htext⟩ := (usable _ needed).text
  obtain ⟨source', htext'⟩ := (usable _ ((needed.trans chain).tail needs)).text
  have hsame : ⟨start.logical, fileFor sources.read start.logical rel.parentsOnly⟩ = start :=
    single.origin_eq rfl needed.located needs.located htext htext'
  rw [hsame] at needs
  exact ⟨start, needed, .tail' chain needs⟩

/-- A circular import that is reported is there. -/
theorem closes_of_circular {origin? : Option ModuleOrigin} {span : Span}
    (h : (linearize sources root).1 =
      .error (.inModule ⟨origin?, ⟨span, .circularDependency path⟩⟩)) :
    ∃ m, origin? = some m ∧ Closes sources.read root m span path := by
  rcases linearize_fails sources root with ⟨out, hok⟩ | ⟨e, herror, fails⟩
  · cases h.symm.trans hok
  cases h.symm.trans herror
  cases fails with
  | circular closes => exact ⟨_, rfl, closes⟩
  | unusable _ _ other => cases other
  | deep _ _ other => cases other

/-- A search that succeeds has met no cycle. -/
theorem acyclic_of_linearize (single : sources.OneFileEach)
    (usable : ∀ m, Needed sources.read root m → Usable sources.read m) {out : List ResolvedModule}
    (h : (linearize sources root).1 = .ok out) : ¬ HasCycle sources.read root := by
  rintro ⟨m, needed, cycle⟩
  obtain ⟨position, s, hrun, rfl⟩ := linearize_eq_ok h
  have visited := visit_ordered (Search.ordered_empty _) hrun
  obtain ⟨i, hi⟩ := needed.originAt single usable visited
  exact hi.not_cycle single usable visited.ordered needed cycle

/-- Where every needed module can be used, a search succeeds or reports a cycle. -/
theorem linearize_of_usable (single : sources.OneFileEach) (counted : Counted sources root)
    (usable : ∀ m, Needed sources.read root m → Usable sources.read m) :
    (∃ out, (linearize sources root).1 = .ok out) ∨
      HasCycle sources.read root ∧ ∃ m span path,
        (linearize sources root).1 = .error (.attributed m ⟨span, .circularDependency path⟩) := by
  rcases linearize_fails sources root with hok | ⟨e, herror, fails⟩
  · exact Or.inl hok
  right
  cases fails with
  | circular closes => exact ⟨closes.cycle single usable, _, _, _, herror⟩
  | unusable needed unusable _ => exact absurd (usable _ needed) unusable
  | deep opens length _ => exact absurd length (not_deep counted opens)

end Cycles

end Resolve

end ClassLang
