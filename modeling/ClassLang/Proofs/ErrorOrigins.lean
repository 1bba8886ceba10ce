import ClassLang.Proofs.CheckerFaults
import ClassLang.Proofs.PresentImports

/-!
# The text that an error points into

An error names a module and a place. The module is one whose file was read, and the place is in the
text of that file: `SearchError` says this of what a search reports, where the fault is in the text
itself or in an import that the text has, and `linearize_read` of the modules that a search finds,
in which the checker may still find a fault. An error without a module is about the request alone.

The main statement is `errors_point_into_text`.
-/

set_option autoImplicit false

namespace ClassLang

open List

variable {sources : Sources} {logical : ModulePath} {e : ModuleError}

namespace Resolve

variable {read : ModulePath → ReadOutcome} {s t : Search}

/-- The file of the module was asked for, and it has this text. -/
structure HasText (read : ModulePath → ReadOutcome) (reads : List ModulePath)
    (origin : ModuleOrigin) (text : String) : Prop where
  asked : origin.full ∈ reads
  text : read origin.full = .text text

variable {origin : ModuleOrigin}

theorem HasText.mono {reads reads' : List ModulePath} {text : String}
    (h : HasText read reads origin text) (hreads : reads ⊆ reads') :
    HasText read reads' origin text :=
  ⟨hreads h.asked, h.text⟩

/-! ## What a search has read -/

/-- The files of the finished modules were asked for. -/
def Search.Logged (s : Search) : Prop := ∀ m ∈ s.finished, m.origin.full ∈ s.reads

/-- A search from `s` to `t` forgets no file that was asked for. -/
structure Search.Reads (s t : Search) : Prop where
  reads : s.reads ⊆ t.reads
  logged : s.Logged → t.Logged

theorem Search.Reads.refl (s : Search) : s.Reads s := ⟨fun _ h => h, fun h => h⟩

theorem Search.Reads.trans {u : Search} (first : s.Reads t) (second : t.Reads u) : s.Reads u :=
  ⟨fun _ h => second.reads (first.reads h), fun h => second.logged (first.logged h)⟩

/-- Asking for files, for a module that is opened. -/
theorem Search.reads_opened (s : Search) (logical : ModulePath) (files : List ModulePath) :
    s.Reads ((s.opened logical).reading (s.reads ++ files)) :=
  ⟨subset_append_left _ _, fun logged m hm => mem_append_left _ (logged m hm)⟩

theorem followImports_reads {visit : Importer → ModulePath → Bool → Resolving Nat}
    (hvisit : ∀ importer target directoryOnly (s t : Search) outcome,
      (visit importer target directoryOnly).run s = (outcome, t) → s.Reads t)
    {items : List Tree.Import} {outcome : Except Failure (List (Span × Nat))}
    (h : (followImports visit origin items).run s = (outcome, t)) : s.Reads t := by
  induction items generalizing s t outcome with
  | nil =>
    cases h
    exact .refl s
  | cons item rest ih =>
    have hcase := followCase visit origin item rest s
    rw [h] at hcase
    cases hcase with
    | global _ => exact .refl s
    | unresolvable _ _ => exact .refl s
    | failed _ _ visited => exact hvisit _ _ _ _ _ _ visited
    | stopped _ _ visited followed | followed _ _ visited followed =>
      exact (hvisit _ _ _ _ _ _ visited).trans (ih followed)

/-- A visit forgets no file, whether it succeeds or fails. The induction is on the number of modules
that may be open. -/
theorem visit_reads {bound : Nat} {importer? : Option Importer} {directoryOnly : Bool}
    {outcome : Except Failure Nat}
    (h : (visit read bound importer? logical directoryOnly).run s = (outcome, t)) : s.Reads t := by
  induction bound generalizing importer? logical directoryOnly s t outcome with
  | zero =>
    cases h
    exact .refl s
  | succ bound ih =>
    have hcase := visitCase read bound importer? logical directoryOnly s
    rw [h] at hcase
    have opened := s.reads_opened logical (asked read logical directoryOnly)
    cases hcase with
    | shared _ | circular _ | nameless _ => exact .refl s
    | unreadable _ asks => exact asks ▸ opened
    | unfound _ asks => exact asks ▸ opened
    | unparsed _ _ _ asks => exact asks ▸ opened
    | stopped _ _ _ _ followed asks =>
      subst asks
      exact opened.trans (followImports_reads (fun _ _ _ _ _ _ => ih) followed)
    | @closed name source tree reads imports t _ _ _ _ followed asks =>
      subst asks
      have inner := followImports_reads (fun _ _ _ _ _ _ => ih) followed
      have reads := opened.trans inner
      refine ⟨reads.reads, fun logged m hm => ?_⟩
      rcases mem_append.1 hm with hm | hm
      · exact reads.logged logged m hm
      · -- the module itself is read before its imports
        rw [mem_singleton.1 hm]
        exact inner.reads (mem_append_right _ (fileFor_mem_asked _ _ _))

/-! ## What a search reports -/

/-- An error of a search that a module is to blame for: its text cannot be parsed, or one of the
imports that its text has leads nowhere. -/
inductive SearchError (read : ModulePath → ReadOutcome) (reads : List ModulePath) :
    ModuleError → Prop where
  | unparsed {origin text name e}
      (hasText : HasText read reads origin text) (parsed : Tree.parse text name = .error e) :
      SearchError read reads ⟨some origin, e⟩
  | unresolved {origin text name} {tree : Tree.Module} {item : Tree.Import} {fault : Fault}
      (hasText : HasText read reads origin text)
      (parsed : Tree.parse text name = .ok tree) (hitem : item ∈ tree.imports)
      (stage : fault.stage = .searching) : SearchError read reads ⟨some origin, ⟨item.span, fault⟩⟩

/-- The module that asks is to blame, for the import with which it asks. -/
def Importer.Blamed (importer : Importer) (e : ModuleError) : Prop :=
  ∃ fault : Fault, fault.stage = .searching ∧
    e = ⟨some importer.origin, ⟨importer.span, fault⟩⟩

theorem stage_notFound (rel : RelativePath) (logical : ModulePath) (directoryOnly : Bool) :
    (notFound rel logical directoryOnly).stage = .searching := by
  unfold notFound
  dsimp only
  split <;> rfl

theorem followImports_error {visit : Importer → ModulePath → Bool → Resolving Nat}
    (hreads : ∀ importer target directoryOnly (s t : Search) outcome,
      (visit importer target directoryOnly).run s = (outcome, t) → s.Reads t)
    (hvisit : ∀ importer target directoryOnly (s t : Search) e,
      (visit importer target directoryOnly).run s = (.error (.inModule e), t) →
        SearchError read t.reads e ∨ importer.Blamed e) {text name : String} {tree : Tree.Module}
    {items : List Tree.Import} (hasText : HasText read s.reads origin text)
    (parsed : Tree.parse text name = .ok tree) (hitems : items ⊆ tree.imports)
    (h : (followImports visit origin items).run s = (.error (.inModule e), t)) :
    SearchError read t.reads e := by
  induction items generalizing s t with
  | nil => cases h
  | cons item rest ih =>
    obtain ⟨hitem, hrest⟩ := cons_subset.1 hitems
    have hcase := followCase visit origin item rest s
    rw [h] at hcase
    cases hcase with
    | global _ | unresolvable _ _ => exact .unresolved hasText parsed hitem rfl
    | failed _ _ visited =>
      rcases hvisit _ _ _ _ _ _ visited with herror | ⟨fault, stage, rfl⟩
      · exact herror
      · exact .unresolved (hasText.mono (hreads _ _ _ _ _ _ visited).reads) parsed hitem stage
    | stopped _ _ visited followed =>
      exact ih (hasText.mono (hreads _ _ _ _ _ _ visited).reads) hrest followed

/-- What asks for the module is to blame: too many modules are open, the module is one of them, or
there is no such module. -/
def Refused (read : ModulePath → ReadOutcome) (bound : Nat) (logical : ModulePath)
    (directoryOnly : Bool) (s : Search) : Prop :=
  bound = 0 ∨ s.marks.lookup logical = some .visiting ∨ logical.last? = none ∨
    read (fileFor read logical directoryOnly) = .missing

/-- A visit fails for a module that it reads, unless what asks for it is to blame. -/
theorem visit_error {bound : Nat} {importer? : Option Importer} {directoryOnly : Bool}
    {failure : Failure}
    (h : (visit read bound importer? logical directoryOnly).run s = (.error failure, t))
    (hfailure : failure = .inModule e) :
    SearchError read t.reads e ∨ Refused read bound logical directoryOnly s ∧
      ∃ fault : Fault, fault.stage = .searching ∧ failure = failFor importer? fault := by
  induction bound generalizing importer? logical directoryOnly s t failure e with
  | zero =>
    cases h
    exact .inr ⟨.inl rfl, .boundReached, rfl, rfl⟩
  | succ bound ih =>
    have hcase := visitCase read bound importer? logical directoryOnly s
    rw [h] at hcase
    -- the file of the module is among those that were asked for
    have hread : ∀ {source : String}, read (fileFor read logical directoryOnly) = .text source →
        HasText read (s.reads ++ asked read logical directoryOnly)
          ⟨logical, fileFor read logical directoryOnly⟩ source :=
      fun text => ⟨mem_append_right _ (fileFor_mem_asked _ _ _), text⟩
    cases hcase with
    | circular mark => exact .inr ⟨.inr (.inl mark), _, rfl, rfl⟩
    | nameless unnamed => exact .inr ⟨.inr (.inr (.inl unnamed)), _, rfl, rfl⟩
    | unreadable _ _ => cases hfailure
    | unfound missing _ =>
      exact .inr ⟨.inr (.inr (.inr missing)), _, stage_notFound _ _ _, rfl⟩
    | unparsed _ text parsed asks =>
      subst asks
      cases hfailure
      exact .inl (.unparsed (hread text) parsed)
    | stopped _ _ text parsed followed asks =>
      subst asks
      subst hfailure
      refine .inl (followImports_error (fun _ _ _ _ _ _ => visit_reads) ?_ (hread text) parsed
        (Subset.refl _) followed)
      intro importer target directoryOnly s t e hvisit
      refine (ih hvisit rfl).imp_right ?_
      rintro ⟨-, fault, stage, heq⟩
      exact ⟨fault, stage, Failure.inModule.inj heq⟩

/-- The request for a module cannot be met: the path is empty, or there is no file for it. -/
def Unmet (read : ModulePath → ReadOutcome) (logical : ModulePath) : Prop :=
  logical.isEmpty = true ∨ ∀ full, Located ⟨logical, full⟩ → read full = .missing

theorem unmet_of_missing (missing : read (fileFor read logical false) = .missing) :
    Unmet read logical := by
  refine .inr fun full located => ?_
  cases hfile : logical.withExtension? extension with
  | none =>
    rw [fileFor, if_neg Bool.false_ne_true, hfile] at missing
    rcases located with heq | heq
    · cases hfile.symm.trans heq
    · obtain rfl : full = logical.push directoryEntry := heq
      exact missing
  | some file =>
    -- the file with the name is missing too, or else it would be the one that is meant
    have hmissing : read file = .missing := by
      by_contra present
      rw [fileFor_of_exists hfile present] at missing
      exact present missing
    rw [fileFor_of_missing hfile hmissing] at missing
    rcases located with heq | heq
    · obtain rfl : file = full := Option.some.inj (hfile.symm.trans heq)
      exact hmissing
    · obtain rfl : full = logical.push directoryEntry := heq
      exact missing

theorem unmet_of_last? (h : logical.last? = none) : Unmet read logical := by
  refine .inl ?_
  rw [ModulePath.isEmpty, getLast?_eq_none_iff.1 h]
  rfl

/-- **Searches that fail.** An error without a module is about the request, and any other one is
about a module that was read. -/
theorem linearize_error {root : ModulePath}
    (h : (linearize sources root).1 = .error (.inModule e)) :
    e.origin? = none ∧ Unmet sources.read root ∨
      SearchError sources.read (linearize sources root).2 e := by
  unfold linearize at h ⊢
  rcases hrun : (visit sources.read (depthBound sources.fileCount root) none root false).run
    Search.empty with ⟨failure | position, t⟩ <;> rw [hrun] at h
  · obtain hfailure : failure = .inModule e := Except.error.inj h
    rcases visit_error hrun hfailure with herror | ⟨refused, fault, -, hfault⟩
    · exact .inr herror
    cases hfailure.symm.trans hfault
    refine .inl ⟨rfl, ?_⟩
    -- at the start no module is open
    rcases refused with hbound | mark | unnamed | missing
    · exact absurd hbound (Nat.succ_ne_zero _)
    · cases mark
    · exact unmet_of_last? unnamed
    · exact unmet_of_missing missing
  · cases h

/-- **Searches that succeed.** The files of all modules were read, and the trees are those of their
texts. -/
theorem linearize_read {root : ModulePath} {out : List ResolvedModule}
    (h : (linearize sources root).1 = .ok out) {m : ResolvedModule} (hm : m ∈ out) :
    HasText sources.read (linearize sources root).2 m.origin m.source ∧
      (∃ name, Tree.parse m.source name = .ok m.tree) ∧
      ∀ entry ∈ m.imports, ∃ item ∈ m.tree.imports, item.span = entry.1 := by
  obtain ⟨position, s, hrun, rfl⟩ := linearize_eq_ok h
  have hreads : (linearize sources root).2 = s.reads := by
    unfold linearize
    rw [hrun]
  obtain ⟨i, hi⟩ := mem_iff_getElem?.1 hm
  have found := (visit_ordered (Search.ordered_empty _) hrun).ordered.found i m hi
  obtain ⟨name, -, parsed⟩ := found.tree
  refine ⟨⟨?_, found.text⟩, ⟨name, parsed⟩, ?_⟩
  · rw [hreads]
    exact (visit_reads hrun).logged (fun _ h => nomatch h) m hm
  · intro entry hentry
    obtain ⟨j, hj⟩ := mem_iff_getElem?.1 hentry
    obtain ⟨item, hitem, leads⟩ := forall₂_getElem?_right found.imports hj
    exact ⟨item, mem_of_getElem? hitem, leads.1.symm⟩

end Resolve

namespace Session

open Resolve (ResolvedModule)

variable {s s' : Session}

/-! ## What compiling reports -/

/-- A module that cannot be compiled is one that the checker refuses: code can be generated for all
that it accepts, and what the loader refuses is no fault of the module. -/
theorem compileModule_error {ids : List ClassId} {m : ResolvedModule} (typed : s.table.Typed)
    (h : (compileModule ids m).run s = (.error (.inModule e), s')) :
    e.origin? = some m.origin ∧
      Typed.checkModule s.table m.origin.logical m.tree (importIds ids m) = .error e.error := by
  rw [compileModule, run_get_bind] at h
  cases hmodule : s.module? m.origin.logical with
  | some compiled =>
    rw [hmodule] at h
    cases h
  | none =>
    rw [hmodule] at h
    dsimp only at h
    cases hcheck : Typed.checkModule s.table m.origin.logical m.tree (importIds ids m) with
    | error e' =>
      rw [hcheck] at h
      cases h
      exact ⟨rfl, rfl⟩
    | ok table =>
      rw [hcheck] at h
      obtain ⟨c, rfl, -, -, -, typed'⟩ := Typed.checkModule_typed typed hcheck
      dsimp only at h
      rw [Typed.ClassTable.get?_push_size] at h
      dsimp only at h
      have hc : (s.table.push c).get? s.table.size = some c := Typed.ClassTable.get?_push_size
      have hclass := typed' _ c hc
      rw [← hclass.id_eq] at hc hclass
      obtain ⟨a, generated⟩ := Code.generateClass_succeeds hclass hc m.source
      rw [generated] at h
      dsimp only at h
      rw [run_bind, run_load] at h
      rcases Machine.Loader.define_cases s.loader a with
        ⟨-, hdefine⟩ | ⟨-, ⟨-, hdefine⟩ | ⟨loaded, -, hdefine⟩⟩ <;>
        rw [hdefine] at h <;> cases h

theorem compileAll_error {modules : List ResolvedModule} (fits : Fits [] s)
    (plain : ∀ m ∈ modules, ∀ method ∈ m.tree.classDecl.methods, Plain method.name)
    {ids : List ClassId} (h : (compileAll ids modules).run s = (.error (.inModule e), s')) :
    ∃ m ∈ modules, e.origin? = some m.origin ∧ ∃ table ids,
      Typed.checkModule table m.origin.logical m.tree (importIds ids m) = .error e.error := by
  induction modules generalizing s ids with
  | nil => cases h
  | cons m rest ih =>
    obtain ⟨first, others⟩ := forall_mem_cons.1 plain
    rw [compileAll, run_bind] at h
    have compiles := compiles_compileModule ids first s fits
    rcases hrun : (compileModule ids m).run s with ⟨failure | id, t⟩ <;>
      rw [hrun] at h compiles
    · obtain ⟨hfailure, rfl⟩ := Prod.mk.inj h
      cases hfailure
      obtain ⟨horigin, hcheck⟩ := compileModule_error fits.loads.typed hrun
      exact ⟨m, mem_cons_self, horigin, s.table, ids, hcheck⟩
    · obtain ⟨m', hm', herror⟩ := ih compiles.1 others h
      exact ⟨m', mem_cons_of_mem _ hm', herror⟩

/-- A request to compile fails in the search, or for a module that the checker refuses. -/
theorem compile_error (fits : Fits [] s)
    (h : ((compile sources logical).run s).1 = .error (.inModule e)) :
    (Resolve.linearize sources logical).1 = .error (.inModule e) ∨
      ∃ modules, (Resolve.linearize sources logical).1 = .ok modules ∧ ∃ m ∈ modules,
        e.origin? = some m.origin ∧ ∃ table ids,
          Typed.checkModule table m.origin.logical m.tree (importIds ids m) = .error e.error := by
  unfold compile at h
  rcases Resolve.linearize_cases sources logical with
    ⟨failure, hfailure, -⟩ | ⟨modules, hmodules, plain⟩
  · rw [hfailure] at h
    cases h
    exact .inl hfailure
  rw [hmodules] at h
  refine .inr ⟨modules, hmodules, ?_⟩
  dsimp only at h
  rw [run_bind] at h
  rcases hrun : (compileAll [] modules).run s with ⟨failure | _, t⟩ <;> rw [hrun] at h
  · cases h
    exact compileAll_error fits plain hrun
  · -- behind the modules only the root is looked up
    dsimp only at h
    rw [run_get_bind] at h
    split at h <;> cases h

end Session

/-! ## Errors and their texts -/

/-- What the text of a module says for itself of an error in it, by the stage that found the error:
its listing fails with the error, its tree does, one of its imports stands at the place, or it has a
tree at least. The class may have any name, as the text does not say it. -/
def CompileError.ShownBy (text : String) (e : CompileError) : Prop :=
  match e.fault.stage with
  | .lexing => tokens text = .error e ∧ ∀ name, Tree.parse text name = .error e
  | .parsing => ∀ name, Tree.parse text name = .error e
  | .searching => ∀ name, ∃ tree, Tree.parse text name = .ok tree ∧
      ∃ item ∈ tree.imports, item.span = e.span
  | .checking => ∀ name, ∃ tree, Tree.parse text name = .ok tree

/-- The error is at a place in the text of a file that was read, and that text shows it; an error
without a module is about a request that cannot be met. -/
def ModuleError.PointsInto (read : ModulePath → ReadOutcome) (reads : List ModulePath)
    (logical : ModulePath) (shown : String → CompileError → Prop) (e : ModuleError) : Prop :=
  match e.origin? with
  | none => Resolve.Unmet read logical
  | some origin => ∃ text, Resolve.HasText read reads origin text ∧
      e.error.span.Inside (byteLength (Lexer.normalized text)) ∧ shown text e.error

theorem ModuleError.pointsInto_of_unmet {read : ModulePath → ReadOutcome} {reads : List ModulePath}
    {shown : String → CompileError → Prop} (horigin : e.origin? = none)
    (unmet : Resolve.Unmet read logical) : e.PointsInto read reads logical shown := by
  rw [PointsInto, horigin]
  exact unmet

section Shown

variable {text name : String} {e : CompileError} {tree : Tree.Module}

variable {fault : Fault}

theorem Fault.stage_of_isLexical (h : fault.isLexical = true) : fault.stage = .lexing := by
  cases fault <;> first | rfl | cases h

theorem Fault.stage_of_isSyntactic (h : fault.isSyntactic = true) (hne : fault ≠ .boundReached) :
    fault.stage = .parsing := by
  cases fault <;> first | rfl | exact absurd rfl hne | cases h

theorem shownBy_of_unparsed (parsed : Tree.parse text name = .error e) :
    e.span.Inside (byteLength (Lexer.normalized text)) ∧
      (e.fault.stage = .lexing ∨ e.fault.stage = .parsing) ∧ e.ShownBy text := by
  obtain ⟨inside, hne, hfault⟩ := Tree.parse_error parsed
  have unparsed : ∀ name', Tree.parse text name' = .error e := by
    intro name'
    rw [Tree.parse_rename text name name', parsed]
    rfl
  unfold CompileError.ShownBy
  rcases hfault with ⟨hlexical, htokens⟩ | hsyntactic
  · rw [Fault.stage_of_isLexical hlexical]
    exact ⟨inside, .inl rfl, htokens, unparsed⟩
  · rw [Fault.stage_of_isSyntactic hsyntactic hne]
    exact ⟨inside, .inr rfl, unparsed⟩

theorem parse_eq_ok (parsed : Tree.parse text name = .ok tree) (name' : String) :
    Tree.parse text name' = .ok (tree.rename name') := by
  rw [Tree.parse_rename text name name', parsed]
  rfl

theorem shownBy_of_import (parsed : Tree.parse text name = .ok tree) {item : Tree.Import}
    (hitem : item ∈ tree.imports) (stage : fault.stage = .searching) :
    item.span.Inside (byteLength (Lexer.normalized text)) ∧
      CompileError.ShownBy text ⟨item.span, fault⟩ := by
  refine ⟨(Tree.places_of_parse parsed).imports item hitem, ?_⟩
  unfold CompileError.ShownBy
  rw [stage]
  exact fun name' => ⟨_, parse_eq_ok parsed name', item, hitem, rfl⟩

theorem shownBy_of_unchecked (parsed : Tree.parse text name = .ok tree)
    (stage : e.fault.stage = .checking) : e.ShownBy text := by
  unfold CompileError.ShownBy
  rw [stage]
  exact fun name' => ⟨_, parse_eq_ok parsed name'⟩

end Shown

namespace Sources

/-- The files that are asked for to find one module. -/
def asked (sources : Sources) (logical : ModulePath) : List ModulePath :=
  ((Resolve.locate sources.read logical false).run .empty).2.reads

/-- The text of a module is that of a file which was read; without one, the request is to blame. -/
theorem find_cases (sources : Sources) (logical : ModulePath) :
    (∃ origin text, sources.find logical = .ok (origin, text) ∧
      Resolve.HasText sources.read (sources.asked logical) origin text) ∨
    ∃ failure, sources.find logical = .error failure ∧
      ∀ e, failure = .inModule e → e.origin? = none ∧ Resolve.Unmet sources.read logical := by
  unfold find asked
  rw [Resolve.run_locate_fileFor]
  cases hread : sources.read (Resolve.fileFor sources.read logical false) with
  | text source => exact .inl ⟨_, _, rfl, Resolve.fileFor_mem_asked _ _ _, hread⟩
  | missing =>
    refine .inr ⟨_, rfl, ?_⟩
    rintro e ⟨⟩
    exact ⟨rfl, Resolve.unmet_of_missing hread⟩
  | failed reason =>
    refine .inr ⟨_, rfl, ?_⟩
    rintro e ⟨⟩

theorem tree_pointsInto (h : sources.tree logical = .error (.inModule e)) :
    e.PointsInto sources.read (sources.asked logical) logical fun text error =>
      (error.fault.stage = .lexing ∨ error.fault.stage = .parsing) ∧ error.ShownBy text := by
  unfold tree at h
  rcases sources.find_cases logical with ⟨origin, text, hfind, hasText⟩ | ⟨failure, hfind, hunmet⟩
  · rw [hfind] at h
    cases hlast : logical.last? with
    | none =>
      rw [hlast] at h
      cases Except.error.inj h
      exact Resolve.unmet_of_last? hlast
    | some name =>
      rw [hlast] at h
      change (Tree.parse text name).mapError (Failure.attributed origin) = _ at h
      cases hparse : Tree.parse text name with
      | ok tree =>
        rw [hparse] at h
        cases h
      | error error =>
        rw [hparse] at h
        cases h
        exact ⟨text, hasText, shownBy_of_unparsed hparse⟩
  · rw [hfind] at h
    obtain ⟨horigin, unmet⟩ := hunmet e (Except.error.inj h)
    exact ModuleError.pointsInto_of_unmet horigin unmet

theorem tokens_pointsInto (h : sources.tokens logical = .error (.inModule e)) :
    e.PointsInto sources.read (sources.asked logical) logical fun text error =>
      error.fault.stage = .lexing ∧ ClassLang.tokens text = .error error := by
  unfold tokens at h
  rcases sources.find_cases logical with ⟨origin, text, hfind, hasText⟩ | ⟨failure, hfind, hunmet⟩
  · rw [hfind] at h
    change (ClassLang.tokens text).mapError (Failure.attributed origin) = _ at h
    cases htokens : ClassLang.tokens text with
    | ok ts =>
      rw [htokens] at h
      cases h
    | error error =>
      rw [htokens] at h
      cases h
      obtain ⟨hlexical, inside⟩ := tokens_error htokens
      exact ⟨text, hasText, inside, Fault.stage_of_isLexical hlexical, htokens⟩
  · rw [hfind] at h
    obtain ⟨horigin, unmet⟩ := hunmet e (Except.error.inj h)
    exact ModuleError.pointsInto_of_unmet horigin unmet

end Sources

open Resolve in
theorem Session.compile_pointsInto {s : Session} (fits : s.Fits [])
    (h : ((compile sources logical).run s).1 = .error (.inModule e)) :
    e.PointsInto sources.read (linearize sources logical).2 logical CompileError.ShownBy := by
  rcases compile_error fits h with h | ⟨modules, hmodules, m, hm, horigin, table, ids, hcheck⟩
  · -- the search fails
    rcases linearize_error h with ⟨horigin, unmet⟩ | herror
    · exact ModuleError.pointsInto_of_unmet horigin unmet
    cases herror with
    | unparsed hasText parsed =>
      obtain ⟨inside, -, shown⟩ := shownBy_of_unparsed parsed
      exact ⟨_, hasText, inside, shown⟩
    | unresolved hasText parsed hitem stage =>
      obtain ⟨inside, shown⟩ := shownBy_of_import parsed hitem stage
      exact ⟨_, hasText, inside, shown⟩
  · -- the checker refuses a module that the search found
    obtain ⟨hasText, ⟨name, parsed⟩, himports⟩ := linearize_read hmodules hm
    have places := Tree.places_of_parse parsed
    have hentries : ∀ entry ∈ importIds ids m,
        entry.1.Inside (byteLength (Lexer.normalized m.source)) := by
      intro entry hentry
      obtain ⟨given, hgiven, rfl⟩ := mem_map.1 hentry
      obtain ⟨item, hitem, hspan⟩ := himports given hgiven
      exact hspan ▸ places.imports item hitem
    obtain ⟨inside, stage⟩ := Typed.checkModule_blames places hentries _ _ _ hcheck
    rw [ModuleError.PointsInto, horigin]
    exact ⟨_, hasText, inside, shownBy_of_unchecked parsed stage⟩

/-- **Errors point into the right text.** Take any session, with any requests before, and let a
request to compile a module, or to parse it or list its tokens, fail with an error. If the error
names a module, the file of that module was read, and the place of the error is in its text, as the
lexer reads it. That text alone shows the error: what the lexer or the parser finds wrong they find
in it again, with the same place, and what a search cannot find is at the place of one of its
imports. An error names no module only if the path is empty or there is no file for it. -/
theorem errors_point_into_text (steps : List Session.Step) (sources : Sources)
    (logical : ModulePath) (e : ModuleError) :
    (((Session.compile sources logical).run (Session.initial.runAll steps)).1 =
        .error (.inModule e) →
      e.PointsInto sources.read (Resolve.linearize sources logical).2 logical
        CompileError.ShownBy) ∧
    (sources.tree logical = .error (.inModule e) →
      e.PointsInto sources.read (sources.asked logical) logical fun text error =>
        (error.fault.stage = .lexing ∨ error.fault.stage = .parsing) ∧ error.ShownBy text) ∧
    (sources.tokens logical = .error (.inModule e) →
      e.PointsInto sources.read (sources.asked logical) logical fun text error =>
        error.fault.stage = .lexing ∧ tokens text = .error error) :=
  ⟨Session.compile_pointsInto (Session.fits_initial.runAll steps), Sources.tree_pointsInto,
    Sources.tokens_pointsInto⟩

/-- A module that imports one with an import that leads nowhere, and one with a fault in a quote. -/
def strayFiles : Files :=
  ⟨[(⟨["App.nz"]⟩, .text "import\n\t.Lib\nfun Int x()\n\t1\n"),
    (⟨["Lib.nz"]⟩, .text "import\n\t.Base\n\t.Gone\nfun Int y()\n\t2\n"),
    (⟨["Base.nz"]⟩, .text "fun Int one()\n\t1\n"),
    (⟨["Bad.nz"]⟩, .text "fun Str s()\n\t\"é\\q\"\n")]⟩

/-- The import that leads nowhere, in the module that has it. -/
def strayImport : ModuleError :=
  ⟨some ⟨⟨["Lib"]⟩, ⟨["Lib.nz"]⟩⟩,
    ⟨⟨15, 20⟩, .moduleNotFound ⟨1, ⟨["Gone"]⟩⟩ ⟨["Gone.nz"]⟩ ⟨["Gone", "main.nz"]⟩⟩⟩

/-- The escape that means nothing, behind a character of two bytes. -/
def strayEscape : ModuleError :=
  ⟨some ⟨⟨["Bad"]⟩, ⟨["Bad.nz"]⟩⟩, ⟨⟨16, 18⟩, .badEscape 'q'⟩⟩

/-- The import that leads nowhere is charged to the module that has it, not to the one that asked
for that module; the escape is found again in the text of its file. -/
theorem errors_point_into_text_stray :
    (((Session.compile strayFiles.sources ⟨["App"]⟩).run
        (Session.initial.runAll [Session.pairCompile "Base.one"])).1 =
          .error (.inModule strayImport) ∧
      strayImport.PointsInto strayFiles.sources.read
        (Resolve.linearize strayFiles.sources ⟨["App"]⟩).2 ⟨["App"]⟩ CompileError.ShownBy) ∧
    (strayFiles.sources.tree ⟨["Bad"]⟩ = .error (.inModule strayEscape) ∧
      strayEscape.PointsInto strayFiles.sources.read (strayFiles.sources.asked ⟨["Bad"]⟩) ⟨["Bad"]⟩
        fun text error => (error.fault.stage = .lexing ∨ error.fault.stage = .parsing) ∧
          error.ShownBy text) ∧
    (strayFiles.sources.tokens ⟨["Bad"]⟩ = .error (.inModule strayEscape) ∧
      strayEscape.PointsInto strayFiles.sources.read (strayFiles.sources.asked ⟨["Bad"]⟩) ⟨["Bad"]⟩
        fun text error => error.fault.stage = .lexing ∧ tokens text = .error error) := by
  have hcompile : ((Session.compile strayFiles.sources ⟨["App"]⟩).run
      (Session.initial.runAll [Session.pairCompile "Base.one"])).1 =
        .error (.inModule strayImport) := by decide +kernel
  have htree : strayFiles.sources.tree ⟨["Bad"]⟩ = .error (.inModule strayEscape) := by
    have hview : (fun _ => ()) <$> strayFiles.sources.tree ⟨["Bad"]⟩ =
        .error (.inModule strayEscape) := by decide +kernel
    exact error_of_map hview
  have htokens : strayFiles.sources.tokens ⟨["Bad"]⟩ = .error (.inModule strayEscape) := by
    decide +kernel
  obtain ⟨imported, -, -⟩ := errors_point_into_text [Session.pairCompile "Base.one"]
    strayFiles.sources ⟨["App"]⟩ strayImport
  obtain ⟨-, parsed, listed⟩ := errors_point_into_text [] strayFiles.sources ⟨["Bad"]⟩ strayEscape
  exact ⟨⟨hcompile, imported hcompile⟩, ⟨htree, parsed htree⟩, ⟨htokens, listed htokens⟩⟩

end ClassLang
