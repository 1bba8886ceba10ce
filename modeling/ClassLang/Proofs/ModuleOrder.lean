import ClassLang.Proofs.SearchSteps
import Mathlib.Data.List.Nodup
import Mathlib.Logic.Relation

/-!
# The order of modules

The modules that a root needs come out once each, every module behind those that it imports, the
root last. `Found` says what is known of one of them, `Search.Ordered` what holds of a search at any
time, and `Search.Grows` what a search never takes back. `visit_ordered` proves both along the whole
depth-first search, by induction on the number of modules that may be open; the main statement is
`linearize_closed`.
-/

set_option autoImplicit false

namespace ClassLang.Resolve

open List Search

/-! ## What comes out -/

/-- An import of the module at position `i` leads to a module in front of it, which has the name
that the import means in its file. -/
def Leads (out : List ResolvedModule) (origin : ModuleOrigin) (i : Nat) (item : Tree.Import)
    (entry : Span × Nat) : Prop :=
  entry.1 = item.span ∧ ∃ rel target, item.path = .relative rel ∧ entry.2 < i ∧
    out[entry.2]? = some target ∧ origin.full.resolve? rel = some target.origin.logical

/-- The module at position `i` has the text of its file and the tree of that text, and all its
imports lead to modules in front of it, in the order in which they are written. -/
structure Found (read : ModulePath → ReadOutcome) (out : List ResolvedModule) (i : Nat)
    (m : ResolvedModule) : Prop where
  text : read m.origin.full = .text m.source
  tree : ∃ name, m.origin.logical.last? = some name ∧ Tree.parse m.source name = .ok m.tree
  imports : Forall₂ (Leads out m.origin i) m.tree.imports m.imports

/-- The module at one position imports the module at the other. -/
def Imports (out : List ResolvedModule) (i j : Nat) : Prop :=
  ∃ m, out[i]? = some m ∧ j ∈ m.imports.map Prod.snd

/-- One module is reached from another along imports. -/
abbrev Reaches (out : List ResolvedModule) : Nat → Nat → Prop := Relation.ReflTransGen (Imports out)

section Longer

variable {out out' : List ResolvedModule} {read : ModulePath → ReadOutcome}

variable {i : Nat} {m : ResolvedModule}

theorem getElem?_of_prefix (h : out <+: out') (hm : out[i]? = some m) : out'[i]? = some m := by
  obtain ⟨rest, rfl⟩ := h
  exact (getElem?_append_left (List.getElem?_eq_some_iff.1 hm).1).trans hm

theorem getElem?_below_prefix (h : out <+: out') (hlt : i < out.length) (hm : out'[i]? = some m) :
    out[i]? = some m := by
  obtain ⟨rest, rfl⟩ := h
  exact (getElem?_append_left hlt).symm.trans hm

theorem Leads.longer {origin : ModuleOrigin} {item : Tree.Import} {entry : Span × Nat}
    (h : out <+: out') (leads : Leads out origin i item entry) :
    Leads out' origin i item entry := by
  obtain ⟨hspan, rel, target, hrel, hlt, htarget, hresolve⟩ := leads
  exact ⟨hspan, rel, target, hrel, hlt, getElem?_of_prefix h htarget, hresolve⟩

theorem Found.longer (h : out <+: out') (found : Found read out i m) : Found read out' i m :=
  ⟨found.text, found.tree, found.imports.imp fun _ _ leads => leads.longer h⟩

theorem Reaches.longer {j : Nat} (h : out <+: out') (reaches : Reaches out i j) :
    Reaches out' i j := by
  refine Relation.ReflTransGen.mono ?_ i j reaches
  rintro a b ⟨m, hm, hb⟩
  exact ⟨m, getElem?_of_prefix h hm, hb⟩

end Longer

/-! ## Searches -/

/-- What holds of a search at any time: the finished modules have different names, are marked as
finished at their positions and are found, each where its name leads, and a mark of a finished module
is right. -/
structure Search.Ordered (read : ModulePath → ReadOutcome) (s : Search) : Prop where
  names : (s.finished.map (·.origin.logical)).Nodup
  marked : ∀ m ∈ s.finished, ∃ position, s.marks.lookup m.origin.logical = some (.finished position)
  positions : ∀ path position, s.marks.lookup path = some (.finished position) →
    ∃ m, s.finished[position]? = some m ∧ m.origin.logical = path
  found : ∀ i m, s.finished[i]? = some m → Found read s.finished i m
  located : ∀ m ∈ s.finished, Located m.origin

/-- What a search never takes back: finished modules keep their positions, and marks stay as they
are when the visit that made them is still open or has ended before. -/
structure Search.Grows (s s' : Search) : Prop where
  finished : s.finished <+: s'.finished
  marks : ∀ path mark, s.marks.lookup path = some mark → s'.marks.lookup path = some mark

variable {logical : ModulePath} {read : ModulePath → ReadOutcome}

namespace Search

variable {s s' s'' : Search}

theorem ordered_empty (read : ModulePath → ReadOutcome) : empty.Ordered read where
  names := nodup_nil
  marked _ hm := nomatch hm
  positions _ _ h := nomatch h
  found _ _ h := nomatch h
  located _ hm := nomatch hm

theorem Grows.refl (s : Search) : s.Grows s := ⟨prefix_refl _, fun _ _ h => h⟩

theorem Grows.trans (first : s.Grows s') (second : s'.Grows s'') : s.Grows s'' :=
  ⟨first.finished.trans second.finished, fun _ _ h => second.marks _ _ (first.marks _ _ h)⟩

theorem Ordered.reading (ordered : s.Ordered read) (reads : List ModulePath) :
    (s.reading reads).Ordered read :=
  ⟨ordered.names, ordered.marked, ordered.positions, ordered.found, ordered.located⟩

/-- A module that is opened has no mark, so no finished module has its name. -/
theorem Ordered.opened (ordered : s.Ordered read) (fresh : s.marks.lookup logical = none) :
    (s.opened logical).Ordered read where
  names := ordered.names
  marked m hm := by
    obtain ⟨position, hposition⟩ := ordered.marked m hm
    refine ⟨position, ?_⟩
    rw [Search.opened, lookup_cons_of_ne]
    · exact hposition
    · rintro rfl
      rw [fresh] at hposition
      cases hposition
  positions path position h := by
    by_cases heq : path = logical
    · rw [heq, Search.opened, lookup_cons_self] at h
      cases h
    · rw [Search.opened, lookup_cons_of_ne heq] at h
      exact ordered.positions path position h
  found := ordered.found
  located := ordered.located

theorem Grows.opened (fresh : s.marks.lookup logical = none) : s.Grows (s.opened logical) := by
  refine ⟨prefix_refl _, fun path mark h => ?_⟩
  rw [Search.opened, lookup_cons_of_ne]
  · exact h
  · rintro rfl
    rw [fresh] at h
    cases h

/-- Closing a module that is still open, behind all modules that it imports. -/
theorem Ordered.closed (ordered : s.Ordered read) {m : ResolvedModule}
    (visiting : s.marks.lookup m.origin.logical = some .visiting)
    (found : Found read s.finished s.finished.length m) (located : Located m.origin) :
    (s.closed m).Ordered read := by
  have hprefix : s.finished <+: (s.closed m).finished := prefix_append _ _
  -- a finished module is not open, so it has another name
  have hfresh : ∀ m' ∈ s.finished, m'.origin.logical ≠ m.origin.logical := by
    intro m' hm' heq
    obtain ⟨position, hposition⟩ := ordered.marked m' hm'
    rw [heq, visiting] at hposition
    cases hposition
  refine ⟨?_, ?_, ?_, ?_, forall_mem_append.2 ⟨ordered.located, ?_⟩⟩
  · rw [Search.closed, map_append]
    refine nodup_append.2 ⟨ordered.names, nodup_singleton _, ?_⟩
    rintro name hname name' hname' rfl
    obtain ⟨m', hm', rfl⟩ := mem_map.1 hname
    exact hfresh m' hm' (mem_singleton.1 hname')
  · intro m' hm'
    rcases mem_append.1 hm' with hold | hnew
    · obtain ⟨position, hposition⟩ := ordered.marked m' hold
      refine ⟨position, ?_⟩
      rw [Search.closed, lookup_cons_of_ne (hfresh m' hold)]
      exact hposition
    · obtain rfl := mem_singleton.1 hnew
      exact ⟨s.finished.length, lookup_cons_self⟩
  · intro path position h
    by_cases heq : path = m.origin.logical
    · rw [heq, Search.closed, lookup_cons_self] at h
      cases Option.some.inj h
      exact ⟨m, getElem?_concat_length, heq.symm⟩
    · rw [Search.closed, lookup_cons_of_ne heq] at h
      obtain ⟨m', hm', hpath⟩ := ordered.positions path position h
      exact ⟨m', getElem?_of_prefix hprefix hm', hpath⟩
  · intro i m' hm'
    rcases Nat.lt_or_ge i s.finished.length with hlt | hge
    · rw [Search.closed, getElem?_append_left hlt] at hm'
      exact (ordered.found i m' hm').longer hprefix
    have hi : i = s.finished.length := by
      have hlt := (List.getElem?_eq_some_iff.1 hm').1
      rw [Search.closed, length_append] at hlt
      exact Nat.le_antisymm (Nat.le_of_lt_succ hlt) hge
    rw [hi, Search.closed, getElem?_concat_length] at hm'
    cases hm'
    rw [hi]
    exact found.longer hprefix
  · exact forall_mem_singleton.2 located

end Search

/-! ## Visits -/

/-- What a visit that succeeds does: it keeps the search in order and takes nothing back, gives the
position of the module, which it finishes last, and finishes only modules that are reached from
there. -/
structure Visited (read : ModulePath → ReadOutcome) (logical : ModulePath) (s : Search)
    (position : Nat) (s' : Search) : Prop where
  ordered : s'.Ordered read
  grows : s.Grows s'
  named : ∃ m, s'.finished[position]? = some m ∧ m.origin.logical = logical
  last : s.marks.lookup logical = none → s'.finished.length = position + 1
  reached : ∀ i, s.finished.length ≤ i → i < s'.finished.length → Reaches s'.finished position i

theorem followImports_ordered {visit : Importer → ModulePath → Bool → Resolving Nat}
    (hvisit : ∀ importer target directoryOnly s position s', s.Ordered read →
      (visit importer target directoryOnly).run s = (.ok position, s') →
      Visited read target s position s') {origin : ModuleOrigin} {items : List Tree.Import}
    {entries : List (Span × Nat)} {s s' : Search} (ordered : s.Ordered read)
    (h : (followImports visit origin items).run s = (.ok entries, s')) :
    s'.Ordered read ∧ s.Grows s' ∧
      Forall₂ (Leads s'.finished origin s'.finished.length) items entries ∧
      ∀ i, s.finished.length ≤ i → i < s'.finished.length →
        ∃ j ∈ entries.map Prod.snd, Reaches s'.finished j i := by
  induction items generalizing s entries with
  | nil =>
    cases h
    refine ⟨ordered, .refl _, .nil, fun i hle hlt => ?_⟩
    exact absurd hlt (Nat.not_lt.2 hle)
  | cons item rest ih =>
    have hcase := followCase visit origin item rest s
    rw [h] at hcase
    cases hcase with
    | @followed rel target position others t _ relative resolved visited followed =>
      have first := hvisit _ _ _ _ _ _ ordered visited
      obtain ⟨ordered', grows, leads, reached⟩ := ih first.ordered followed
      obtain ⟨m, hm, hlogical⟩ := first.named
      have hm' := getElem?_of_prefix grows.finished hm
      have hlt := (List.getElem?_eq_some_iff.1 hm').1
      refine ⟨ordered', first.grows.trans grows, .cons ?_ leads, ?_⟩
      · exact ⟨rfl, rel, m, relative, hlt, hm', resolved.trans (congrArg some hlogical.symm)⟩
      · -- a new module was finished under this import or under a later one
        intro i hle hlt
        rcases Nat.lt_or_ge i t.finished.length with hearly | hlate
        · refine ⟨position, mem_cons_self, ?_⟩
          exact (first.reached i hle hearly).longer grows.finished
        · obtain ⟨j, hj, hreach⟩ := reached i hlate hlt
          exact ⟨j, mem_cons_of_mem _ hj, hreach⟩

/-- Every visit that succeeds keeps the order. The induction is on the number of modules that may be
open at the same time. -/
theorem visit_ordered {bound : Nat} {importer? : Option Importer} {directoryOnly : Bool}
    {s s' : Search} {position : Nat} (ordered : s.Ordered read)
    (h : (visit read bound importer? logical directoryOnly).run s = (.ok position, s')) :
    Visited read logical s position s' := by
  induction bound generalizing importer? logical directoryOnly s s' position with
  | zero => cases h
  | succ bound ih =>
    have hcase := visitCase read bound importer? logical directoryOnly s
    rw [h] at hcase
    cases hcase with
    | shared mark =>
      refine ⟨ordered, .refl _, ordered.positions _ _ mark, ?_, fun i hle hlt => ?_⟩
      · intro hnone
        cases mark.symm.trans hnone
      · exact absurd hlt (Nat.not_lt.2 hle)
    | @closed name source tree reads imports t fresh named text parsed followed =>
      obtain ⟨ordered', grows, leads, reached⟩ := followImports_ordered
        (fun _ _ _ _ _ _ => ih) ((ordered.opened fresh).reading reads) followed
      have visiting : t.marks.lookup logical = some .visiting :=
        grows.marks _ _ lookup_cons_self
      have found : Found read t.finished t.finished.length
          ⟨⟨logical, fileFor read logical directoryOnly⟩, source, tree, imports⟩ :=
        ⟨text, ⟨name, named, parsed⟩, leads⟩
      have hprefix : t.finished <+: (t.closed ⟨⟨logical, fileFor read logical directoryOnly⟩,
          source, tree, imports⟩).finished := prefix_append _ _
      refine ⟨ordered'.closed visiting found (located_fileFor read logical directoryOnly),
        ⟨grows.finished.trans hprefix, ?_⟩, ⟨_, getElem?_concat_length, rfl⟩,
        fun _ => length_append, ?_⟩
      · intro path mark hmark
        have hne : path ≠ logical := by
          rintro rfl
          cases fresh.symm.trans hmark
        rw [closed, lookup_cons_of_ne hne]
        exact grows.marks _ _ ((Grows.opened fresh).marks _ _ hmark)
      · -- the new modules are those under the imports, and the module itself
        intro i hle hlt
        rw [closed, length_append] at hlt
        rcases Nat.lt_or_eq_of_le (Nat.le_of_lt_succ hlt) with hearly | rfl
        · obtain ⟨j, hj, hreach⟩ := reached i hle hearly
          refine .head ⟨_, getElem?_concat_length, hj⟩ ?_
          exact hreach.longer hprefix
        · exact .refl

/-! ## The whole order -/

theorem linearize_visited {sources : Sources} {root : ModulePath} {out : List ResolvedModule}
    (h : (linearize sources root).1 = .ok out) :
    ∃ position s, Visited sources.read root empty position s ∧ s.finished = out := by
  obtain ⟨position, s, hrun, hout⟩ := linearize_eq_ok h
  exact ⟨position, s, visit_ordered (ordered_empty _) hrun, hout⟩

/-- **The modules that a root needs are closed and in order.** The last of them is the root. Their
names are different. Each has the text of its file and the tree of that text under the last part of
its name, and for each import in turn the place of that import and the position of a module in front
of it, which has the name that the import means in its file. All of them are reached from the root
along their imports. -/
theorem linearize_closed {sources : Sources} {root : ModulePath} {out : List ResolvedModule}
    (h : (linearize sources root).1 = .ok out) :
    out.getLast?.map (·.origin.logical) = some root ∧
      (out.map (·.origin.logical)).Nodup ∧
      (∀ i m, out[i]? = some m → Found sources.read out i m) ∧
      ∀ i, i < out.length → Reaches out (out.length - 1) i := by
  unfold linearize at h
  rcases hrun : (visit sources.read (depthBound sources.fileCount root) none root false).run
    Search.empty with ⟨failure | position, s⟩
  · rw [hrun] at h
    cases h
  · rw [hrun] at h
    obtain rfl := Except.ok.inj h
    have visited := visit_ordered (Search.ordered_empty _) hrun
    obtain ⟨m, hm, hroot⟩ := visited.named
    have hlast : s.finished.length = position + 1 := visited.last rfl
    refine ⟨?_, visited.ordered.names, visited.ordered.found, ?_⟩
    · rw [getLast?_eq_getElem?, hlast, Nat.add_sub_cancel, hm, ← hroot]
      rfl
    · intro i hlt
      rw [hlast, Nat.add_sub_cancel]
      exact visited.reached i (Nat.zero_le i) hlt

/-! ## An example -/

/-- Four modules, of which one imports two that share the fourth. -/
def diamondFiles : Files :=
  ⟨[(⟨["app", "main.nz"]⟩, .text "import\n\t.left\n\t..right\nfun Int x()\n\t1\n"),
    (⟨["app", "left.nz"]⟩, .text "import\n\t..base\nfun Int x()\n\t2\n"),
    (⟨["right.nz"]⟩, .text "import\n\t.base\n\t.app.left\nfun Int x()\n\t3\n"),
    (⟨["base.nz"]⟩, .text "fun Int x()\n\t4\n")]⟩

/-- The modules that the first of them needs. -/
def diamondOrder : List ResolvedModule :=
  match (linearize diamondFiles.sources ⟨["app"]⟩).1 with
  | .ok out => out
  | .error _ => []

theorem linearize_diamond : (linearize diamondFiles.sources ⟨["app"]⟩).1 = .ok diamondOrder := by
  have hok : (linearize diamondFiles.sources ⟨["app"]⟩).1.isOk = true := by decide +kernel
  unfold diamondOrder
  generalize (linearize diamondFiles.sources ⟨["app"]⟩).1 = outcome at hok ⊢
  cases outcome with
  | error failure => cases hok
  | ok out => rfl

/-- The shared module comes first and the root last, and the root reaches it. -/
theorem linearize_closed_diamond :
    diamondOrder.map (·.origin.logical.text) = ["base", "app/left", "right", "app"] ∧
      diamondOrder.map (·.imports.map Prod.snd) = [[], [0], [0, 1], [1, 2]] ∧
      Reaches diamondOrder (diamondOrder.length - 1) 0 := by
  have hlength : 0 < diamondOrder.length := by decide +kernel
  refine ⟨by decide +kernel, by decide +kernel, ?_⟩
  exact (linearize_closed linearize_diamond).2.2.2 0 hlength

end ClassLang.Resolve
