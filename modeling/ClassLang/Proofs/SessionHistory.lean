import ClassLang.Proofs.FileForms
import ClassLang.Proofs.MatchingCode
import ClassLang.Proofs.SessionConsistency

/-!
# The history of a session leaves no trace

What a session has compiled depends on the requests that were made, and so do the numbers of the
classes. What it has compiled a module to does not. `Session.Made` says how each module of a session
came about: its text is that of the file that its name leads to, its class was checked behind those
before it, with the classes that its imports mean, and its artifact was generated from there.
Requests keep this (`Session.History.runAll`). In two such sessions over the same files, the modules
with the same name have classes that match (`Session.same_classes`); the main statement is
`Session.artifact_of_any_history`.
-/

set_option autoImplicit false

namespace ClassLang

open List
open Resolve (ResolvedModule Located Found Leads)
open Typed (ClassTable)

/-! ## The first classes of a table -/

variable {n i j : Nat} {modules : List CompiledModule} {m : CompiledModule}
  {imports : List (Span × ClassId)} {done rest : List ResolvedModule}

namespace Typed.ClassTable

/-- The table as it was when it had `n` classes. -/
def front (table : ClassTable) (n : Nat) : ClassTable := ⟨table.classes.take n⟩

variable {table : ClassTable}

theorem size_front (h : n ≤ table.size) : (table.front n).size = n :=
  (length_take).trans (Nat.min_eq_left h)

theorem front_size : table.front table.size = table := congrArg mk (take_length)

theorem front_push (h : n ≤ table.size) (c : Class) :
    (table.push c).front n = table.front n := congrArg mk (take_append_of_le_length h)

theorem front_push_size (c : Class) : (table.push c).front (table.size + 1) = table.push c := by
  rw [← size_push (c := c), front_size]

theorem get?_front (h : i < n) : (table.front n).get? i = table.get? i :=
  getElem?_take_of_lt h

/-- The table grew by the class at its position. -/
theorem front_succ {c : Class} (h : table.get? i = some c) :
    table.front (i + 1) = (table.front i).push c := by
  have hget : table.classes[i]? = some c := h
  rw [front, take_add_one, hget]
  rfl

end Typed.ClassTable

namespace Session

/-! ## How a module came about -/

/-- An import leads to the class of a module before the one at `i`, namely of the module with the
name that the import means in its file. -/
def Meets (modules : List CompiledModule) (origin : ModuleOrigin) (i : Nat) (item : Tree.Import)
    (entry : Span × ClassId) : Prop :=
  ∃ rel m, item.path = .relative rel ∧ entry.2 < i ∧ modules[entry.2]? = some m ∧
    origin.full.resolve? rel = some m.origin.logical

/-- How the module at `i` came about. -/
structure Makes (read : ModulePath → ReadOutcome) (table : ClassTable)
    (modules : List CompiledModule) (i : Nat) (m : CompiledModule) (source : String)
    (tree : Tree.Module) (imports : List (Span × ClassId)) (c : Typed.Class) : Prop where
  located : Located m.origin
  text : read m.origin.full = .text source
  parsed : ∃ name, m.origin.logical.last? = some name ∧ Tree.parse source name = .ok tree
  meets : Forall₂ (Meets modules m.origin i) tree.imports imports
  checked : Typed.checkModule (table.front i) m.origin.logical tree imports =
    .ok (table.front (i + 1))
  got : table.get? i = some c
  generated : Code.generateClass (table.front (i + 1)) c source = .ok m.artifact

/-- All modules came about from the same files. -/
def Made (read : ModulePath → ReadOutcome) (table : ClassTable) (modules : List CompiledModule) :
    Prop :=
  ∀ (i : Nat) m, modules[i]? = some m →
    ∃ source tree imports c, Makes read table modules i m source tree imports c

theorem Meets.grow {origin : ModuleOrigin} {item : Tree.Import} {entry : Span × ClassId}
    (h : Meets modules origin i item entry) (others : List CompiledModule) :
    Meets (modules ++ others) origin i item entry := by
  obtain ⟨rel, m, hrel, hentry, hm, hresolve⟩ := h
  refine ⟨rel, m, hrel, hentry, ?_, hresolve⟩
  exact (getElem?_append_left (List.getElem?_eq_some_iff.1 hm).1).trans hm

section Made

variable {read : ModulePath → ReadOutcome} {table : ClassTable}

theorem Makes.grow {source : String} {tree : Tree.Module} {c : Typed.Class}
    (h : Makes read table modules i m source tree imports c) (d : Typed.Class)
    (others : List CompiledModule) :
    Makes read (table.push d) (modules ++ others) i m source tree imports c := by
  have hlt := ClassTable.lt_size_of_get? h.got
  refine ⟨h.located, h.text, h.parsed, h.meets.imp fun _ _ meets => meets.grow others, ?_, ?_, ?_⟩
  · rw [ClassTable.front_push (Nat.le_of_lt hlt), ClassTable.front_push hlt]
    exact h.checked
  · rw [ClassTable.get?_push_of_lt hlt]
    exact h.got
  · rw [ClassTable.front_push hlt]
    exact h.generated

/-- One more module, made in the same way. -/
theorem Made.extended (made : Made read table modules) (hsize : table.size = modules.length)
    {c : Typed.Class} {source : String} {tree : Tree.Module} (located : Located m.origin)
    (text : read m.origin.full = .text source)
    (parsed : ∃ name, m.origin.logical.last? = some name ∧ Tree.parse source name = .ok tree)
    (himports : Forall₂ (Meets modules m.origin table.size) tree.imports imports)
    (checked : Typed.checkModule table m.origin.logical tree imports = .ok (table.push c))
    (generated : Code.generateClass (table.push c) c source = .ok m.artifact) :
    Made read (table.push c) (modules ++ [m]) := by
  intro i m' hm'
  rcases Nat.lt_or_ge i modules.length with hlt | hge
  · rw [getElem?_append_left hlt] at hm'
    obtain ⟨source', tree', imports', c', makes⟩ := made i m' hm'
    exact ⟨source', tree', imports', c', makes.grow c [m]⟩
  have hi : i = table.size := by
    have hlt := (List.getElem?_eq_some_iff.1 hm').1
    rw [length_append] at hlt
    rw [hsize]
    exact Nat.le_antisymm (Nat.le_of_lt_succ hlt) hge
  subst hi
  rw [hsize, getElem?_concat_length] at hm'
  cases hm'
  refine ⟨source, tree, imports, c, located, text, parsed,
    himports.imp fun _ _ meets => meets.grow [m], ?_, ClassTable.get?_push_size, ?_⟩
  · rw [ClassTable.front_push (Nat.le_refl _), ClassTable.front_size, ClassTable.front_push_size]
    exact checked
  · rw [ClassTable.front_push_size]
    exact generated

end Made

/-- What holds of a session over these files. -/
structure History (sources : Sources) (s : Session) : Prop where
  standing : s.Standing
  made : Made sources.read s.table s.modules

theorem history_initial (sources : Sources) : History sources initial where
  standing := standing_initial
  made _ _ hm := nomatch hm

/-! ## Requests keep the history -/

/-- The class was compiled from the module. -/
def Placed (modules : List CompiledModule) (id : ClassId) (r : ResolvedModule) : Prop :=
  ∃ m, modules[id]? = some m ∧ m.origin.logical = r.origin.logical

variable {r : ResolvedModule} {ids : List ClassId}

theorem Placed.grow {modules' : List CompiledModule} {id : ClassId} (h : Placed modules id r)
    (grown : modules <+: modules') : Placed modules' id r := by
  obtain ⟨m, hm, hlogical⟩ := h
  obtain ⟨others, rfl⟩ := grown
  exact ⟨m, (getElem?_append_left (List.getElem?_eq_some_iff.1 hm).1).trans hm, hlogical⟩

theorem Standing.size_eq {s : Session} (standing : s.Standing) :
    s.table.size = s.modules.length := standing.compiled.length_eq

/-- The imports of a module lead to the classes that the modules before it were compiled to. -/
theorem meets_importIds {read : ModulePath → ReadOutcome}
    (hids : Forall₂ (Placed modules) ids done)
    (found : Found read (done ++ r :: rest) done.length r) :
    Forall₂ (Meets modules r.origin modules.length) r.tree.imports (importIds ids r) := by
  refine forall₂_map_right_iff.2 (found.imports.imp ?_)
  rintro item ⟨span, position⟩ ⟨-, rel, target, hrel, hlt, htarget, hresolve⟩
  rw [getElem?_append_left hlt] at htarget
  obtain ⟨id, hid, m, hm, hlogical⟩ := forall₂_getElem?_right hids htarget
  have hget : ids.getD position 0 = id := by rw [getD_eq_getElem?_getD, hid, Option.getD_some]
  refine ⟨rel, m, hrel, ?_, ?_, hresolve.trans (congrArg some hlogical.symm)⟩
  · dsimp only
    rw [hget]
    exact (List.getElem?_eq_some_iff.1 hm).1
  · dsimp only
    rw [hget]
    exact hm

section Requests

variable {sources : Sources} {s : Session}

theorem history_compileModule (history : History sources s)
    (hids : Forall₂ (Placed s.modules) ids done)
    (found : Found sources.read (done ++ r :: rest) done.length r) (located : Located r.origin) :
    History sources ((compileModule ids r).run s).2 ∧
      s.modules <+: ((compileModule ids r).run s).2.modules ∧
      ∀ id, ((compileModule ids r).run s).1 = .ok id →
        Placed ((compileModule ids r).run s).2.modules id r := by
  have start : Keeping s.modules False s := ⟨history.standing, prefix_refl _, False.elim⟩
  have keeping : Keeping s.modules False ((compileModule ids r).run s).2 :=
    (keeps_compileModule ids False.elim s start).1
  rcases compileModule_cases ids r history.standing.typed with
    ⟨-, ⟨compiled, hcompiled, hrun⟩ | ⟨e, hrun, -⟩⟩ |
      ⟨-, c, a, -, -, -, checked, -, generated, ⟨e, l, -, hrun⟩ | ⟨l, -, hrun⟩⟩
  · -- it was compiled before, and its class has the position of the module
    rw [hrun] at keeping ⊢
    refine ⟨⟨keeping.standing, history.made⟩, keeping.grown, ?_⟩
    rintro id ⟨⟩
    obtain ⟨i, hi, hlogical⟩ := (history.standing.module?_eq_some_iff _ _).1 hcompiled
    obtain ⟨c, -, hc, hclass⟩ := history.standing.get_module hi
    refine ⟨compiled, ?_, hlogical⟩
    rw [hclass.id, hc]
    exact hi
  · rw [hrun] at keeping ⊢
    exact ⟨⟨keeping.standing, history.made⟩, keeping.grown, fun _ h => nomatch h⟩
  · -- the loader refused it, which leaves the table and the modules
    rw [hrun] at keeping ⊢
    exact ⟨⟨keeping.standing, history.made⟩, keeping.grown, fun _ h => nomatch h⟩
  · rw [hrun] at keeping ⊢
    have hsize := history.standing.size_eq
    refine ⟨⟨keeping.standing, ?_⟩, keeping.grown, ?_⟩
    · refine history.made.extended hsize located found.text found.tree ?_ checked generated
      rw [hsize]
      exact meets_importIds hids found
    · rintro id ⟨⟩
      refine ⟨⟨r.origin, s.table.size, a⟩, ?_, rfl⟩
      dsimp only
      rw [hsize, getElem?_concat_length]

/-- The induction is on the modules that are still to be compiled; those `done` have classes, which
`ids` are. -/
theorem history_compileAll (history : History sources s)
    (hids : Forall₂ (Placed s.modules) ids done)
    (found : ∀ i r, (done ++ rest)[i]? = some r → Found sources.read (done ++ rest) i r)
    (located : ∀ r ∈ rest, Located r.origin) : History sources ((compileAll ids rest).run s).2 := by
  induction rest generalizing s ids done with
  | nil => exact history
  | cons r rest ih =>
    obtain ⟨hlocated, hothers⟩ := forall_mem_cons.1 located
    have hfound := found done.length r (by simp)
    obtain ⟨history', grown, hplaced⟩ := history_compileModule history hids hfound hlocated
    rw [compileAll, run_bind]
    rcases hrun : (compileModule ids r).run s with ⟨e | id, s'⟩
    · rw [hrun] at history'
      exact history'
    rw [hrun] at history' grown hplaced
    have hids' := hids.imp fun _ _ h => h.grow grown
    have hsplit : done ++ [r] ++ rest = done ++ r :: rest := by simp
    refine ih history' (rel_append hids' (.cons (hplaced id rfl) .nil)) ?_ hothers
    rw [hsplit]
    exact found

theorem history_compile (history : History sources s) (logical : ModulePath) :
    History sources ((compile sources logical).run s).2 := by
  unfold compile
  cases hmodules : (Resolve.linearize sources logical).1 with
  | error failure => exact history
  | ok modules =>
    obtain ⟨position, search, visited, rfl⟩ := Resolve.linearize_visited hmodules
    have ordered := visited.ordered
    have hall := history_compileAll history (.nil : Forall₂ (Placed s.modules) [] [])
      ordered.found ordered.located
    dsimp only
    rw [run_bind]
    rcases hrun : (compileAll [] search.finished).run s with ⟨e | _, s'⟩
    · rw [hrun] at hall
      exact hall
    rw [hrun] at hall
    dsimp only
    rw [run_get_bind]
    split
    · exact hall
    · exact hall

/-- All requests to compile take their modules from these files. -/
def Over (sources : Sources) (steps : List Step) : Prop :=
  ∀ step ∈ steps, ∀ sources' path, step = .compile sources' path → sources' = sources

/-- **One request** keeps what is known of how the modules came about. -/
theorem History.step (history : History sources s) (step : Step)
    (hstep : ∀ sources' path, step = .compile sources' path → sources' = sources) :
    History sources (step.run.run s).2 := by
  have start : Keeping [] False s := ⟨history.standing, nil_prefix, False.elim⟩
  refine ⟨(start.step step False.elim).1.standing, ?_⟩
  cases step with
  | compile sources' logical =>
    obtain rfl := hstep sources' logical rfl
    rw [Step.run, run_map]
    exact (history_compile history logical).made
  | newObject logical fields =>
    rw [Step.run, run_map, newObject, run_load]
    exact history.made
  | field object name =>
    rw [Step.run, run_map, field, run_load]
    exact history.made
  | invoke logical method args =>
    rw [Step.run, run_map, invoke, run_load]
    exact history.made

theorem History.runAll (history : History sources s) {steps : List Step}
    (hsteps : Over sources steps) : History sources (s.runAll steps) := by
  induction steps generalizing s with
  | nil => exact history
  | cons step steps ih =>
    obtain ⟨hfirst, hrest⟩ := forall_mem_cons.1 hsteps
    exact ih (history.step step hfirst) hrest

end Requests

end Session

/-! ## Two sessions over the same files -/

theorem forall₂_of_left {α β γ : Type} {R : α → β → Prop} {S : α → γ → Prop} {T : β → γ → Prop}
    (hT : ∀ a b c, R a b → S a c → T b c) {as : List α} {bs : List β} {cs : List γ}
    (h : Forall₂ R as bs) (h' : Forall₂ S as cs) : Forall₂ T bs cs := by
  induction h generalizing cs with
  | nil =>
    cases h'
    exact .nil
  | cons hab _ ih =>
    cases h' with
    | cons hac hrest => exact .cons (hT _ _ _ hab hac) (ih hrest)

namespace Session

/-- Two positions at which the sessions have modules of the same name. -/
def SameModule (s s' : Session) (i j : Nat) : Prop :=
  ∃ m m', s.modules[i]? = some m ∧ s'.modules[j]? = some m' ∧ m'.origin.logical = m.origin.logical

/-- Classes of modules with the same name stand for each other, as far as these positions; every
place stands for itself. -/
def matchingUpTo (s s' : Session) (n k : Nat) : Matching :=
  ⟨fun i j => i < n ∧ j < k ∧ SameModule s s' i j, Eq⟩

theorem Standing.position_unique {s : Session} (standing : s.Standing) {m' : CompiledModule}
    (hi : s.modules[i]? = some m) (hj : s.modules[j]? = some m')
    (hlogical : m'.origin.logical = m.origin.logical) : i = j := by
  have hlength : i < (s.modules.map (·.origin.logical)).length := by
    rw [length_map]
    exact (List.getElem?_eq_some_iff.1 hi).1
  refine (getElem?_inj hlength standing.paths).1 ?_
  rw [getElem?_map, getElem?_map, hi, hj, Option.map_some, Option.map_some, hlogical]

section TwoSessions

variable {s s' : Session}

theorem biUnique_matchingUpTo (standing : s.Standing) (standing' : s'.Standing) (n k : Nat) :
    Relator.BiUnique (matchingUpTo s s' n k).ids := by
  constructor
  · rintro i₁ i₂ j ⟨-, -, m₁, m, hm₁, hm, h₁⟩ ⟨-, -, m₂, m', hm₂, hm', h₂⟩
    cases hm.symm.trans hm'
    exact standing.position_unique hm₁ hm₂ (h₂.symm.trans h₁)
  · rintro i j₁ j₂ ⟨-, -, m, m₁, hm, hm₁, h₁⟩ ⟨-, -, m', m₂, hm', hm₂, h₂⟩
    cases hm.symm.trans hm'
    exact standing'.position_unique hm₁ hm₂ (h₂.trans h₁.symm)

theorem matchingUpTo_more {k n' k' : Nat} (hn : n ≤ n') (hk : k ≤ k') :
    ∀ i j, (matchingUpTo s s' n k).ids i j → (matchingUpTo s s' n' k').ids i j :=
  fun _ _ h => ⟨Nat.lt_of_lt_of_le h.1 hn, Nat.lt_of_lt_of_le h.2.1 hk, h.2.2⟩

/-- The classes and the artifacts at two positions match. -/
structure SameClass (s s' : Session) (i j : Nat) : Prop where
  artifacts : ∀ m m', s.modules[i]? = some m → s'.modules[j]? = some m' →
    m.artifact.Matches (matchingUpTo s s' (i + 1) (j + 1)) m'.artifact
  classes : ∃ c c', s.table.get? i = some c ∧ s'.table.get? j = some c' ∧
    c.MatchesWhole (matchingUpTo s s' (i + 1) (j + 1)) c'

theorem SameClass.relates_get? {k : Nat} (h : SameClass s s' i j) (hi : i < n) (hj : j < k) :
    Option.Rel (Typed.Class.Matches (matchingUpTo s s' n k)) (s.table.get? i)
      (s'.table.get? j) := by
  obtain ⟨c, c', hc, hc', hclass⟩ := h.classes
  rw [hc, hc']
  exact .some (hclass.toMatches.more (matchingUpTo_more hi hj))

/-- If the classes before two modules of the same name match, so do the tables that the modules were
checked in. -/
theorem matches_front (standing : s.Standing) (standing' : s'.Standing) (same : SameModule s s' i j)
    (hi : i ≤ s.table.size) (hj : j ≤ s'.table.size)
    (before : ∀ i' j', i' < i → SameModule s s' i' j' → SameClass s s' i' j') :
    (s.table.front i).Matches (matchingUpTo s s' (i + 1) (j + 1)) (s'.table.front j) := by
  have unique := biUnique_matchingUpTo standing standing' (i + 1) (j + 1)
  have own : (matchingUpTo s s' (i + 1) (j + 1)).ids i j := ⟨i.lt_succ_self, j.lt_succ_self, same⟩
  intro i' j' hids
  by_cases heq : i' = i
  · -- the two modules themselves are not there yet
    subst heq
    obtain rfl := unique.2 own hids
    rw [ClassTable.get?_eq_none.2 (Nat.le_of_eq (ClassTable.size_front hi)),
      ClassTable.get?_eq_none.2 (Nat.le_of_eq (ClassTable.size_front hj))]
    exact .none
  have hlt : i' < i := Nat.lt_of_le_of_ne (Nat.le_of_lt_succ hids.1) heq
  have hlt' : j' < j := by
    refine Nat.lt_of_le_of_ne (Nat.le_of_lt_succ hids.2.1) ?_
    rintro rfl
    exact heq (unique.1 hids own)
  rw [ClassTable.get?_front hlt, ClassTable.get?_front hlt']
  exact (before i' j' hlt hids.2.2).relates_get? hids.1 hids.2.1

section OneModule

variable {sources : Sources} {m' : CompiledModule} {source source' : String}
  {tree tree' : Tree.Module} {imports' : List (Span × ClassId)} {c c' : Typed.Class}

/-- Modules of the same name have the same file, and so the same text and the same tree. -/
theorem Makes.same_text (single : sources.OneFileEach)
    (makes : Makes sources.read s.table s.modules i m source tree imports c)
    (makes' : Makes sources.read s'.table s'.modules j m' source' tree' imports' c')
    (hlogical : m'.origin.logical = m.origin.logical) :
    m'.origin = m.origin ∧ source' = source ∧ tree' = tree := by
  have horigin := single.origin_eq hlogical makes.located makes'.located makes.text makes'.text
  obtain rfl : source' = source := by
    have htext := makes'.text
    rw [horigin, makes.text] at htext
    exact (ReadOutcome.text.inj htext).symm
  obtain ⟨name, hname, hparse⟩ := makes.parsed
  obtain ⟨name', hname', hparse'⟩ := makes'.parsed
  rw [hlogical, hname] at hname'
  cases hname'
  exact ⟨horigin, rfl, Except.ok.inj (hparse'.symm.trans hparse)⟩

/-- The imports of the same module mean modules of the same names. -/
theorem Makes.same_imports
    (makes : Makes sources.read s.table s.modules i m source tree imports c)
    (makes' : Makes sources.read s'.table s'.modules j m' source tree imports' c')
    (horigin : m'.origin = m.origin) :
    Forall₂ (fun a b => (matchingUpTo s s' (i + 1) (j + 1)).ids a.2 b.2) imports imports' := by
  refine forall₂_of_left ?_ makes.meets makes'.meets
  rintro item entry entry' ⟨rel, n, hrel, hlt, hn, hresolve⟩ ⟨rel', n', hrel', hlt', hn', hresolve'⟩
  cases hrel.symm.trans hrel'
  rw [horigin, hresolve] at hresolve'
  refine ⟨Nat.lt_succ_of_lt hlt, Nat.lt_succ_of_lt hlt', n, n', hn, hn', ?_⟩
  exact (Option.some.inj hresolve').symm

end OneModule

/-- **One module.** If the classes before two modules of the same name match, so do their own. -/
theorem sameClass_of_before {sources : Sources} (single : sources.OneFileEach)
    (history : History sources s) (history' : History sources s') (same : SameModule s s' i j)
    (before : ∀ i' j', i' < i → SameModule s s' i' j' → SameClass s s' i' j') :
    SameClass s s' i j := by
  have unique := biUnique_matchingUpTo history.standing history'.standing (i + 1) (j + 1)
  obtain ⟨m, m', hm, hm', hlogical⟩ := id same
  obtain ⟨source, tree, imports, c, makes⟩ := history.made i m hm
  obtain ⟨source', tree', imports', c', makes'⟩ := history'.made j m' hm'
  obtain ⟨horigin, rfl, rfl⟩ := makes.same_text single makes' hlogical
  have hi := Nat.le_of_lt (ClassTable.lt_size_of_get? makes.got)
  have hj := Nat.le_of_lt (ClassTable.lt_size_of_get? makes'.got)
  have htable := matches_front history.standing history'.standing same hi hj before
  have own : (matchingUpTo s s' (i + 1) (j + 1)).ids (s.table.front i).size
      (s'.table.front j).size := by
    rw [ClassTable.size_front hi, ClassTable.size_front hj]
    exact ⟨i.lt_succ_self, j.lt_succ_self, same⟩
  -- both were accepted, so the classes match
  have hclass : c.MatchesWhole (matchingUpTo s s' (i + 1) (j + 1)) c' := by
    have hchecked := makes.checked
    have hchecked' := makes'.checked
    rw [ClassTable.front_succ makes.got] at hchecked
    rw [ClassTable.front_succ makes'.got, hlogical] at hchecked'
    obtain ⟨d, hd, hclass⟩ := Typed.checkModule_matches unique (fun _ => rfl) htable own
      (makes.same_imports makes' horigin) hchecked
    obtain rfl := ClassTable.push_injective (Except.ok.inj (hd.symm.trans hchecked'))
    exact hclass
  refine ⟨?_, c, c', makes.got, makes'.got, hclass⟩
  intro n n' hn hn'
  cases hm.symm.trans hn
  cases hm'.symm.trans hn'
  have hfront := htable.push unique own hclass.toMatches
  rw [← ClassTable.front_succ makes.got, ← ClassTable.front_succ makes'.got] at hfront
  have hagree := Code.generateClass_agree unique (fun _ _ h => h) hfront hclass source'
  rw [makes.generated, makes'.generated] at hagree
  cases hagree with
  | ok h => exact h

/-- **All modules.** In two sessions over the same files, modules of the same name have classes that
match. The induction is on the position in the first session, as imports lead to classes before. -/
theorem same_classes {sources : Sources} (single : sources.OneFileEach)
    (history : History sources s) (history' : History sources s') (same : SameModule s s' i j) :
    SameClass s s' i j := by
  induction i using Nat.strong_induction_on generalizing j with
  | h i ih =>
    exact sameClass_of_before single history history' same fun i' j' hlt same' => ih i' hlt same'

end TwoSessions

/-- **Artifacts do not depend on the history of a session.** In any two sessions over the same files,
in which no module has two files, a module that both have compiled has the same bytes, texts, fields
at the same offsets and methods with the same instructions and line tables, and its class is listed
alike, whatever was requested before and whatever numbers the classes have. -/
theorem artifact_of_any_history {sources : Sources} (single : sources.OneFileEach)
    {steps steps' : List Step} (hsteps : Over sources steps) (hsteps' : Over sources steps')
    {path : ModulePath} {m m' : CompiledModule}
    (hm : (initial.runAll steps).module? path = some m)
    (hm' : (initial.runAll steps').module? path = some m') :
    m'.artifact.bytes = m.artifact.bytes ∧ m'.artifact.texts = m.artifact.texts ∧
      m'.artifact.fields.map (fun f => (f.name, f.offset)) =
        m.artifact.fields.map (fun f => (f.name, f.offset)) ∧
      m'.artifact.methods.map (fun f => (f.name, f.code, f.lines)) =
        m.artifact.methods.map (fun f => (f.name, f.code, f.lines)) ∧
      ∃ c c', (initial.runAll steps).table.get? m.id = some c ∧
        (initial.runAll steps').table.get? m'.id = some c' ∧
        c'.text (initial.runAll steps').table = c.text (initial.runAll steps).table := by
  have history := (history_initial sources).runAll hsteps
  have history' := (history_initial sources).runAll hsteps'
  generalize initial.runAll steps = s at history hm ⊢
  generalize initial.runAll steps' = s' at history' hm' ⊢
  obtain ⟨i, hi, rfl⟩ := (history.standing.module?_eq_some_iff _ _).1 hm
  obtain ⟨j, hj, hlogical⟩ := (history'.standing.module?_eq_some_iff _ _).1 hm'
  have sameClass := same_classes single history history' ⟨m, m', hi, hj, hlogical⟩
  have hartifact := sameClass.artifacts m m' hi hj
  obtain ⟨c, c', hc, hc', hclass⟩ := sameClass.classes
  -- the listing is made with all classes that the session has now
  have htable : s.table.Matches (matchingUpTo s s' (i + 1) (j + 1)) s'.table := by
    intro i' j' hids
    exact (same_classes single history history' hids.2.2).relates_get? hids.1 hids.2.1
  refine ⟨hartifact.bytes_eq, hartifact.texts, ?_, ?_, c, c', ?_, ?_, hclass.text_eq htable⟩
  · exact map_eq_of_forall₂ (fun _ _ hfield => by rw [hfield.name, hfield.offset]) hartifact.fields
  · exact map_eq_of_forall₂ (fun _ _ hm => by rw [hm.name, hm.code, hm.lines]) hartifact.methods
  · obtain ⟨d, hd, hid, hcompiled⟩ := history.standing.get_module hi
    rw [hcompiled.id, hid]
    exact hc
  · obtain ⟨d, hd, hid, hcompiled⟩ := history'.standing.get_module hj
    rw [hcompiled.id, hid]
    exact hc'

/-! ## An example -/

/-- A module that imports another, and a third one by itself. -/
def trioFiles : Files :=
  ⟨(⟨["Other.nz"]⟩, .text "fun Int zero()\n\t0\n") :: (pairFiles "Base.one + Base.one").entries⟩

/-- A request for one of them. -/
def trioCompile (name : String) : Step := .compile trioFiles.sources (.parse name)

/-- After requests for a module that is missing and for the third module, the first one has another
number, and the same artifact. -/
theorem artifact_of_any_history_trio : ∃ m m',
    (initial.runAll [trioCompile "App"]).module? (.parse "App") = some m ∧
    (initial.runAll [trioCompile "Apps", trioCompile "Other", trioCompile "App"]).module?
      (.parse "App") = some m' ∧ m.id = 1 ∧ m'.id = 2 ∧
    m'.artifact.bytes = m.artifact.bytes := by
  have hfirst : ((initial.runAll [trioCompile "App"]).module? (.parse "App")).map (·.id) =
      some 1 := by decide +kernel
  have hlast : ((initial.runAll [trioCompile "Apps", trioCompile "Other",
      trioCompile "App"]).module? (.parse "App")).map (·.id) = some 2 := by decide +kernel
  obtain ⟨m, hm, hid⟩ := Option.map_eq_some_iff.1 hfirst
  obtain ⟨m', hm', hid'⟩ := Option.map_eq_some_iff.1 hlast
  have single : trioFiles.sources.OneFileEach := oneFileEach_of_noEntry (by decide)
  have hsteps : ∀ names : List String, Over trioFiles.sources (names.map trioCompile) := by
    intro names step hstep sources' path heq
    obtain ⟨name, -, rfl⟩ := mem_map.1 hstep
    exact (Step.compile.inj heq).1.symm
  exact ⟨m, m', hm, hm', hid, hid', (artifact_of_any_history single (hsteps ["App"])
    (hsteps ["Apps", "Other", "App"]) hm hm').1⟩

end Session

end ClassLang
