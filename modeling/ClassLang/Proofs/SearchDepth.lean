import ClassLang.Proofs.Cycles

/-!
# How deep a search goes

A visit of a module visits the modules that it imports, and so on. The modules of such a nest are open
at the same time, so they have different names, and all but the innermost have a file; a file is known by
two names at most. So a search that may go as deep as twice the number of files, and one more, never
wants to go deeper (`visit_settles`): it does not meet its bound, and a larger bound changes nothing.
-/

set_option autoImplicit false

namespace ClassLang

/-- A search went as deep as it may. -/
def Failure.isOfDepth : Failure → Bool
  | .inModule ⟨_, _, .boundReached⟩ => true
  | _ => false

namespace Resolve

/-! ## Steps that do not meet their bound -/

/-- From `s`, both steps do the same, and the bound is not met. -/
structure Settles {α : Type} (x y : Resolving α) (s : Search) : Prop where
  same : x.run s = y.run s
  fine : ∀ e t, y.run s = (.error e, t) → e.isOfDepth = false

namespace Settles

variable {α β : Type} {x y : Resolving α} {s : Search}

theorem pure (a : α) (s : Search) : Settles (Pure.pure a) (Pure.pure a) s :=
  ⟨rfl, fun e t h => by cases h⟩

theorem throw {e : Failure} (h : e.isOfDepth = false) (s : Search) :
    Settles (α := α) (MonadExcept.throw e) (MonadExcept.throw e) s := by
  refine ⟨rfl, fun e' t herror => ?_⟩
  cases herror
  exact h

theorem bind {f g : α → Resolving β} (first : Settles x y s)
    (rest : ∀ a t, y.run s = (.ok a, t) → Settles (f a) (g a) t) :
    Settles (x >>= f) (y >>= g) s := by
  have hfirst := first.fine
  refine ⟨?_, fun e t => ?_⟩
  · rw [run_bind, run_bind, first.same]
    rcases hrun : y.run s with ⟨e | a, t⟩
    · rfl
    · exact (rest a t hrun).same
  · rw [run_bind]
    rcases hrun : y.run s with ⟨e' | a, t'⟩
    · intro h
      cases h
      exact hfirst _ _ hrun
    · exact (rest a t' hrun).fine e t

end Settles

theorem isOfDepth_failFor (importer? : Option Importer) {fault : Fault} (h : fault ≠ .boundReached) :
    (failFor importer? fault).isOfDepth = false := by
  cases importer? <;> cases fault <;> first | rfl | exact absurd rfl h

theorem isOfDepth_of_parse {source name : String} {e : CompileError}
    (h : Tree.parse source name = .error e) (origin : ModuleOrigin) :
    (Failure.attributed origin e).isOfDepth = false :=
  isOfDepth_failFor (some ⟨origin, e.span, default⟩) (Tree.parse_error h).2.1

theorem notFound_ne_boundReached (rel : RelativePath) (logical : ModulePath) (directoryOnly : Bool) :
    notFound rel logical directoryOnly ≠ .boundReached := by
  unfold notFound
  dsimp only
  split <;> exact Fault.noConfusion

/-! ## Visits -/

section Visits

variable {read : ModulePath → ReadOutcome} {root : ModulePath} {bound : Nat}
  {stack : List ModuleOrigin} {s : Search}

/-- Following the imports of the innermost open module. -/
theorem followImports_settles {extra : Nat} {m : ModuleOrigin}
    (hvisit : ∀ {importer? logical directoryOnly s},
      Asks read root (m :: stack) importer? logical directoryOnly → s.Opens read root (m :: stack) →
      Settles (visit read (bound + extra) importer? logical directoryOnly)
        (visit read bound importer? logical directoryOnly) s)
    {tree : Tree.Module} (hastree : HasTree read m tree) {items : List Tree.Import}
    (hitems : ∀ item ∈ items, item ∈ tree.imports) (opens : s.Opens read root (m :: stack)) :
    Settles (followImports (fun importer => visit read (bound + extra) (some importer)) m items)
      (followImports (fun importer => visit read bound (some importer)) m items) s := by
  induction items generalizing s with
  | nil => exact .pure _ s
  | cons item rest ih =>
    obtain ⟨hitem, hrest⟩ := List.forall_mem_cons.1 hitems
    rw [followImports, followImports]
    cases hpath : item.path with
    | fromTop path => exact .throw rfl s
    | relative rel =>
      dsimp only
      cases hresolve : m.full.resolve? rel with
      | none => exact .throw rfl s
      | some target =>
        have has : HasImport read m item.span rel target :=
          ⟨tree, item, hastree, hitem, rfl, hpath, hresolve⟩
        refine .bind (hvisit (.imported has) opens) fun position t visited => ?_
        refine .bind (ih hrest (opens.same (visit_visiting visited))) fun others t' _ => ?_
        exact .pure _ t'

/-- **A visit that may still open enough modules** does not meet its bound. The induction is on the
number of modules that may be opened; as many as that are never open. -/
theorem visit_settles {files : List ModulePath} {importer? : Option Importer} {logical : ModulePath}
    {directoryOnly : Bool}
    (holds : ∀ m source, Needed read root m → read m.full = .text source → m.full ∈ files)
    (asks : Asks read root stack importer? logical directoryOnly) (opens : s.Opens read root stack)
    (hbound : 2 * files.length < stack.length + bound) (extra : Nat) :
    Settles (visit read (bound + extra) importer? logical directoryOnly)
      (visit read bound importer? logical directoryOnly) s := by
  induction bound generalizing stack importer? logical directoryOnly s with
  | zero =>
    have hlength := opens.length_le holds
    omega
  | succ bound ih =>
    rw [Nat.add_right_comm]
    change Settles (get >>= _) (get >>= _) s
    refine .bind ⟨rfl, fun e t h => by cases h⟩ fun seen t hseen => ?_
    obtain ⟨rfl, rfl⟩ : s = seen ∧ s = t := ⟨Except.ok.inj (Prod.mk.inj hseen).1, (Prod.mk.inj hseen).2⟩
    split
    · exact .pure _ s
    · exact .throw (isOfDepth_failFor importer? Fault.noConfusion) s
    · exact .throw (isOfDepth_failFor importer? Fault.noConfusion) s
    · next name fresh named =>
      refine .bind ⟨rfl, fun e t h => by cases h⟩ fun _ t hopened => ?_
      obtain rfl : s.opened logical = t := (Prod.mk.inj hopened).2
      refine .bind ⟨rfl, fun e t h => ?_⟩ fun found t hfound => ?_
      · rw [run_locate_fileFor] at h
        cases hread : read (fileFor read logical directoryOnly) <;> rw [hread] at h <;> cases h
        rfl
      rw [run_locate_fileFor] at hfound
      cases hread : read (fileFor read logical directoryOnly) with
      | failed reason =>
        rw [hread] at hfound
        cases hfound
      | missing =>
        rw [hread] at hfound
        cases hfound
        exact .throw (isOfDepth_failFor importer? (notFound_ne_boundReached _ _ _)) _
      | text source =>
        rw [hread] at hfound
        cases hfound
        dsimp only
        cases hparse : Tree.parse source name with
        | error e => exact .throw (isOfDepth_of_parse hparse _) _
        | ok tree =>
          refine .bind (followImports_settles (fun asks opens => ih asks opens ?_)
            ⟨name, source, named, hread, hparse⟩ (fun _ hitem => hitem)
            (opens.opened asks fresh hread _)) fun imports t _ => ⟨rfl, fun e t h => by cases h⟩
          rw [List.length_cons]
          omega

end Visits

/-! ## Whole searches -/

/-- The search for a root in which visits may be nested as deep as `depth`. -/
def searchWithin (read : ModulePath → ReadOutcome) (root : ModulePath) (depth : Nat) :
    Except Failure Nat × Search :=
  (visit read depth none root false).run Search.empty

/-- What comes out of a search. -/
def outcome (found : Except Failure Nat × Search) :
    Except Failure (List ResolvedModule) × List ModulePath :=
  (found.1.map fun _ => found.2.finished, found.2.reads)

theorem searchWithin_settles {read : ModulePath → ReadOutcome} {root : ModulePath}
    {files : List ModulePath}
    (holds : ∀ m source, Needed read root m → read m.full = .text source → m.full ∈ files)
    {depth : Nat} (hdepth : 2 * files.length < depth) (extra : Nat) :
    searchWithin read root (depth + extra) = searchWithin read root depth :=
  (visit_settles holds .root (Search.opens_empty read root) (by simpa using hdepth) extra).same

/-- **A search ends, and is never deeper than twice the number of files and one.** The files of the
modules that the root needs are among `files`, as they are if these are all the files there are. A
search that may be as deep as that does not meet its bound, one that may be deeper comes to the same,
and so does the one that counts the files, if it counts them right. -/
theorem linearize_ends (sources : Sources) (root : ModulePath) (files : List ModulePath)
    (holds : ∀ m source, Needed sources.read root m → sources.read m.full = .text source →
      m.full ∈ files) :
    (∀ e s, searchWithin sources.read root (2 * files.length + 1) = (.error e, s) →
      e.isOfDepth = false) ∧
    (∀ depth, 2 * files.length + 1 ≤ depth →
      searchWithin sources.read root depth = searchWithin sources.read root (2 * files.length + 1)) ∧
    (Counted sources root →
      linearize sources root = outcome (searchWithin sources.read root (2 * files.length + 1))) := by
  refine ⟨?_, fun depth hdepth => ?_, ?_⟩
  · exact (visit_settles holds .root (Search.opens_empty _ root) (by simp) 0).fine
  · obtain ⟨extra, rfl⟩ := Nat.exists_eq_add_of_le hdepth
    exact searchWithin_settles holds (Nat.lt_succ_self _) extra
  · rintro ⟨counted, hcount, holds'⟩
    change outcome (searchWithin sources.read root (depthBound sources.fileCount root)) = _
    -- both are deep enough, so both are as good as a search that is deeper than either
    have hdepth : 2 * counted.length < depthBound sources.fileCount root := by
      rw [depthBound, Nat.mul_assoc]
      omega
    refine congrArg outcome ?_
    calc
      _ = searchWithin sources.read root (depthBound sources.fileCount root + (2 * files.length + 1)) :=
        (searchWithin_settles holds' hdepth _).symm
      _ = searchWithin sources.read root (2 * files.length + 1 + depthBound sources.fileCount root) :=
        congrArg (searchWithin sources.read root) (Nat.add_comm _ _)
      _ = searchWithin sources.read root (2 * files.length + 1) :=
        searchWithin_settles holds (Nat.lt_succ_self _) _

/-- A directory whose entry imports itself by its name as a file. -/
def mirrorFiles : Files := ⟨[(⟨["a", "main.nz"]⟩, .text "import\n\t.main\nfun Int x()\n\t1\n")]⟩

/-- One file, met under two names and then once more: the bound is reached and is not exceeded. -/
theorem linearize_ends_mirror :
    ((searchWithin mirrorFiles.read ⟨["a"]⟩ 2).1.map fun _ => ()) =
      .error (.attributed ⟨⟨["a", "main"]⟩, ⟨["a", "main.nz"]⟩⟩ ⟨⟨8, 13⟩, .boundReached⟩) ∧
    (linearize mirrorFiles.sources ⟨["a"]⟩).1.map (fun _ => ()) =
      .error (.attributed ⟨⟨["a", "main"]⟩, ⟨["a", "main.nz"]⟩⟩
        ⟨⟨8, 13⟩, .circularDependency ⟨["a", "main"]⟩⟩) ∧
    linearize mirrorFiles.sources ⟨["a"]⟩ = outcome (searchWithin mirrorFiles.read ⟨["a"]⟩ 3) ∧
    searchWithin mirrorFiles.read ⟨["a"]⟩ 100 = searchWithin mirrorFiles.read ⟨["a"]⟩ 3 := by
  obtain ⟨-, deeper, counted⟩ := linearize_ends mirrorFiles.sources ⟨["a"]⟩
    (mirrorFiles.entries.map Prod.fst) fun _ _ _ => mem_of_read
  exact ⟨by decide +kernel, by decide +kernel, counted (counted_files _ _), deeper 100 (by decide)⟩

end Resolve

end ClassLang
