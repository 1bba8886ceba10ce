import ClassLang.Command
import ClassLang.Proofs.FileCounts

/-!
# The files of a build

The file of a module is below the output directory and has the path of the module, with the
extension in place of what follows the last dot of the last name. So modules in one directory are
written to the same file if their names differ only in that (`ofModule_eq_iff`).
-/

set_option autoImplicit false

namespace ClassLang

open List

theorem ModulePath.intercalate_segments (text : List Char) :
    ['/'].intercalate (segments text) = text := by
  induction text with
  | nil => rfl
  | cons c text ih =>
    obtain ⟨piece, pieces, hpieces⟩ := exists_cons_of_ne_nil (segments_ne_nil text)
    rw [hpieces] at ih
    rw [segments, hpieces]
    split
    · next hc => rw [intercalate_cons_cons, ih, hc, nil_append, singleton_append]
    cases pieces with
    | nil => rw [intercalate_singleton] at ih ⊢; rw [ih]
    | cons second others =>
      rw [intercalate_cons_cons] at ih ⊢
      rw [cons_append, cons_append, ih]

namespace Command.OutputPath

open FileTree (join pathNames)
open ModulePath (segments)

theorem intercalate_pieces (path : String) : "/".intercalate (pieces path) = path := by
  apply String.toList_injective
  rw [String.toList_intercalate, pieces, map_map]
  simpa using ModulePath.intercalate_segments path.toList

/-- The name of the file for a module with this name. -/
def fileName (name : String) : String := stem name ++ "." ++ "wasm"

theorem isPlain_fileName {name : String} (h : IsPlain name) : IsPlain (fileName name) := by
  have hslash : '/' ∉ (stem name).toList := by
    unfold stem
    split
    · exact h.1.2
    intro hmem
    rw [String.toList_ofList, mem_reverse] at hmem
    refine h.1.2 (mem_reverse.1 ?_)
    exact (dropWhile_sublist _).subset (mem_of_mem_drop hmem)
  refine isPlain_of_not_dot ⟨?_, ?_⟩ (c := 'm') ?_ (by decide) <;> simp [fileName, hslash]

/-- A name that leads somewhere is not left out at the end. -/
theorem trimmed_append (front : List String) {name : String} (h : IsPlain name) :
    trimmed (front ++ [name]) = front ++ [name] := by
  have hne : name ≠ "" := by
    rintro rfl
    exact h.1.1 rfl
  cases front with
  | nil => rfl
  | cons first rest => simp [trimmed, hne, h.2.1]

/-- Setting the extension of a name is joining the name with the extension. -/
theorem withExtension_join (path : String) {name : String} (h : IsPlain name) :
    withExtension (join path name) "wasm" = join path (fileName name) := by
  obtain ⟨front, -, hjoin⟩ := FileTree.segments_join path
  have hpieces : ∀ name, IsPlain name →
      pieces (join path name) = front.map String.ofList ++ [name] := by
    intro name h
    rw [pieces, hjoin name h.1]
    simp
  have hother : ∀ {name other}, IsPlain name → other = "" ∨ other = "." →
      front.map String.ofList ++ [name] ≠ [other] := by
    intro name other h hother heq
    obtain rfl : name = other := by simpa using congrArg getLast? heq
    rcases hother with rfl | rfl
    · exact h.1.1 rfl
    · exact h.2.1 rfl
  rw [withExtension, hpieces name h, trimmed_append _ h, getLast?_concat]
  have hstays : ¬(name = ".." ∨ front.map String.ofList ++ [name] = [""] ∨
      front.map String.ofList ++ [name] = ["."]) := by
    rintro (hup | hnone | hdot)
    · exact h.2.2 hup
    · exact hother h (Or.inl rfl) hnone
    · exact hother h (Or.inr rfl) hdot
  have hfile := isPlain_fileName h
  dsimp only
  rw [if_neg hstays, dropLast_concat, ofPieces]
  change (if front.map String.ofList ++ [fileName name] = [""] then _ else
    "/".intercalate (front.map String.ofList ++ [fileName name])) = _
  rw [if_neg (hother hfile (Or.inl rfl)), ← hpieces _ hfile, intercalate_pieces]

variable {directory directory' : List String} {name name' : String}

theorem ofModule_eq (output : String) (h : IsPlain name) :
    ofModule output ⟨directory ++ [name]⟩ = (directory ++ [fileName name]).foldl join output := by
  rw [ofModule, foldl_append, foldl_append]
  exact withExtension_join _ h

theorem isPlain_file (hdirectory : ∀ part ∈ directory, IsPlain part) (hname : IsPlain name) :
    ∀ part ∈ directory ++ [fileName name], IsPlain part :=
  forall_mem_append.2 ⟨hdirectory, forall_mem_singleton.2 (isPlain_fileName hname)⟩

/-- Where the file of a module is, seen from the output directory. -/
theorem position_ofModule {tree : FileTree} {output : String}
    (hdirectory : ∀ part ∈ directory, IsPlain part) (hname : IsPlain name) {position : List String}
    {node : FileNode}
    (hplace : tree.place (ofModule output ⟨directory ++ [name]⟩) = .ok (.taken position node)) :
    ∃ above, tree.follow (tree.start output) (pathNames output) = .ok (.taken above .directory) ∧
      position = above ++ (directory ++ [fileName name]) := by
  have hplain := isPlain_file hdirectory hname
  rw [ofModule_eq output hname] at hplace
  have hfollow := FileTree.place_joined (fun part hpart => (hplain part hpart).1) (by simp) hplace
  rw [FileTree.follow, foldlM_append, Except.bind_eq_ok] at hfollow
  obtain ⟨place, hstart, hrest⟩ := hfollow
  obtain ⟨above, rfl, rfl, -⟩ := FileTree.follow_plain hplain (by simp) hrest
  exact ⟨above, hstart, rfl⟩

/-- **Classes that share a file.** Two modules are written to the same path, and in every tree to the
same position, exactly when they are in one directory and their names are the same up to the last
dot. -/
theorem ofModule_eq_iff (output : String) (hdirectory : ∀ part ∈ directory, IsPlain part)
    (hname : IsPlain name) (hdirectory' : ∀ part ∈ directory', IsPlain part)
    (hname' : IsPlain name') :
    (ofModule output ⟨directory ++ [name]⟩ = ofModule output ⟨directory' ++ [name']⟩ ↔
      directory = directory' ∧ stem name = stem name') ∧
    ∀ (tree : FileTree) position node position' node',
      tree.place (ofModule output ⟨directory ++ [name]⟩) = .ok (.taken position node) →
      tree.place (ofModule output ⟨directory' ++ [name']⟩) = .ok (.taken position' node') →
      (position = position' ↔ directory = directory' ∧ stem name = stem name') := by
  have hsame : ∀ above : List String, above ++ (directory ++ [fileName name]) =
      above ++ (directory' ++ [fileName name']) ↔ directory = directory' ∧ stem name = stem name' := by
    intro above
    rw [append_right_inj, append_singleton_inj, fileName, fileName,
      String.append_left_inj, String.append_left_inj]
  constructor
  · rw [ofModule_eq output hname, ofModule_eq output hname']
    have hnames := FileTree.joined default output
      fun part hpart => (isPlain_file hdirectory hname part hpart).1
    have hnames' := FileTree.joined default output
      fun part hpart => (isPlain_file hdirectory' hname' part hpart).1
    constructor
    · intro h
      refine (hsame (pathNames output)).1 ?_
      rw [← hnames.1, ← hnames'.1, h]
    · intro h
      exact congrArg (foldl join output) ((hsame []).2 h)
  · intro tree position node position' node' hplace hplace'
    obtain ⟨above, hstart, rfl⟩ := position_ofModule hdirectory hname hplace
    obtain ⟨above', hstart', rfl⟩ := position_ofModule hdirectory' hname' hplace'
    cases hstart.symm.trans hstart'
    exact hsame above

/-- Two modules whose names differ behind a dot. -/
def twins : FileTree :=
  ⟨[(["w", "a.b.nz"], .file "fun Int x()\n\t1\n".toUTF8.toList),
    (["w", "a.c.nz"], .file "fun Int y()\n\t2\n".toUTF8.toList)], ["w"]⟩

/-- The names of the twins are the same up to the dot, and so are their paths. -/
theorem ofModule_eq_iff_twins : stem "a.b" = stem "a.c" ∧
    ofModule "out" ⟨[] ++ ["a.b"]⟩ = ofModule "out" ⟨[] ++ ["a.c"]⟩ := by
  have hplain : ∀ name ∈ ["a.b", "a.c"], IsPlain name := by
    simp [IsPlain, IsPathName]
  have hb := hplain "a.b" (by simp)
  have hc := hplain "a.c" (by simp)
  have hstem : stem "a.b" = stem "a.c" := by decide +kernel
  have hiff := ofModule_eq_iff "out" (forall_mem_nil _) hb (forall_mem_nil _) hc
  exact ⟨hstem, hiff.1.2 ⟨rfl, hstem⟩⟩

theorem discover_twins : discover twins "." = .ok [⟨["a.b"]⟩, ⟨["a.c"]⟩] := by
  have hfiles : twins.filesBelow "." = .ok [["a.b.nz"], ["a.c.nz"]] := by decide +kernel
  have hmodules : [["a.b.nz"], ["a.c.nz"]].filterMap moduleOfFile? =
      [⟨["a.b"]⟩, ⟨["a.c"]⟩] := by decide +kernel
  rw [discover, hfiles]
  change Except.ok _ = _
  -- sorting is not evaluated, but the paths are in order
  rw [hmodules, mergeSort_of_pairwise (by decide +kernel)]
  rfl

/-- The twins are both built and both said to be written, but only one file is left. -/
theorem built_twins :
    (run twins ["build", "--all"]).exit = 0 ∧
    (run twins ["build", "--all"]).out = "wrote out/a.wasm\nwrote out/a.wasm\n" ∧
    (run twins ["build", "--all"]).tree.files.map Prod.fst =
      [["w", "a.b.nz"], ["w", "a.c.nz"], ["w", "out", "a.wasm"]] := by
  have hargs : Arguments.parse ["build", "--all"] =
      some (.action "." false (.build .everything "out")) := by decide +kernel
  have hrun : (perform "." (.build .everything "out")).run ⟨.initial, twins, ""⟩ =
      (compileAll (twins.sources ".") [⟨["a.b"]⟩, ⟨["a.c"]⟩] >>= fun _ => get >>= fun w =>
        w.session.modules.forM (writeModule "out")).run ⟨.initial, twins, ""⟩ := by
    rw [perform, run_get_bind]
    dsimp only
    rw [run_bind, targets, run_get_bind, discover_twins]
    rfl
  rw [run, hargs]
  dsimp only
  rw [hrun]
  decide +kernel

end Command.OutputPath

end ClassLang
