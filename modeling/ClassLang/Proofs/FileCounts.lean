import ClassLang.FileTree
import ClassLang.Proofs.Cycles
import ClassLang.Proofs.WrittenPaths

/-!
# How many files a root can need

A file in a tree is reached along many paths, since `.` and `..` lead through directories that need
not be left. But imports are made of words, so all of a path is words from some part of the path of
the root on (`Below`), and then it is known by that part and by the position where it leads
(`FileTree.follow_plain`). So the number of files is right for every root that can be written
(`counted_fileTree`).
-/

set_option autoImplicit false

namespace ClassLang

open List FileTree ModulePath

/-- A name that leads to an entry of a directory. -/
def IsPlain (name : String) : Prop := IsPathName name ∧ name ≠ "." ∧ name ≠ ".."

theorem isPlain_of_not_dot {name : String} (h : IsPathName name) {c : Char} (hc : c ∈ name.toList)
    (hdot : c ≠ '.') : IsPlain name := by
  refine ⟨h, ?_, ?_⟩
  · rintro rfl
    simp [hdot] at hc
  · rintro rfl
    simp [hdot] at hc

theorem IsWord.isPlain {name : String} (h : IsWord name) : IsPlain name := by
  obtain ⟨c, hc⟩ := exists_mem_of_ne_nil _ h.1
  refine isPlain_of_not_dot h.isPathName hc ?_
  rintro rfl
  exact absurd (h.2 '.' hc) (by decide)

theorem IsPathName.isPlain_withExtension {name : String} (h : IsPathName name) :
    IsPlain (name ++ Resolve.extension) := by
  have hlist : (name ++ Resolve.extension).toList = name.toList ++ ['.', 'n', 'z'] := by
    rw [String.toList_append]
    rfl
  refine isPlain_of_not_dot ⟨?_, ?_⟩ (c := 'n') ?_ (by decide)
  · rw [hlist]
    simp
  · rw [hlist]
    simpa using h.2
  · rw [hlist]
    simp

theorem isPlain_directoryEntry : IsPlain Resolve.directoryEntry := by
  refine isPlain_of_not_dot ⟨?_, ?_⟩ (c := 'm') ?_ (by decide) <;> decide

/-! ## Joined paths -/

theorem ModulePath.segments_ne_nil (text : List Char) : segments text ≠ [] := by
  cases text with
  | nil => exact cons_ne_nil _ _
  | cons c text =>
    rw [segments]
    split
    · exact cons_ne_nil _ _
    · split <;> exact cons_ne_nil _ _

theorem ModulePath.segments_slash (front rest : List Char) :
    segments (front ++ '/' :: rest) = segments front ++ segments rest := by
  induction front with
  | nil => rfl
  | cons c front ih =>
    rw [cons_append, segments, segments]
    split
    · rw [ih, cons_append]
    rw [ih]
    cases hfront : segments front with
    | nil => exact absurd hfront (segments_ne_nil front)
    | cons piece pieces => rfl

variable {position : List String} {name : String} {tree : FileTree} {place : Place} {part : Nat}

namespace FileTree

open ModulePath (segments)

/-- The names in a written path. -/
def pathNames (path : String) : List String :=
  ((segments path.toList).map String.ofList).filter (· ≠ "")

/-- Behind a slash at the end, the last piece of a path is empty; a name takes its place. -/
theorem segments_join (path : String) : ∃ pieces,
    (segments path.toList = pieces ∨ segments path.toList = pieces ++ [[]]) ∧
      ∀ name, IsPathName name → segments (join path name).toList = pieces ++ [name.toList] := by
  by_cases hend : path = "" ∨ path.toList.getLast? = some '/'
  · have hjoin : ∀ name, (join path name).toList = path.toList ++ name.toList := fun name => by
      rw [join, if_pos hend, String.toList_append]
    rcases hend with rfl | hslash
    · exact ⟨[], Or.inr rfl, fun name hname => by
        rw [hjoin]
        exact segments_piece hname.2⟩
    obtain ⟨front, hfront⟩ := getLast?_eq_some_iff.1 hslash
    refine ⟨segments front, Or.inr ?_, fun name hname => ?_⟩
    · rw [hfront, segments_slash]
      rfl
    · rw [hjoin, hfront, append_assoc, singleton_append, segments_slash,
        segments_piece hname.2]
  · refine ⟨segments path.toList, Or.inl rfl, fun name hname => ?_⟩
    rw [join, if_neg hend, String.toList_append, String.toList_append, append_assoc]
    exact (segments_slash _ _).trans (congrArg _ (segments_piece hname.2))

/-- A joined path has the names of the path and the name behind them. -/
theorem pathNames_join (path : String) (hname : IsPathName name) :
    pathNames (join path name) = pathNames path ++ [name] := by
  have hne : name ≠ "" := by
    rintro rfl
    exact hname.1 rfl
  obtain ⟨pieces, hpath, hjoin⟩ := segments_join path
  have hnames : pathNames path = (pieces.map String.ofList).filter (· ≠ "") := by
    rcases hpath with hpath | hpath <;> simp [pathNames, hpath]
  rw [hnames, pathNames, hjoin name hname]
  simp [hne]

theorem names_join (path : String) (hname : IsPathName name) :
    names (join path name) = pathNames (join path name) := by
  have hne : name ≠ "" := by
    rintro rfl
    exact hname.1 rfl
  obtain ⟨pieces, -, hjoin⟩ := segments_join path
  simp [names, pathNames, hjoin name hname, hne]

theorem start_join (tree : FileTree) (path : String) (hname : IsPathName name) :
    tree.start (join path name) = tree.start path := by
  have hjoin : ∃ more, (join path name).toList = path.toList ++ more ∧
      (path.toList = [] → more = name.toList) := by
    unfold join
    split
    · exact ⟨name.toList, String.toList_append, fun _ => rfl⟩
    · next hend =>
      refine ⟨'/' :: name.toList, ?_, fun hempty => ?_⟩
      · rw [String.toList_append, String.toList_append, append_assoc]
        rfl
      · exact absurd (Or.inl (String.toList_eq_nil_iff.1 hempty)) hend
  obtain ⟨more, hjoin, hempty⟩ := hjoin
  have hhead : (join path name).toList.head? = some '/' ↔ path.toList.head? = some '/' := by
    rw [hjoin]
    cases hpath : path.toList with
    | nil =>
      rw [hempty hpath, nil_append]
      refine ⟨fun hslash => absurd (mem_of_mem_head? hslash) hname.2, fun h => nomatch h⟩
    | cons c rest => exact Iff.rfl
  simp only [start, hhead]

/-- The names of a path below a directory. -/
theorem joined (tree : FileTree) (directory : String) {names : List String}
    (hnames : ∀ name ∈ names, IsPathName name) :
    pathNames (names.foldl join directory) = pathNames directory ++ names ∧
      tree.start (names.foldl join directory) = tree.start directory := by
  induction names generalizing directory with
  | nil => exact ⟨(append_nil _).symm, rfl⟩
  | cons name names ih =>
    obtain ⟨hname, hnames⟩ := forall_mem_cons.1 hnames
    obtain ⟨hpath, hstart⟩ := ih (join directory name) hnames
    rw [foldl_cons, hpath, hstart, pathNames_join directory hname, start_join tree _ hname]
    exact ⟨append_assoc _ _ _, rfl⟩

/-- Where a path below a directory leads. -/
theorem place_joined {directory : String} {names : List String}
    (hnames : ∀ name ∈ names, IsPathName name) (hne : names ≠ [])
    (h : tree.place (names.foldl join directory) = .ok place) :
    tree.follow (tree.start directory) (pathNames directory ++ names) = .ok place := by
  obtain ⟨hpath, hstart⟩ := joined tree directory hnames
  unfold FileTree.place at h
  split at h
  · cases h
  have hlast : FileTree.names (names.foldl join directory) =
      pathNames (names.foldl join directory) := by
    rw [← dropLast_append_getLast hne, foldl_append]
    exact names_join _ (hnames _ (getLast_mem hne))
  rw [hlast, hpath, hstart] at h
  exact h

/-- One plain name leads from a directory to the entry with that name. -/
theorem enter_plain {node : FileNode} (hplain : IsPlain name)
    (h : tree.enter name place = .ok (.taken position node)) :
    ∃ above, place = .taken above .directory ∧ position = above ++ [name] ∧
      tree.node? position = some node := by
  unfold enter at h
  split at h
  · cases h
  · cases h
  · next above =>
    split at h
    · cases h
    have hplace : tree.placeAt (above ++ [name]) = .taken position node := by
      split at h
      · exact absurd rfl hplain.2.1
      · exact absurd rfl hplain.2.2
      · exact Except.ok.inj h
    unfold placeAt at hplace
    split at hplace
    · next hnode =>
      cases hplace
      exact ⟨above, rfl, rfl, hnode⟩
    · cases hplace

/-- Plain names lead from a directory to the entry at their end. -/
theorem follow_plain {names : List String} {node : FileNode} (hplain : ∀ name ∈ names, IsPlain name)
    (hne : names ≠ []) (h : tree.follow place names = .ok (.taken position node)) :
    ∃ above, place = .taken above .directory ∧ position = above ++ names ∧
      tree.node? position = some node := by
  induction names generalizing place with
  | nil => exact absurd rfl hne
  | cons name names ih =>
    obtain ⟨hname, hnames⟩ := forall_mem_cons.1 hplain
    rw [follow, foldlM_cons, Except.bind_eq_ok] at h
    obtain ⟨next, hnext, h⟩ := h
    cases names with
    | nil =>
      cases h
      exact enter_plain hname hnext
    | cons second others =>
      obtain ⟨above, rfl, hposition, hnode⟩ := ih hnames (cons_ne_nil _ _) h
      obtain ⟨top, htop, rfl, -⟩ := enter_plain hname hnext
      refine ⟨top, htop, ?_, hnode⟩
      rw [hposition, append_assoc, singleton_append]

end FileTree

/-! ## Paths below a root -/

namespace Resolve

/-- The path follows the root for a part of it, and then goes on with plain names. -/
def Below (root path : ModulePath) (part : Nat) (names : List String) : Prop :=
  part ≤ root.parts.length ∧ path.parts = root.parts.take part ++ names ∧ ∀ name ∈ names, IsPlain name

section Below

variable {root : ModulePath}

theorem below_resolve {full target : ModulePath} {rel : RelativePath} {names : List String}
    (h : Below root full part names) (hdown : ∀ name ∈ rel.path.parts, IsWord name)
    (htarget : full.resolve? rel = some target) : ∃ part names, Below root target part names := by
  obtain ⟨hpart, hparts, hplain⟩ := h
  unfold resolve? at htarget
  split at htarget
  · cases htarget
    generalize full.parts.length - rel.ancestors = kept
    refine ⟨min kept part, names.take (kept - (root.parts.take part).length) ++ rel.path.parts,
      Nat.le_trans (Nat.min_le_right _ _) hpart, ?_, ?_⟩
    · dsimp only
      rw [hparts, take_append, take_take, append_assoc]
    · refine forall_mem_append.2 ⟨fun name hname => ?_, fun name hname => ?_⟩
      · exact hplain name (mem_of_mem_take hname)
      · exact (hdown name hname).isPlain
  · cases htarget

/-- The file of a module is below what its name is below. -/
theorem Located.below (hroot : root.Written) {m : ModuleOrigin} (located : Located m)
    {names : List String} (h : Below root m.logical part names) :
    ∃ part names, Below root m.full part names ∧ names ≠ [] := by
  obtain ⟨hpart, hparts, hplain⟩ := h
  rcases located with hfile | hentry
  · obtain ⟨name, hname, hfull⟩ := Option.map_eq_some_iff.1 hfile
    rw [hparts] at hname hfull
    rw [← hfull]
    rcases eq_nil_or_concat' names with rfl | ⟨front, last, rfl⟩
    · -- the last name of the file is that of a part of the root
      rw [append_nil] at hname ⊢
      have hmem : name ∈ root.parts := mem_of_mem_take (mem_of_getLast? hname)
      refine ⟨min (part - 1) part, [name ++ extension], ⟨?_, ?_, ?_⟩, cons_ne_nil _ _⟩
      · exact Nat.le_trans (Nat.min_le_right _ _) hpart
      · dsimp only
        rw [dropLast_eq_take, length_take_of_le hpart, take_take]
      · exact forall_mem_singleton.2 (hroot name hmem).isPlain_withExtension
    · obtain ⟨hfront, hlast⟩ := forall_mem_append.1 hplain
      rw [← append_assoc, getLast?_concat] at hname
      obtain rfl := Option.some.inj hname
      refine ⟨part, front ++ [last ++ extension], ⟨hpart, ?_, ?_⟩, by simp⟩
      · dsimp only
        rw [← append_assoc, dropLast_concat, append_assoc]
      · refine forall_mem_append.2 ⟨hfront, forall_mem_singleton.2 ?_⟩
        exact (hlast last mem_cons_self).1.isPlain_withExtension
  · refine ⟨part, names ++ [directoryEntry], ⟨hpart, ?_, ?_⟩, by simp⟩
    · rw [hentry, push, hparts, append_assoc]
    · exact forall_mem_append.2 ⟨hplain, forall_mem_singleton.2 isPlain_directoryEntry⟩

/-- The names of all modules that a root needs are below it. -/
theorem Needed.below {read : ModulePath → ReadOutcome} (hroot : root.Written) {m : ModuleOrigin}
    (needed : Needed read root m) : ∃ part names, Below root m.logical part names := by
  induction needed with
  | refl => exact ⟨root.parts.length, [], Nat.le_refl _, by simp, fun _ h => nomatch h⟩
  | tail needed needs ih =>
    obtain ⟨part, names, hbelow⟩ := ih
    obtain ⟨part, names, hfull, -⟩ := (Needed.located needed).below hroot hbelow
    obtain ⟨span, rel, ⟨tree, item, ⟨name, source, -, -, hparse⟩, hitem, -, hrel, hresolve⟩, -⟩ :=
      needs
    exact below_resolve hfull (Tree.relative_of_parse hparse hitem hrel).2 hresolve

end Below

/-! ## The files of a tree -/

section Counted

variable (tree : FileTree) (directory : String) (root : ModulePath)

/-- How many names there are above what a part of the root leads to. -/
def heightOf (part : Nat) : Nat :=
  match tree.follow (tree.start directory)
      (pathNames directory ++ root.parts.take part) with
  | .ok (.taken above _) => above.length
  | _ => 0

/-- The paths that a part of the root and the files of the tree give. -/
def pathsBelow (part : Nat) : List ModulePath :=
  tree.files.map fun file => ⟨root.parts.take part ++ file.1.drop (heightOf tree directory root part)⟩

variable {tree directory root}

theorem mem_files_of_node? {content : List UInt8} (h : tree.node? position = some (.file content)) :
    (position, content) ∈ tree.files := by
  have hlookup : tree.entries.lookup position = some (.file content) := by
    unfold node? at h
    split at h
    · next hnode => exact hnode.trans h
    · split at h <;> cases h
  obtain ⟨before, behind, hentries, -⟩ := lookup_eq_some_iff.1 hlookup
  refine mem_filterMap.2 ⟨(position, .file content), ?_, rfl⟩
  rw [hentries]
  exact mem_append_right _ mem_cons_self

theorem place_of_readText {path : ModulePath} {source : String}
    (h : tree.readText directory path = .text source) :
    ∃ position content, tree.place (path.parts.foldl join directory) =
      .ok (.taken position (.file content)) := by
  unfold readText at h
  split at h
  · cases h
  · cases h
  · cases h
  · cases h
  · next position content hplace => exact ⟨position, content, hplace⟩

/-- A file below a part of the root is one of those that the part gives. -/
theorem mem_pathsBelow (hroot : root.Written) {full : ModulePath} {names : List String}
    (h : Below root full part names) (hne : names ≠ []) {source : String}
    (htext : tree.readText directory full = .text source) :
    full ∈ pathsBelow tree directory root part := by
  obtain ⟨hpart, hparts, hplain⟩ := h
  obtain ⟨position, content, hplace⟩ := place_of_readText htext
  have hnames : ∀ name ∈ full.parts, IsPathName name := by
    rw [hparts]
    refine forall_mem_append.2 ⟨fun name hname => ?_, fun name hname => (hplain name hname).1⟩
    exact hroot name (mem_of_mem_take hname)
  have hfollow := place_joined hnames (by simp [hparts, hne]) hplace
  rw [hparts, ← append_assoc, follow, foldlM_append, Except.bind_eq_ok] at hfollow
  obtain ⟨place, hstart, hrest⟩ := hfollow
  obtain ⟨above, rfl, rfl, hnode⟩ := follow_plain hplain hne hrest
  refine mem_map.2 ⟨_, mem_files_of_node? hnode, ?_⟩
  have hheight : heightOf tree directory root part = above.length := by
    unfold heightOf follow
    rw [hstart]
  rw [hheight, drop_left, ← hparts]

/-- **The number of files in a tree** is right for every root that can be written. -/
theorem counted_fileTree (tree : FileTree) (directory : String) (hroot : root.Written) :
    Counted (tree.sources directory) root := by
  refine ⟨(range (root.parts.length + 1)).flatMap (pathsBelow tree directory root), ?_, ?_⟩
  · have hlength : ∀ part, (pathsBelow tree directory root part).length = tree.files.length :=
      fun part => length_map _
    simp only [length_flatMap, hlength, map_const', sum_replicate_nat,
      length_range]
    exact Nat.le_of_eq (Nat.mul_comm _ _)
  · intro m source needed htext
    obtain ⟨part, names, hlogical⟩ := needed.below hroot
    obtain ⟨part, names, hfull, hne⟩ := needed.located.below hroot hlogical
    refine mem_flatMap.2 ⟨part, mem_range.2 (Nat.lt_succ_of_le hfull.1), ?_⟩
    exact mem_pathsBelow hroot hfull hne htext

end Counted

end Resolve

end ClassLang
