import ClassLang.Proofs.ModuleOrder
import ClassLang.Proofs.ParserSoundness

/-!
# Written paths

A path that is read from a text has names that are not empty and have no slashes in them, and only
such paths are known by their written form (`ModulePath.Written.eq_of_text`). Imports name modules
by letters and digits, so from a written root only written paths are reached
(`Resolve.linearize_written`).
-/

set_option autoImplicit false

namespace ClassLang

open List Grammar

/-- A name that a written path can have. -/
def IsPathName (name : String) : Prop := name.toList ≠ [] ∧ '/' ∉ name.toList

namespace ModulePath

/-- The path can be read back from its written form. -/
def Written (path : ModulePath) : Prop := ∀ name ∈ path.parts, IsPathName name

/-! ## Reading paths -/

theorem segments_piece {piece : List Char} (h : '/' ∉ piece) : segments piece = [piece] := by
  induction piece with
  | nil => rfl
  | cons c piece ih =>
    obtain ⟨hc, hpiece⟩ := not_or.1 (mt mem_cons.2 h)
    rw [segments, if_neg (Ne.symm hc), ih hpiece]

theorem segments_append {piece : List Char} (h : '/' ∉ piece) (rest : List Char) :
    segments (piece ++ '/' :: rest) = piece :: segments rest := by
  induction piece with
  | nil => rw [nil_append, segments, if_pos rfl]
  | cons c piece ih =>
    obtain ⟨hc, hpiece⟩ := not_or.1 (mt mem_cons.2 h)
    rw [cons_append, segments, if_neg (Ne.symm hc), ih hpiece]

/-- The names of a written path stand between the slashes of its text. -/
theorem segments_text {first : String} {others : List String}
    (h : Written ⟨first :: others⟩) :
    segments (text ⟨first :: others⟩).toList = (first :: others).map String.toList := by
  induction others generalizing first with
  | nil =>
    have hfirst := (h first mem_cons_self).2
    rw [text, String.intercalate_singleton, segments_piece hfirst]
    rfl
  | cons second others ih =>
    obtain ⟨hfirst, hothers⟩ := forall_mem_cons.1 h
    rw [text, String.intercalate_cons_cons, String.toList_append, String.toList_append,
      append_assoc]
    have hslash : "/".toList = ['/'] := rfl
    rw [hslash, singleton_append, segments_append hfirst.2, map_cons, ← ih hothers]
    rfl

theorem Written.parse_text {path : ModulePath} (h : path.Written) : parse path.text = path := by
  obtain ⟨parts⟩ := path
  cases parts with
  | nil => rfl
  | cons first others =>
    have hfilter : ((first :: others).map String.toList).filter (· ≠ []) =
        (first :: others).map String.toList := by
      refine filter_eq_self.2 fun piece hpiece => ?_
      obtain ⟨name, hname, rfl⟩ := mem_map.1 hpiece
      exact decide_eq_true (h name hname).1
    rw [parse, segments_text h, hfilter, map_map]
    congr 1
    simp

/-- Written paths with one text are one path. -/
theorem Written.eq_of_text {path path' : ModulePath} (h : path.Written) (h' : path'.Written)
    (heq : path.text = path'.text) : path = path' := by
  rw [← h.parse_text, heq, h'.parse_text]

end ModulePath

/-! ## The names of imports -/

/-- A name of letters and digits. -/
def IsWord (name : String) : Prop := name.toList ≠ [] ∧ ∀ c ∈ name.toList, c.isAlphanum = true

theorem IsWord.isPathName {name : String} (h : IsWord name) : IsPathName name :=
  ⟨h.1, fun hslash => absurd (h.2 '/' hslash) (by decide)⟩

/-- The text of a token that can stand in a path is a word. -/
def Token.PathName : Token → Prop
  | .name text => IsWord text
  | .typeName text => IsWord text
  | _ => True

theorem isWord_ofList {first : Char} {tail : List Char} (hfirst : first.isAlphanum = true)
    (htail : ∀ c ∈ tail, c.isAlphanum = true) : IsWord (String.ofList (first :: tail)) := by
  rw [IsWord, String.toList_ofList]
  exact ⟨cons_ne_nil first tail, forall_mem_cons.2 ⟨hfirst, htail⟩⟩

theorem Token.pathName_keyword (text : String) {other : Token} (h : other.PathName) :
    ((Token.keyword? text).getD other).PathName := by
  unfold Token.keyword?
  split <;> first | exact h | trivial

theorem WordText.pathName {w more : List Char} {token : Token} (h : WordText w token more) :
    token.PathName := by
  cases h with
  | punctuation h =>
    unfold punctuation? at h
    split at h <;> cases h <;> trivial
  | name hfirst htail _ =>
    refine Token.pathName_keyword _ (isWord_ofList ?_ htail)
    simp [isAlphanum_eq, hfirst]
  | typeName hfirst htail _ =>
    refine isWord_ofList ?_ htail
    simp [isAlphanum_eq, hfirst]
  | operator _ _ _ _ => exact Token.pathName_keyword _ trivial
  | _ => trivial

/-- All tokens of a run have texts that can stand in a path. -/
theorem Reader.Reads.pathNames {r r' : Reader} {ts : List Lexed} (h : r.Reads ts r')
    (clean : r.lexer.Clean) : ∀ lexed ∈ ts, lexed.token.PathName := by
  refine h.forall_tokens WordText.pathName (fun _ => trivial) ?_ clean
  simp [Token.PathName]

theorem Grammar.Segment.isWord {segment : Segment} (h : segment.token.PathName) :
    IsWord segment.text := by
  cases segment <;> exact h

theorem Grammar.Segment.mem_pathTokens {path : List Segment} {segment : Segment}
    (h : segment ∈ path) : segment.token ∈ pathTokens path := by
  cases path with
  | nil => cases h
  | cons first others =>
    rw [pathTokens]
    rcases mem_cons.1 h with rfl | h
    · exact mem_cons_self
    · exact mem_cons_of_mem _ (mem_flatMap.2 ⟨segment, h, by simp⟩)

theorem Grammar.mem_blockTokens {α : Type} {word : Token} {line : α → List Token} {xs : List α}
    {x : α} {token : Token} (hx : x ∈ xs) (h : token ∈ line x) :
    token ∈ blockTokens word line xs := by
  cases xs with
  | nil => cases hx
  | cons first others =>
    rw [blockTokens]
    rcases mem_cons.1 hx with rfl | hx
    · simp [h]
    · have hmem : token ∈ others.flatMap fun x => .newline :: line x :=
        mem_flatMap.2 ⟨x, hx, mem_cons_of_mem _ h⟩
      simp [hmem]

/-- A relative import goes up at least once, and then along words. -/
theorem Tree.relative_of_parse {source name : String} {tree : Tree.Module}
    (h : Tree.parse source name = .ok tree) {item : Tree.Import} (hitem : item ∈ tree.imports)
    {rel : RelativePath} (hrel : item.path = .relative rel) :
    rel.ancestors ≠ 0 ∧ ∀ name ∈ rel.path.parts, IsWord name := by
  obtain ⟨d, m, l', hpasses, -, htree⟩ := Tree.parse_sound h
  obtain ⟨ts, hreads, htokens⟩ := hpasses 0
  -- the import is the tree of one of the derivation
  have himports : d.imports.map Import.tree = tree.imports.map Tree.Import.erase :=
    congrArg Tree.Module.imports htree
  have hmem : item.erase ∈ d.imports.map Import.tree := by
    rw [himports]
    exact mem_map_of_mem hitem
  obtain ⟨i, hi, hitem'⟩ := mem_map.1 hmem
  have hpath : i.tree.path = .relative rel := by
    rw [hitem', Tree.Import.erase, hrel]
  cases i with
  | top first others => cases hpath
  | relative first others path =>
    cases hpath
    refine ⟨Tree.Parse.ancestors_ne_zero first others rfl, ?_⟩
    intro text htext
    obtain ⟨segment, hsegment, rfl⟩ := mem_map.1 htext
    refine Segment.isWord ?_
    have htoken : segment.token ∈ d.bodyTokens := by
      refine mem_append_left _ (mem_blockTokens hi ?_)
      exact mem_append_right _ (Segment.mem_pathTokens hsegment)
    rw [← htokens] at htoken
    obtain ⟨lexed, hlexed, htoken⟩ := mem_map.1 htoken
    rw [← htoken]
    exact hreads.pathNames (Lexer.clean_ofText source) lexed hlexed

/-! ## The paths of a search -/

namespace Resolve

/-- A file has the name of its module, but for the last part. -/
theorem Located.parts {origin : ModuleOrigin} (h : Located origin) :
    ∃ front last, origin.full.parts = front ++ [last] ∧ ∀ name ∈ front, name ∈ origin.logical.parts := by
  rcases h with h | h
  · obtain ⟨name, -, hfull⟩ := Option.map_eq_some_iff.1 h
    rw [← hfull]
    exact ⟨origin.logical.parts.dropLast, _, rfl, fun _ h => dropLast_subset _ h⟩
  · rw [h]
    exact ⟨origin.logical.parts, directoryEntry, rfl, fun _ h => h⟩

theorem Located.written_resolve {origin : ModuleOrigin} {target : ModulePath} {rel : RelativePath}
    (h : Located origin) (hlogical : origin.logical.Written) (hup : rel.ancestors ≠ 0)
    (hdown : ∀ name ∈ rel.path.parts, IsWord name)
    (htarget : origin.full.resolve? rel = some target) : target.Written := by
  obtain ⟨front, last, hparts, hfront⟩ := h.parts
  unfold ModulePath.resolve? at htarget
  split at htarget
  · cases htarget
    intro name hname
    rcases mem_append.1 hname with hname | hname
    · -- the last part of the file is never kept
      rw [hparts, length_append, length_singleton,
        take_append_of_le_length (by omega)] at hname
      exact hlogical name (hfront name (mem_of_mem_take hname))
    · exact (hdown name hname).isPathName
  · cases htarget

/-- A module with a written path imports only such modules. -/
theorem Imports.written {read : ModulePath → ReadOutcome} {s : Search} (ordered : s.Ordered read)
    {i j : Nat} (h : Imports s.finished i j)
    (hwritten : ∀ m, s.finished[i]? = some m → m.origin.logical.Written) :
    ∀ m, s.finished[j]? = some m → m.origin.logical.Written := by
  obtain ⟨m, hm, hj⟩ := h
  obtain ⟨entry, hentry, rfl⟩ := mem_map.1 hj
  obtain ⟨k, hk⟩ := mem_iff_getElem?.1 hentry
  have found := ordered.found i m hm
  obtain ⟨name, -, hparse⟩ := found.tree
  obtain ⟨item, hitem, -, rel, target, hrel, -, htarget, hresolve⟩ :=
    forall₂_getElem?_right found.imports hk
  obtain ⟨hup, hdown⟩ := Tree.relative_of_parse hparse (mem_of_getElem? hitem) hrel
  intro m' hm'
  cases htarget.symm.trans hm'
  exact (ordered.located m (mem_of_getElem? hm)).written_resolve (hwritten m hm) hup hdown
    hresolve

/-- From a written root only written paths are reached. -/
theorem linearize_written {sources : Sources} {root : ModulePath} (hroot : root.Written)
    {out : List ResolvedModule} (h : (linearize sources root).1 = .ok out) :
    ∀ m ∈ out, m.origin.logical.Written := by
  obtain ⟨position, s, visited, rfl⟩ := linearize_visited h
  intro m hm
  obtain ⟨i, hi⟩ := mem_iff_getElem?.1 hm
  have hreached := visited.reached i (Nat.zero_le i) (List.getElem?_eq_some_iff.1 hi).1
  have hwritten : ∀ m, s.finished[i]? = some m → m.origin.logical.Written := by
    clear hi
    induction hreached with
    | refl =>
      intro m hm
      obtain ⟨m', hm', rfl⟩ := visited.named
      cases hm'.symm.trans hm
      exact hroot
    | tail _ imports ih => exact imports.written visited.ordered ih
  exact hwritten m hi

end Resolve

end ClassLang
