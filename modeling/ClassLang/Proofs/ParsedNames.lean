import ClassLang.Proofs.LineTrees
import ClassLang.Proofs.ParserSoundness
import ClassLang.Resolve

/-!
# Words of parsed trees

The words of a tree that was parsed are such as can be written, since its derivation is made of tokens
that the lexer gives. So the body of a method is a tree of lines (`Tree.block_of_parse`), and its name
is a run of letters and digits, or of operator characters (`Tree.plain_of_parse`). The dot and the
dollar sign are none of them: a method can never have the name under which the host provides a
built-in one, which is made of two names with a dot between them, nor the name of the texts of a
class. `Resolve.linearize_cases` says so for all the modules that a root needs.
-/

set_option autoImplicit false

namespace ClassLang

open List Grammar

/-! ## Derivations with words that can be written -/

variable {tokens : List Token} {source text name : String}

namespace Grammar

/-- Every word of these tokens can be written. -/
def Spelled (tokens : List Token) : Prop := ∀ token ∈ tokens, token.Spelled

@[simp] theorem spelled_cons {token : Token} :
    Spelled (token :: tokens) ↔ token.Spelled ∧ Spelled tokens := forall_mem_cons

@[simp] theorem spelled_append {others : List Token} :
    Spelled (tokens ++ others) ↔ Spelled tokens ∧ Spelled others := forall_mem_append

theorem spelled_flatMap {α : Type} {xs : List α} {f : α → List Token} (h : Spelled (xs.flatMap f)) :
    ∀ x ∈ xs, Spelled (f x) :=
  fun _ hx token htoken => h token (mem_flatMap.2 ⟨_, hx, htoken⟩)

theorem line_callTree {target : Tree.Expr} {args : List Tree.Expr} (htarget : target.Line)
    (hargs : ∀ arg ∈ args, arg.Line) : (callTree target args).Line := by
  unfold callTree
  split
  · exact htarget
  · next hsome => exact .call htarget (by simpa using hsome) hargs

theorem line_memberTree {target : Tree.Expr} (htarget : target.Line) {names : List String}
    (hnames : Spelled (memberTokens names)) : (memberTree target names).Line := by
  induction names generalizing target with
  | nil => exact htarget
  | cons name names ih =>
    have htokens : memberTokens (name :: names) = .dot :: .name name :: memberTokens names := rfl
    rw [htokens, spelled_cons, spelled_cons] at hnames
    exact ih (.property htarget hnames.2.1) hnames.2.2

/-- The tree of an expression whose words can be written is one of a line. -/
theorem line_tree : (∀ e : Expr, Spelled e.tokens → e.tree.Line) ∧
    (∀ part : Part, Spelled part.tokens → part.tree.Line) ∧
    (∀ head : Head, Spelled head.tokens → head.tree.Line) ∧
    ∀ holes : Holes, Spelled holes.tokens → holes.tree ≠ [] ∧
      (∀ hole ∈ holes.tree, hole.1.Line) ∧ ∀ hole ∈ holes.tree, IsQuoteText hole.2 := by
  have call : ∀ (first : Part) (others : List Part), (Spelled first.tokens → first.tree.Line) →
      (∀ part ∈ others, Spelled part.tokens → part.tree.Line) → Spelled first.tokens →
      Spelled (partTokens others) → (callTree first.tree (partTrees others)).Line := by
    intro first others hfirst hothers hspelled hrest
    rw [partTokens_eq] at hrest
    rw [Tree.Parse.partTrees_eq]
    refine line_callTree (hfirst hspelled) ?_
    rintro arg harg
    obtain ⟨part, hpart, rfl⟩ := mem_map.1 harg
    exact hothers part hpart (spelled_flatMap hrest part hpart)
  apply Expr.induct
  case parts =>
    intro first others hfirst hothers h
    rw [Expr.tokens, spelled_append] at h
    rw [Expr.tree]
    exact call first others hfirst hothers h.1 h.2
  case operator =>
    intro first others text right hfirst hothers hright h
    rw [Expr.tokens, spelled_append, spelled_append, spelled_cons] at h
    obtain ⟨hspelled, hrest, htext, hrightSpelled⟩ := h
    rw [Expr.tree]
    exact .operatorCall (call first others hfirst hothers hspelled hrest) htext (hright hrightSpelled)
  case part =>
    intro head names hhead h
    rw [Part.tokens, spelled_append] at h
    rw [Part.tree]
    exact line_memberTree (hhead h.1) h.2
  case name =>
    intro text h
    rw [Head.tokens, spelled_cons] at h
    exact .access h.1
  case staticName =>
    intro className method h
    rw [Head.tokens, spelled_cons, spelled_cons, spelled_cons] at h
    exact .staticAccess h.1 h.2.2.1
  case literal =>
    intro value h
    rw [Head.tokens, spelled_cons] at h
    exact .literal h.1
  case quote =>
    intro text holes hholes h
    rw [Head.tokens, spelled_cons] at h
    obtain ⟨hne, hlines, htexts⟩ := hholes h.2
    exact .quote h.1 hne hlines htexts
  case paren =>
    intro inner hinner h
    rw [Head.tokens, spelled_cons, spelled_append] at h
    exact hinner h.2.1
  case last =>
    intro hole text hhole h
    rw [Holes.tokens, spelled_append, spelled_cons, spelled_cons] at h
    rw [Holes.tree]
    simp only [mem_singleton, forall_eq]
    exact ⟨cons_ne_nil _ _, hhole h.1, h.2.2.1⟩
  case more =>
    intro hole text others hhole hothers h
    rw [Holes.tokens, spelled_append, spelled_cons, spelled_cons] at h
    obtain ⟨hspelled, -, htext, hrest⟩ := h
    obtain ⟨-, hlines, htexts⟩ := hothers hrest
    rw [Holes.tree]
    simp only [forall_mem_cons]
    exact ⟨cons_ne_nil _ _, ⟨hhole hspelled, hlines⟩, htext, htexts⟩

theorem spelled_bareName {name : BareName} (h : Spelled name.tokens) : IsName name.text := by
  induction name with
  | bare text =>
    rw [BareName.tokens, spelled_cons] at h
    exact h.1
  | paren inner ih =>
    rw [BareName.tokens, spelled_cons, spelled_append] at h
    exact ih h.2.1

theorem spelled_pattern {pattern : Pattern} (h : Spelled pattern.tokens) :
    pattern.tree.Spelled := by
  cases pattern with
  | ignore => trivial
  | names first others =>
    rw [Pattern.tokens, spelled_append] at h
    cases others with
    | nil => exact spelled_bareName h.1
    | cons second others => trivial

/-- The tree of a block whose words can be written is one of lines. -/
theorem block_tree (d : Block) (h : Spelled d.tokens) : d.tree.Block := by
  induction d with
  | last value =>
    rw [Block.tokens, spelled_append] at h
    exact .last (line_tree.1 value h.1)
  | line first rest ih =>
    rw [Block.tokens, spelled_append, spelled_cons] at h
    exact .seq (line_tree.1 first h.1) (ih h.2.2)
  | declaration pattern value rest ih =>
    rw [Block.tokens, spelled_append, spelled_cons, spelled_append, spelled_cons] at h
    obtain ⟨hpattern, -, hvalue, -, hrest⟩ := h
    exact .letIn (spelled_pattern hpattern) (line_tree.1 value hvalue) (ih hrest)

end Grammar

/-- What is read from a text is spelled. -/
theorem Lexer.Passes.spelled {l : Lexer} (h : (Lexer.ofText source).Passes tokens l) :
    Spelled tokens := by
  obtain ⟨ts, hreads, rfl⟩ := h 0
  intro token hmem
  obtain ⟨lexed, hlexed, rfl⟩ := mem_map.1 hmem
  exact hreads.spelled (Lexer.clean_ofText source) lexed hlexed

/-! ## Names -/

theorem IsName.isAlphanum (h : IsName text) : ∀ c ∈ text.toList, c.isAlphanum = true := by
  obtain ⟨first, tail, rfl, hfirst, htail, -⟩ := h
  rw [String.toList_ofList, forall_mem_cons]
  exact ⟨by simp [isAlphanum_eq, hfirst], htail⟩

theorem IsTypeName.isAlphanum (h : IsTypeName text) : ∀ c ∈ text.toList, c.isAlphanum = true := by
  obtain ⟨first, tail, rfl, hfirst, htail⟩ := h
  rw [String.toList_ofList, forall_mem_cons]
  exact ⟨by simp [isAlphanum_eq, hfirst], htail⟩

/-- A text of letters, digits and operator characters. -/
def Plain (text : String) : Prop :=
  ∀ c ∈ text.toList, c.isAlphanum = true ∨ isOperatorChar c = true

theorem IsOperator.plain (h : IsOperator text) : Plain text := by
  obtain ⟨first, tail, rfl, hfirst, htail, -⟩ := h
  rw [Plain, String.toList_ofList, forall_mem_cons]
  exact ⟨.inr hfirst, fun c hc => .inr (htail c hc)⟩

/-! ## Methods that were read -/

namespace Tree

/-- A method that was read has a derivation with words that can be written. -/
theorem exists_method_of_parse {tree : Module} (h : parse source name = .ok tree) {i : Nat}
    {m : Method} (hm : tree.classDecl.methods[i]? = some m) :
    ∃ d : Grammar.Method, d.tree = m.erase ∧ Grammar.Spelled d.tokens := by
  obtain ⟨d, l, l', hpasses, -, htree⟩ := parse_sound h
  have hmap : d.methods.map Method.tree = tree.classDecl.methods.map Method.erase :=
    congrArg (·.classDecl.methods) htree
  have hget := congrArg (·[i]?) hmap
  simp only [getElem?_map, hm, Option.map_some] at hget
  obtain ⟨dm, hdm, hdtree⟩ := Option.map_eq_some_iff.1 hget
  have hspelled := hpasses.spelled
  rw [Module.bodyTokens, spelled_append, spelled_append] at hspelled
  exact ⟨dm, hdtree, spelled_flatMap hspelled.2.2 dm (mem_of_getElem? hdm)⟩

/-- The body of a method that was read is a tree of lines. -/
theorem block_of_parse {tree : Module} (h : parse source name = .ok tree) {i : Nat} {m : Method}
    (hm : tree.classDecl.methods[i]? = some m) : m.body.Block := by
  obtain ⟨d, hd, hspelled⟩ := exists_method_of_parse h hm
  rw [Grammar.Method.tokens, Grammar.spelled_append, Grammar.spelled_cons] at hspelled
  exact block_of_erase (block_tree d.body hspelled.2.2) (congrArg Method.body hd).symm

/-- **The methods of a parsed module have plain names.** -/
theorem plain_of_parse {tree : Module} (h : parse source name = .ok tree) :
    ∀ m ∈ tree.classDecl.methods, Plain m.name := by
  intro m hmem
  obtain ⟨i, hm⟩ := mem_iff_getElem?.1 hmem
  obtain ⟨d, hd, hspelled⟩ := exists_method_of_parse h hm
  have htext : d.name.text = m.name := congrArg Method.name hd
  rw [Grammar.Method.tokens, Grammar.Method.headTokens, Grammar.spelled_append,
    Grammar.spelled_cons, Grammar.spelled_append, Grammar.spelled_cons] at hspelled
  obtain ⟨⟨-, -, hname, -⟩, -⟩ := hspelled
  rw [← htext]
  -- only these two tokens name a method
  revert hname
  rcases d.name with text | text <;> intro hname
  · exact fun c hc => .inl (IsName.isAlphanum hname c hc)
  · exact IsOperator.plain hname

end Tree

/-! ## Modules of a search -/

/-- The failures of a request that never came to run anything: what was asked for is not there, does
not fit, or cannot be compiled. -/
def Failure.isRefusal : Failure → Bool
  | .runtime _ _ _ _ | .outOfMemory | .badArguments _ (.resultType _ _) => false
  | _ => true

/-- The failures of a search: a fault in a source or in what was asked for, or a file that cannot be
read. -/
def Failure.isOfSearch : Failure → Bool
  | .sourceUnreadable _ | .inModule _ => true
  | _ => false

theorem Failure.isRefusal_of_isOfSearch {failure : Failure} (h : failure.isOfSearch = true) :
    failure.isRefusal = true := by
  cases failure <;> first | rfl | cases h

namespace Resolve

/-- The trees of the finished modules were read from their texts. -/
def Search.Parsed (s : Search) : Prop :=
  ∀ m ∈ s.finished, ∃ name, Tree.parse m.source name = .ok m.tree

/-- What every step of a search keeps: parsed modules stay so, and a failure is one of a search. -/
abbrev Searches {α : Type} (x : Resolving α) : Prop :=
  Keeps Search.Parsed (fun failure => failure.isOfSearch = true) x

theorem isOfSearch_failFor (importer? : Option Importer) (fault : Fault) :
    (failFor importer? fault).isOfSearch = true := by
  cases importer? <;> rfl

theorem searches_readFile (read : ModulePath → ReadOutcome) (path : ModulePath) :
    Searches (readFile read path) := by
  refine .bind (.modify fun s hs => hs) fun _ => ?_
  cases read path with
  | text source => exact .pure _
  | missing => exact .pure _
  | failed reason => exact .throw rfl

theorem searches_locate (read : ModulePath → ReadOutcome) (logical : ModulePath)
    (directoryOnly : Bool) : Searches (locate read logical directoryOnly) := by
  have entry := searches_readFile read (logical.push directoryEntry)
  unfold locate
  dsimp only
  split
  · exact .bind entry fun _ => .pure _
  refine .bind (searches_readFile read _) fun source? => ?_
  cases source? with
  | none => exact .bind entry fun _ => .pure _
  | some source => exact .pure _

theorem searches_followImports {visit : Importer → ModulePath → Bool → Resolving Nat}
    (hvisit : ∀ importer target directoryOnly, Searches (visit importer target directoryOnly))
    (origin : ModuleOrigin) (items : List Tree.Import) :
    Searches (followImports visit origin items) := by
  induction items with
  | nil => exact .pure _
  | cons item rest ih =>
    unfold followImports
    split
    · exact .throw rfl
    · split
      · exact .throw rfl
      · exact .bind (hvisit _ _ _) fun _ => .bind ih fun _ => .pure _

theorem searches_visit (read : ModulePath → ReadOutcome) (bound : Nat)
    (importer? : Option Importer) (logical : ModulePath) (directoryOnly : Bool) :
    Searches (visit read bound importer? logical directoryOnly) := by
  induction bound generalizing importer? logical directoryOnly with
  | zero => exact .throw (isOfSearch_failFor _ _)
  | succ bound ih =>
    refine .get_bind fun s _ => ?_
    split
    · exact .pure _
    · exact .throw (isOfSearch_failFor _ _)
    · exact .throw (isOfSearch_failFor _ _)
    refine .bind (.modify fun s hs => hs) fun _ => .bind (searches_locate read _ _) ?_
    rintro (_ | ⟨full, source⟩)
    · exact .throw (isOfSearch_failFor _ _)
    dsimp only
    split
    · exact .throw rfl
    rename_i hparse
    -- the imports are finished first, then the module itself
    refine .bind (searches_followImports (fun _ => ih _) _ _) fun imports => ?_
    refine .get_bind fun s hs => .bind (.set ?_) fun _ => .pure _
    intro m hm
    rcases mem_append.1 hm with hm | hm
    · exact hs m hm
    · obtain rfl := mem_singleton.1 hm
      exact ⟨_, hparse⟩

/-- **The methods of every module that a root needs have plain names**, and where there is no such
list of modules, that is for a failure of the search. -/
theorem linearize_cases (sources : Sources) (root : ModulePath) :
    (∃ failure, (linearize sources root).1 = .error failure ∧ failure.isOfSearch = true) ∨
      ∃ modules, (linearize sources root).1 = .ok modules ∧
        ∀ m ∈ modules, ∀ method ∈ m.tree.classDecl.methods, Plain method.name := by
  obtain ⟨hparsed, hfailure⟩ := searches_visit sources.read (depthBound sources.fileCount root)
    none root false Search.empty (fun m hm => nomatch hm)
  unfold linearize
  generalize (visit sources.read (depthBound sources.fileCount root) none root false).run
    Search.empty = ended at hparsed hfailure ⊢
  rcases ended with ⟨failure | position, search⟩
  · exact Or.inl ⟨failure, rfl, hfailure failure rfl⟩
  refine Or.inr ⟨search.finished, rfl, ?_⟩
  intro m hm
  obtain ⟨name, hparse⟩ := hparsed m hm
  exact Tree.plain_of_parse hparse

end Resolve

end ClassLang
