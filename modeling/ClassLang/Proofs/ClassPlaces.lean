import ClassLang.Proofs.Layout
import ClassLang.Proofs.ParserSoundness

/-!
# Where the place of a class starts

The parser takes the start of a class from the lexer. Behind a block of imports the lexer stands
right before the first token of the class, and the place of the class covers its head, its slots and
its methods. Where there are no imports, looking for them has taken this token from the lexer
already: the place starts behind it and leaves out the word with which the class begins. The main
statement is `Tree.class_covered_iff`.
-/

set_option autoImplicit false

namespace ClassLang

open List

theorem Reader.Step.started {r r' : Reader} {lexed : Lexed} (h : r.Step lexed r')
    (clean : r.lexer.Clean) (hbreak : lexed.token.isBreak = true) : r'.lexer.started = true := by
  cases h with
  | word hnext _ => exact ((Lexer.nextToken_eq_ok_iff clean).1 hnext).started
  | text _ => cases hbreak

namespace Tree

/-! ## What the place of a class covers -/

/-- The tokens of the class: all those of the module, or those behind the dedent that ends its
imports. -/
def Module.classTokens (tree : Module) (ts : List Lexed) : List Lexed :=
  if tree.imports = [] then ts else (ts.dropWhile (·.token ≠ .dedent)).drop 1

/-- Where the first of the tokens starts; without any, the end of the text. -/
def firstStart (stop : Nat) (ts : List Lexed) : Nat := ts.head?.elim stop (·.span.start)

/-- The place of the class starts there and contains those of its parts. -/
structure ClassDecl.CoveredFrom (decl : ClassDecl) (start : Nat) : Prop where
  start : decl.span.start = start
  head : decl.span.Contains decl.headSpan
  slots : ∀ slot ∈ decl.slots, decl.span.Contains slot.span
  methods : ∀ m ∈ decl.methods, decl.span.Contains m.span

section Opens

variable {text : List Char} {source name : String} {tree : Module} {imports : List Grammar.Import}
  {l₀ l : Lexer} {ts us : List Lexed} {r : Reader}

/-- A place that reaches back to where the class begins covers it. -/
theorem Module.Opens.coveredFrom (h : tree.Opens text name imports l₀ l) (nested : tree.Nested text)
    (hstart : tree.classDecl.span.start ≤ l.pos) :
    tree.classDecl.CoveredFrom tree.classDecl.span.start where
  start := rfl
  head := ⟨hstart.trans h.behind.head, h.stop ▸ nested.classDecl.headSpan.stop.le⟩
  slots slot hslot := ⟨hstart.trans (h.behind.slots slot hslot),
    h.stop ▸ (nested.classDecl.slots slot hslot).place.piece.stop.le⟩
  methods m hm := ⟨hstart.trans (h.behind.methods m hm),
    h.stop ▸ (nested.classDecl.methods m hm).place.piece.stop.le⟩

/-! ## The tokens of a class -/

theorem dedent_notMem_import (d : Grammar.Import) : Token.dedent ∉ d.tokens := by
  have hdots : ∀ d : Grammar.Dots, .dedent ≠ d.token := by rintro ⟨⟩ <;> exact Token.noConfusion
  have hsegment : ∀ segment : Grammar.Segment, .dedent ≠ segment.token := by
    rintro ⟨⟩ <;> exact Token.noConfusion
  have hpath : ∀ path, Token.dedent ∉ Grammar.pathTokens path := by
    rintro (_ | ⟨first, others⟩) <;> simp [Grammar.pathTokens, hsegment]
  cases d with
  | relative first others path =>
    simp [Grammar.Import.tokens, hpath, hdots, fun d => (hdots d).symm]
  | top first others => exact hpath (first :: others)

/-- The first dedent of a block of imports is its last token. -/
theorem exists_dedent {first : Grammar.Import} {others : List Grammar.Import}
    (hts : ts.map Lexed.token =
      Grammar.blockTokens .importWord Grammar.Import.tokens (first :: others)) :
    ∃ before d, ts = before ++ [d] ∧ d.token = .dedent ∧ ∀ t ∈ before, t.token ≠ .dedent := by
  rw [Grammar.blockTokens, ← append_assoc, ← cons_append, ← cons_append] at hts
  obtain ⟨before, last, rfl, hbefore, hlast⟩ := map_eq_append_iff.1 hts
  obtain ⟨d, rest, rfl, hd, hrest⟩ := map_eq_cons_iff.1 hlast
  obtain rfl := map_eq_nil_iff.1 hrest
  refine ⟨before, d, rfl, hd, fun t ht hdedent => ?_⟩
  have hmem := mem_map_of_mem (f := Lexed.token) ht
  rw [hbefore, hdedent] at hmem
  simp [dedent_notMem_import] at hmem

/-- The first dedent ends the imports. -/
theorem Module.classTokens_append (tree : Module)
    (htrees : imports.map Grammar.Import.tree = tree.imports.map Import.erase)
    (hts : ts.map Lexed.token = Grammar.blockTokens .importWord Grammar.Import.tokens imports) :
    tree.classTokens (ts ++ us) = us := by
  cases imports with
  | nil =>
    rw [map_eq_nil_iff.1 hts, classTokens, if_pos (map_eq_nil_iff.1 htrees.symm)]
    rfl
  | cons first others =>
    have hsome : tree.imports ≠ [] := fun hnone => by simp [hnone] at htrees
    obtain ⟨before, d, rfl, hd, hbefore⟩ := exists_dedent hts
    rw [classTokens, if_neg hsome, append_assoc,
      dropWhile_append_of_pos fun t ht => decide_eq_true (hbefore t ht), singleton_append,
      dropWhile_cons_of_neg (by simp [hd]), drop_one, tail_cons]

/-- The word with which a class begins that has slots or methods. -/
theorem exists_word (slots : List Grammar.Slot) (methods : List Grammar.Method)
    (hsome : ¬ (slots = [] ∧ methods = [])) :
    ∃ word ∈ [Token.slotsWord, .funWord, .defWord], ∃ rest,
      Grammar.blockTokens .slotsWord Grammar.Slot.tokens slots ++
        methods.flatMap Grammar.Method.tokens = word :: rest := by
  cases slots with
  | cons slot slots => exact ⟨.slotsWord, by simp, _, rfl⟩
  | nil =>
    cases methods with
    | nil => exact absurd ⟨rfl, rfl⟩ hsome
    | cons method methods =>
      refine ⟨if method.isStatic then .funWord else .defWord, ?_, _, rfl⟩
      cases method.isStatic <;> simp

/-- The tokens of a module are those of its imports and those of its class. -/
theorem Module.Opens.exists_tokens
    (h : tree.Opens (Lexer.normalized source) name imports (.ofText source) l) :
    ∃ ts us r, tokens source = .ok (ts ++ us) ∧ (Reader.ofText source).Reads ts ⟨l, .word 0⟩ ∧
      ts.map Lexed.token = Grammar.blockTokens .importWord Grammar.Import.tokens imports ∧
      Reader.Reads ⟨l, .word 0⟩ us r ∧ r.Ends ∧
      ((tree.classDecl.slots = [] ∧ tree.classDecl.methods = []) ∧ us = [] ∨
        ¬ (tree.classDecl.slots = [] ∧ tree.classDecl.methods = []) ∧
          ∃ first rest, us = first :: rest ∧ first.token ∈ [.slotsWord, .funWord, .defWord]) := by
  obtain ⟨slots, l', front⟩ := h.front
  obtain ⟨methods, m, l'', hmethods, ⟨span, heof⟩, htrees⟩ := front.methods.sound
  obtain ⟨ts, hts, htokens⟩ := h.passes 0
  obtain ⟨us, hus, hclass⟩ := (front.passes.append hmethods) 0
  have hends : Reader.Ends ⟨m, .word 0⟩ := ⟨0, _, l'', rfl, heof, rfl⟩
  refine ⟨ts, us, _, tokens_eq_ok_iff.2 ⟨_, hts.append hus, hends⟩, hts, htokens, hus, hends, ?_⟩
  rw [← map_eq_nil_iff (f := Slot.erase), ← front.trees, map_eq_nil_iff,
    ← map_eq_nil_iff (f := Method.erase), ← htrees, map_eq_nil_iff]
  by_cases hnone : slots = [] ∧ methods = []
  · rw [hnone.1, hnone.2] at hclass
    exact .inl ⟨hnone, map_eq_nil_iff.1 hclass⟩
  · obtain ⟨word, hword, rest, htokens⟩ := exists_word slots methods hnone
    obtain ⟨first, us, rfl, rfl, -⟩ := map_eq_cons_iff.1 (hclass.trans htokens)
    exact .inr ⟨hnone, first, us, rfl, hword⟩

/-- Nothing is passed over before a token where code begins. -/
theorem start_eq_of_code {first : Lexed} {l' : Lexer} (h : l.Gives first l')
    (hstarted : l.started = true) (hcode : StartsCode l.cursor.rest) :
    first.span.start = l.pos := by
  by_cases heof : first.token = .eof
  · cases h with
    | word hw => exact absurd heof hw.ne_eof
    | lineBreak => exact absurd heof (Lexer.breakToken_ne_eof _ _)
    | start => cases hstarted
    | _ => rfl
  · obtain ⟨passed, word, covers⟩ := h.covers hstarted heof
    have hpassed := covers.between.eq_nil (covers.text ▸ hcode)
    rw [covers.span, hpassed]
    rfl

/-- Behind a block of imports the lexer stands right before a token. -/
theorem start_eq_pos (hts : (Reader.ofText source).Reads ts ⟨l, .word 0⟩)
    (htokens : ts.map Lexed.token = Grammar.blockTokens .importWord Grammar.Import.tokens imports)
    (hsome : imports ≠ []) {first : Lexed} {l' : Lexer} (hnext : l.nextToken = (.ok first, l')) :
    first.span.start = l.pos := by
  obtain ⟨_, others, rfl⟩ := exists_cons_of_ne_nil hsome
  obtain ⟨before, d, rfl, hd, -⟩ := exists_dedent htokens
  obtain ⟨r, hbefore, hlast⟩ := hts.split
  have hlined := lined_normalized source
  obtain ⟨done, placed⟩ := hbefore.placed hlined (Reader.placed_ofText source)
  cases hlast with
  | cons step rest =>
    cases rest
    have hcode := step.atCode hlined placed (by rw [hd]; rfl)
    obtain ⟨done', placed'⟩ := step.placed hlined placed
    have hgives := (Lexer.nextToken_eq_ok_iff (placed'.lexer.clean hlined)).1 hnext
    have hstarted := step.started (placed.lexer.clean hlined) (by rw [hd]; rfl)
    exact start_eq_of_code hgives hstarted (hcode hstarted)

/-- The word with which a class begins is not empty. -/
theorem start_lt_stop {lexed : Lexed}
    (h : lexed.token ≠ .eof → ∃ word, TextAt text lexed.span word ∧ lexed.token.WrittenAs word)
    (hword : lexed.token ∈ [.slotsWord, .funWord, .defWord]) :
    lexed.span.start < lexed.span.stop := by
  obtain ⟨token, span⟩ := lexed
  simp only [mem_cons, not_mem_nil, or_false] at hword
  rcases hword with rfl | rfl | rfl
  all_goals
    obtain ⟨word, ⟨before, after, -, hstart, hstop⟩, rfl⟩ := h Token.noConfusion
    rw [← hstart, ← hstop]
    dsimp only
    exact Nat.lt_add_of_pos_right (by decide)

/-- The class begins with its first token, or with the end of the text. -/
theorem exists_first (hl : l.In text) (reads : Reader.Reads ⟨l, .word 0⟩ us r) (ends : r.Ends) :
    ∃ first l', l.nextToken = (.ok first, l') ∧
      firstStart (byteLength text) us = first.span.start ∧
      (us = [] → l'.pos = first.span.start) ∧ ∀ t rest, us = t :: rest → t = first := by
  cases reads with
  | nil =>
    obtain ⟨_, first, l', -, hnext, heof⟩ := ends
    have hgives := (Lexer.nextToken_eq_ok_iff hl.clean).1 hnext
    obtain ⟨before, htext, hpos⟩ := (hgives.in hl).1.read
    obtain ⟨pos, rfl, rfl⟩ := hgives.eq_of_eof heof
    rw [append_nil] at htext
    exact ⟨_, _, hnext, htext ▸ hpos, fun _ => rfl, nofun⟩
  | cons first _ =>
    cases first with
    | word hnext _ => exact ⟨_, _, hnext, rfl, nofun, fun t rest h => (cons.inj h).1.symm⟩

end Opens

/-- **The place of a class** starts at its first token and contains its head, its slots and its
methods if and only if the module has imports or the class has neither slots nor methods. -/
theorem class_covered_iff {source name : String} {tree : Module}
    (h : parse source name = .ok tree) :
    ∃ ts, tokens source = .ok ts ∧
      (tree.classDecl.CoveredFrom
          (firstStart (byteLength (Lexer.normalized source)) (tree.classTokens ts)) ↔
        tree.imports ≠ [] ∨ tree.classDecl.slots = [] ∧ tree.classDecl.methods = []) := by
  obtain ⟨nested, imports, l, opens⟩ := nested_opens_of_parse h
  obtain ⟨ts, us, r, htokens, hts, himports, hus, hends, hclass⟩ := opens.exists_tokens
  have hl : l.In (Lexer.normalized source) := hts.in (Lexer.in_ofText source)
  refine ⟨ts ++ us, htokens, ?_⟩
  rw [tree.classTokens_append opens.trees himports]
  obtain ⟨first, l', hnext, hfirst, hend, hhead⟩ := exists_first hl hus hends
  have hgives := (Lexer.nextToken_eq_ok_iff hl.clean).1 hnext
  have hstart := opens.start
  rw [hfirst]
  by_cases hnone : tree.imports = []
  · rw [if_pos hnone] at hstart
    obtain ⟨first', l'', hnext', hpos⟩ := hstart
    cases hnext.symm.trans hnext'
    rcases hclass with ⟨hempty, rfl⟩ | ⟨hsome, _, rest, rfl, hword⟩
    · obtain ⟨_, _, hnext', hplace⟩ := opens.behind.noSlots hempty.1
      cases hnext.symm.trans hnext'
      refine iff_of_true ⟨hpos.trans (hend rfl), ⟨?_, ?_⟩, ?_, ?_⟩ (.inr hempty)
      · rw [hpos, hplace]
        exact Nat.le_refl _
      · exact opens.stop ▸ nested.classDecl.headSpan.stop.le
      · rw [hempty.1]
        exact forall_mem_nil _
      · rw [hempty.2]
        exact forall_mem_nil _
    · -- the word with which the class begins is left out
      obtain rfl := hhead _ rest rfl
      refine iff_of_false (fun covered => ?_) (not_or.2 ⟨not_not.2 hnone, hsome⟩)
      have hlong := start_lt_stop (hgives.in hl).2 hword
      have hstop := hgives.place.2.2
      rw [covered.start] at hpos
      omega
  · rw [if_neg hnone] at hstart
    have hfirst : first.span.start = l.pos := by
      refine start_eq_pos hts himports ?_ hnext
      rintro rfl
      exact hnone (map_eq_nil_iff.1 opens.trees.symm)
    rw [hfirst, ← hstart]
    exact iff_of_true (opens.coveredFrom nested hstart.le) (.inl hnone)

/-- Behind an import the place of a class covers the word before its slots as well. -/
theorem class_covered_slots : ∃ tree ts,
    parse "import\n\t.a\nslots\n\tval Int n\nfun Int x()\n\t1\n" "Point" = .ok tree ∧
    tokens "import\n\t.a\nslots\n\tval Int n\nfun Int x()\n\t1\n" = .ok ts ∧
    tree.imports ≠ [] ∧ tree.classDecl.CoveredFrom (firstStart
      (byteLength (Lexer.normalized "import\n\t.a\nslots\n\tval Int n\nfun Int x()\n\t1\n"))
      (tree.classTokens ts)) := by
  have hparse : ((parse "import\n\t.a\nslots\n\tval Int n\nfun Int x()\n\t1\n"
      "Point").toOption.map fun tree => tree.imports.length) = some 1 := by decide +kernel
  obtain ⟨tree, hparse, hcount⟩ := Option.map_eq_some_iff.1 hparse
  obtain ⟨ts, hts, hiff⟩ := class_covered_iff (eq_ok_of_toOption hparse)
  have himports : tree.imports ≠ [] := ne_nil_of_length_eq_add_one hcount
  exact ⟨tree, ts, eq_ok_of_toOption hparse, hts, himports, hiff.2 (.inl himports)⟩

/-- Without imports the place of a class starts behind its first word. -/
theorem first_word_left_out : ∃ tree ts,
    parse "fun Int x()\n\t1\n" "Point" = .ok tree ∧ tokens "fun Int x()\n\t1\n" = .ok ts ∧
    ¬ tree.classDecl.CoveredFrom (firstStart
      (byteLength (Lexer.normalized "fun Int x()\n\t1\n")) (tree.classTokens ts)) := by
  have hparse : ((parse "fun Int x()\n\t1\n" "Point").toOption.map fun tree =>
      (tree.classDecl.span.start, tree.imports.length)) = some (3, 0) := by decide +kernel
  have hts : ((tokens "fun Int x()\n\t1\n").toOption.map (firstStart 15)) = some 0 := by
    decide +kernel
  obtain ⟨tree, hparse, hplace⟩ := Option.map_eq_some_iff.1 hparse
  obtain ⟨ts, hts, hfirst⟩ := Option.map_eq_some_iff.1 hts
  obtain ⟨hstart, himports⟩ := Prod.mk.inj hplace
  refine ⟨tree, ts, eq_ok_of_toOption hparse, eq_ok_of_toOption hts, fun covered => ?_⟩
  have hthree := covered.start
  have hsize : byteLength (Lexer.normalized "fun Int x()\n\t1\n") = 15 := by decide +kernel
  rw [hstart, Module.classTokens, if_pos (length_eq_zero_iff.1 himports), hsize, hfirst]
    at hthree
  cases hthree

end Tree

end ClassLang
