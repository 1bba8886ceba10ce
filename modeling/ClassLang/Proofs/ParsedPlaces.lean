import ClassLang.Proofs.ParserRuns

/-!
# Runs that make an expression

The parsers of expressions and blocks, on a supply that mirrors the lexer. The parser
decides by its recursion when quote text is read, the reader by counting holes, and they stay in step
(`Context.before` and `Context.behind`). What a run gives has a derivation: between the places where a
phrase begins and ends the lexer gives the tokens of the derivation, and the tree is the derivation's
tree up to places. And its places nest: each phrase begins behind what was read before it and ends
before what is read next. `Aligned` says this of the parts that an expression is made of, before it is
known what they make, and `Parse.Block` of the lines of a block.
-/

set_option autoImplicit false

namespace ClassLang

open List Grammar

variable {text : List Char} {span : Span} {l : Lexer}

namespace Tree

open Grammar (callTree memberTree)

namespace Parse

/-! ## Trees of parts -/

theorem partTrees_eq (parts : List Part) :
    partTrees parts = parts.map Part.tree := by
  induction parts with
  | nil => rfl
  | cons part parts ih => rw [partTrees, ih, map_cons]

theorem memberTree_concat (target : Expr) (names : List String) (name : String) :
    memberTree target (names ++ [name]) = .property .nowhere (memberTree target names) name := by
  rw [memberTree, foldl_append]
  rfl

/-- A part whose tree is a bare name is a name in parentheses. -/
theorem bareName_of_tree (part : Part) : ∀ text, part.tree = .access .nowhere text →
    ∃ bare : BareName, bare.tokens = part.tokens ∧ bare.text = text := by
  revert part
  refine (Expr.induct
    (E := fun e => ∀ text, e.tree = .access .nowhere text →
      ∃ bare : BareName, bare.tokens = e.tokens ∧ bare.text = text)
    (H := fun head => ∀ text, head.tree = .access .nowhere text →
      ∃ bare : BareName, bare.tokens = head.tokens ∧ bare.text = text)
    (Q := fun _ => True) ?parts ?operator ?part ?name ?staticName ?literal ?quote ?paren ?last
    ?more).2.1
  case parts =>
    intro first others hfirst _ text h
    cases others with
    | nil =>
      obtain ⟨bare, htokens, rfl⟩ := hfirst text h
      exact ⟨bare, by rw [htokens, Expr.tokens, partTokens, append_nil], rfl⟩
    | cons second others => cases h
  case operator =>
    intro first others operator right _ _ _ text h
    cases h
  case part =>
    intro head names hhead text h
    rcases eq_nil_or_concat names with rfl | ⟨names, name, rfl⟩
    · obtain ⟨bare, htokens, rfl⟩ := hhead text h
      exact ⟨bare, by rw [htokens, Part.tokens, memberTokens, flatMap_nil,
        append_nil], rfl⟩
    · rw [Part.tree, concat_eq_append, memberTree_concat] at h
      cases h
  case name =>
    intro name text h
    cases h
    exact ⟨.bare _, rfl, rfl⟩
  case staticName =>
    intro className method text h
    cases h
  case literal =>
    intro value text h
    cases h
  case quote =>
    intro head holes _ text h
    cases h
  case paren =>
    intro inner hinner text h
    obtain ⟨bare, htokens, rfl⟩ := hinner text h
    exact ⟨.paren bare, by rw [BareName.tokens, htokens, Head.tokens], rfl⟩
  case last => exact fun _ _ _ => trivial
  case more => exact fun _ _ _ _ _ => trivial

/-- The names that parts bind stand at the places of the parts, and the parts are these names in
parentheses. -/
theorem boundNames {parts : List Expr} (h : ∀ part ∈ parts, part.Nested text) {ds : List Part}
    (hds : ds.map Part.tree = parts.map Expr.erase) {names : List (Span × String)}
    (hnames : parts.mapM boundName? = some names) : names.map Prod.fst = parts.map Expr.span ∧
      (∀ named ∈ names, TextAt text named.1 named.2.toList) ∧
      ∃ bares : List BareName, bares.flatMap BareName.tokens =
        ds.flatMap Part.tokens ∧ bares.map BareName.text = names.map Prod.snd := by
  induction parts generalizing ds names with
  | nil =>
    obtain rfl : ds = [] := map_eq_nil_iff.1 hds
    cases hnames
    exact ⟨rfl, forall_mem_nil _, [], rfl, rfl⟩
  | cons part parts ih =>
    obtain ⟨d, ds, rfl, hd, hrest⟩ := map_eq_cons_iff.1 hds
    obtain ⟨hpart, hothers⟩ := forall_mem_cons.1 h
    rw [mapM_cons] at hnames
    obtain ⟨named, hnamed, hnames⟩ := Option.bind_eq_some_iff.1 hnames
    obtain ⟨others, hlist, hnames⟩ := Option.bind_eq_some_iff.1 hnames
    cases hnames
    obtain ⟨hplaces, hspelled, bares, htokens, htexts⟩ := ih hothers hrest hlist
    cases part with
    | access span name =>
      cases hnamed
      obtain ⟨bare, hbare, rfl⟩ := bareName_of_tree d name hd
      cases hpart with
      | access spelled =>
        refine ⟨congrArg (span :: ·) hplaces, forall_mem_cons.2 ⟨spelled, hspelled⟩,
          bare :: bares, ?_, congrArg (bare.text :: ·) htexts⟩
        rw [flatMap_cons, flatMap_cons, hbare, htokens]
    | _ => cases hnamed

end Parse

/-! ## Parts of an expression -/

/-- Expressions whose places nest stand one behind the other from `l₀` up to `l`, and they are what
the lexer gives there. -/
structure Aligned (text : List Char) (l₀ l : Lexer) (parts : List Expr) : Prop where
  row : Row l₀.pos l.pos (parts.map Expr.span)
  nested : ∀ part ∈ parts, part.Nested text
  derived : ∃ ds : List Part, l₀.Passes (ds.flatMap Part.tokens) l ∧
    ds.map Part.tree = parts.map Expr.erase

namespace Aligned

variable {l₀ l' : Lexer} {parts : List Expr} {e : Expr}

theorem nil (text : List Char) (l : Lexer) : Aligned text l l [] :=
  ⟨Nat.le_refl _, forall_mem_nil _, [], .nil, rfl⟩

theorem concat (h : Aligned text l₀ l parts) (he : e.Nested text) (row : Row l.pos l'.pos [e.span])
    (head : Head) (passes : l.Passes head.tokens l') (tree : head.tree = e.erase) :
    Aligned text l₀ l' (parts ++ [e]) := by
  obtain ⟨ds, hpasses, hds⟩ := h.derived
  refine ⟨?_, forall_mem_append.2 ⟨h.nested, forall_mem_singleton.2 he⟩,
    ds ++ [.mk head []], ?_, ?_⟩
  · rw [map_append]
    exact h.row.append row
  · rw [flatMap_append, flatMap_singleton, Part.tokens, memberTokens,
      flatMap_nil, append_nil]
    exact hpasses.append passes
  · rw [map_append, map_append, hds, map_singleton, map_singleton, ← tree]
    rfl

/-- The last part becomes the target of a property. -/
theorem property (h : Aligned text l₀ l parts) {target : Expr}
    (hlast : parts.getLast? = some target) (hspan : span.Piece text)
    (row : Row l.pos l'.pos [span]) {name : String} (passes : l.Passes [.dot, .name name] l') :
    Aligned text l₀ l'
      (parts.dropLast ++ [.property (target.span.cover span) target name]) := by
  have htarget := h.nested target (mem_of_getLast? hlast)
  have hfront : ∀ part ∈ parts.dropLast, part.Nested text := fun part hpart =>
    h.nested part (dropLast_subset _ hpart)
  have hrow := h.row
  obtain ⟨ds, hpasses, hds⟩ := h.derived
  rw [← dropLast_append_getLast? target hlast, map_append] at hrow hds
  obtain ⟨c, hbefore, hat⟩ := hrow.split
  have hbetween := hat.append row
  obtain ⟨place, hcover⟩ := htarget.piece.covers hspan hbetween
  have hproperty : (Expr.property (target.span.cover span) target name).Nested text :=
    .property (place.sublist (sublist_append_left [target.span] _)) htarget
  -- the part of the target has one more name
  obtain ⟨others, last, rfl, hothers, hlast⟩ := map_eq_append_iff.1 hds
  obtain ⟨⟨head, names⟩, rfl, htree⟩ : ∃ d, last = [d] ∧ d.tree = target.erase := by
    simpa using hlast
  refine ⟨?_, forall_mem_append.2 ⟨hfront, forall_mem_singleton.2 hproperty⟩,
    others ++ [.mk head (names ++ [name])], ?_, ?_⟩
  · rw [map_append]
    exact hbefore.append hcover
  · simpa [Part.tokens, memberTokens] using hpasses.append passes
  · rw [map_append, map_append, hothers, map_singleton, map_singleton,
      Part.tree, Parse.memberTree_concat, Expr.erase, ← htree, Part.tree]

/-- The parts make an expression between their ends. -/
theorem joinParts (h : Aligned text l₀ l parts) (hjoin : Parse.joinParts parts span = .ok e) :
    e.Nested text ∧ Row l₀.pos l.pos [e.span] ∧ ∃ first others,
      l₀.Passes ((first :: others).flatMap Part.tokens) l ∧
      callTree first.tree (partTrees others) = e.erase := by
  obtain ⟨ds, hpasses, hds⟩ := h.derived
  unfold Parse.joinParts at hjoin
  split at hjoin
  · cases hjoin
  · cases hjoin
    obtain ⟨d, rfl, hd⟩ : ∃ d, ds = [d] ∧ d.tree = e.erase := by simpa using hds
    exact ⟨h.nested _ mem_cons_self, h.row, d, [], hpasses, hd⟩
  · next target arg args =>
    cases hjoin
    obtain ⟨htarget, hargs⟩ := forall_mem_cons.1 h.nested
    obtain ⟨hrow, hend⟩ := h.row.trim
    have hmem : args.getLastD arg ∈ arg :: args := getLastD_mem_cons
    rw [getLastD_cons] at hend hrow ⊢
    have hbounds := hrow.bounds _ (mem_cons_of_mem _ (mem_map_of_mem hmem))
    have hcover : target.span.cover (args.getLastD arg).span =
        ⟨target.span.start, (args.getLastD arg).span.stop⟩ :=
      Span.cover_of_le hbounds.1 hrow.2.2.le
    rw [hcover]
    obtain ⟨d, ds, rfl, hd, hrest⟩ := map_eq_cons_iff.1 hds
    refine ⟨.call (htarget.piece.join (hargs _ hmem).piece hrow) htarget hargs,
      ⟨h.row.1, hrow.le, hend⟩, d, ds, hpasses, ?_⟩
    rw [Parse.partTrees_eq, hd, hrest, Expr.erase, eraseExprs_eq]
    rfl

/-- The parts make a pattern between their ends. -/
theorem joinPattern (h : Aligned text l₀ l parts) {pattern : Pattern}
    (hjoin : Parse.joinPattern parts span = .ok pattern) :
    pattern.Nested text ∧ Row l₀.pos l.pos [pattern.span] ∧
      ∃ d : Grammar.Pattern, l₀.Passes d.tokens l ∧ d.tree = pattern.erase := by
  have hrow := h.row
  obtain ⟨ds, hpasses, hds⟩ := h.derived
  unfold Parse.joinPattern at hjoin
  split at hjoin
  · cases hjoin
  · cases hjoin
  · next hnames =>
    cases hjoin
    obtain ⟨hplaces, hspelled, bares, htokens, htexts⟩ := Parse.boundNames h.nested hds hnames
    rw [← hplaces] at hrow
    rw [← htokens] at hpasses
    obtain ⟨bare, rfl, htext⟩ := map_eq_singleton_iff.1 htexts
    refine ⟨hspelled _ mem_cons_self, hrow, .names bare [], hpasses, ?_⟩
    rw [Grammar.Pattern.tree, htext]
    rfl
  · next first second rest hnames =>
    cases hjoin
    obtain ⟨hplaces, hspelled, bares, htokens, htexts⟩ := Parse.boundNames h.nested hds hnames
    rw [← hplaces] at hrow
    rw [← htokens] at hpasses
    obtain ⟨hrow', hend⟩ := hrow.trim
    have hmem : rest.getLastD second ∈ first :: second :: rest :=
      mem_cons_of_mem _ getLastD_mem_cons
    rw [getLastD_cons] at hend hrow' ⊢
    have hbounds := hrow'.bounds _ (mem_map_of_mem hmem)
    have hcover : first.1.cover (rest.getLastD second).1 =
        ⟨first.1.start, (rest.getLastD second).1.stop⟩ :=
      Span.cover_of_le hbounds.1 hrow'.2.2.le
    rw [hcover]
    obtain ⟨bare, bares, rfl, -, hothers⟩ := map_eq_cons_iff.1 htexts
    obtain ⟨bare', bares, rfl, -, -⟩ := map_eq_cons_iff.1 hothers
    refine ⟨⟨(hspelled _ mem_cons_self).piece.join (hspelled _ hmem).piece hrow', hspelled⟩,
      ⟨hrow.1, hrow'.le, hend⟩, .names bare (bare' :: bares), hpasses, ?_⟩
    have hpairs := congrArg (map fun text => (Span.nowhere, text)) htexts
    rw [map_map, map_map] at hpairs
    rw [Grammar.Pattern.tree, Pattern.erase]
    exact congrArg (Pattern.destruct .nowhere) hpairs

end Aligned

theorem joinParts_fault {parts : List Expr} (e : CompileError)
    (h : Parse.joinParts parts span = .error e) : e.fault.isOfGrammar = true ∧ e.span = span := by
  unfold Parse.joinParts at h
  split at h <;> cases h
  exact ⟨rfl, rfl⟩

theorem joinPattern_fault {parts : List Expr} (e : CompileError)
    (h : Parse.joinPattern parts span = .error e) : e.fault.isOfGrammar = true ∧ e.span = span := by
  unfold Parse.joinPattern at h
  split at h <;> cases h <;> exact ⟨rfl, rfl⟩

namespace Parse

/-- What is read before an expression: the hole in which it stands is open. -/
def Context.before : Context → Nat → Mode
  | .hole, holes => .word (holes + 1)
  | _, holes => .word holes

/-- What is read behind an expression: the brace behind a hole leads back to the quote. -/
def Context.behind : Context → Nat → Mode
  | .hole, holes => .text holes
  | _, holes => .word holes

theorem Context.exists_word (context : Context) (holes : Nat) :
    ∃ k, context.before holes = .word k := by
  cases context <;> exact ⟨_, rfl⟩

theorem Context.behind_eq_before {context : Context} (h : context ≠ .hole) (holes : Nat) :
    context.behind holes = context.before holes := by
  cases context with
  | hole => exact absurd rfl h
  | _ => rfl

/-- What follows an expression in this context if the token ends it. -/
def Context.follow? : Context → Token → Option Follow
  | .line, .newline => some .another
  | .line, .dedent => some .ended
  | .lineRest, .newline => some .another
  | .lineRest, .dedent => some .ended
  | .paren, .rightParen => some .ended
  | .hole, .rightBrace => some .ended
  | _, _ => none

/-- A line ends with the same tokens behind an operator. -/
theorem follow?_lineRest (token : Token) :
    Context.lineRest.follow? token = Context.line.follow? token := by
  cases token <;> rfl

/-- From `l₀` to `l` there are an expression, or a pattern and its value, and the token behind it ends
it. -/
inductive Derives (text : List Char) (context : Context) (l₀ : Lexer) :
    Expr → Follow → Token → Lexer → Prop where
  | phrase {e : Expr} {follow token} {l : Lexer} (d : Grammar.Expr)
      (passes : l₀.Passes d.tokens l) (tree : d.tree = e.erase) (row : Row l₀.pos l.pos [e.span])
      (follows : context.follow? token = some follow) : Derives text context l₀ e follow token l
  | declaration {e : Expr} {pattern : Pattern} {l : Lexer} (d : Grammar.Pattern)
      (value : Grammar.Expr) (line : context = .line)
      (passes : l₀.Passes (d.tokens ++ .equals :: value.tokens) l) (bound : d.tree = pattern.erase)
      (tree : value.tree = e.erase) (nested : pattern.Nested text)
      (row : Row l₀.pos l.pos [pattern.span, e.span]) :
      Derives text context l₀ e (.declared pattern) .newline l

/-- There is no declaration but at the start of a line. -/
theorem Derives.value {context : Context} {l₀ : Lexer} {e : Expr} {follow : Follow} {token : Token}
    (h : Derives text context l₀ e follow token l) (hne : context ≠ .line) :
    ∃ d : Grammar.Expr, l₀.Passes d.tokens l ∧ d.tree = e.erase ∧
      Row l₀.pos l.pos [e.span] ∧ context.follow? token = some follow := by
  cases h with
  | phrase d passes tree row follows => exact ⟨d, passes, tree, row, follows⟩
  | declaration _ _ line => exact absurd line hne

/-- The token behind a line. -/
def Follow.token : Follow → Token
  | .ended => .dedent
  | _ => .newline

theorem Derives.token_eq {l₀ : Lexer} {e : Expr} {follow : Follow} {token : Token}
    (h : Derives text .line l₀ e follow token l) : token = follow.token := by
  cases h with
  | phrase _ _ _ _ follows => cases token <;> cases follows <;> rfl
  | declaration => rfl

end Parse

namespace Mirror

variable {σ : Type} [Supply σ] (m : Mirror σ) {α β : Type} {s s' : Parser σ} {p p' : Parser}
  {l₀ : Lexer} {holes : Nat}

/-! ## Expressions -/

open Parse (Context Follow Derives)

/-- The parsers have read an expression from `l₀` on and the token that ends it. -/
structure Phrase (context : Context) (holes : Nat) (l₀ : Lexer) (p : Parser)
    (result : Expr × Follow) (s' : Parser σ) (p' : Parser) : Prop where
  stands : m.Stands (context.behind holes) p'.lexer s' p'
  left : p'.left + 1 ≤ p.left
  nested : result.1.Nested m.text
  derived : ∃ token l, Derives m.text context l₀ result.1 result.2 token l ∧
    l.Hands token p'.lexer ∧ l.pos ≤ p'.lexer.pos

/-- The parsers have read the value of a declaration and the line break behind it. -/
structure Valued (holes : Nat) (l : Lexer) (p : Parser) (e : Expr) (s' : Parser σ) (p' : Parser) :
    Prop extends m.Gone 1 (.word holes) l p'.lexer p s' p' where
  nested : e.Nested m.text
  derived : ∃ (d : Grammar.Expr) (l' : Lexer), l.Passes d.tokens l' ∧ d.tree = e.erase ∧
    Row l.pos l'.pos [e.span] ∧ l'.Hands .newline p'.lexer ∧ l'.pos ≤ p'.lexer.pos

/-- The parsers have read the holes of a quote and stand behind the quote. -/
structure Quoted (holes : Nat) (l : Lexer) (p : Parser) (parts : List (Expr × String))
    (s' : Parser σ) (p' : Parser) : Prop extends m.Gone 1 (.word holes) l p'.lexer p s' p' where
  row : Row l.pos p'.lexer.pos (parts.map (·.1.span))
  nested : ∀ part ∈ parts, part.1.Nested m.text
  derived : ∃ d : Holes, d.tree = eraseHoles parts ∧
    ∀ n, Reader.Takes ⟨l, .word (n + 1)⟩ d.tokens ⟨p'.lexer, .word n⟩

/-- The parsers of expressions, declared values and holes, with this bound. Values and holes take a
turn more than the expressions in them. -/
structure ExprsRun (extra bound : Nat) : Prop where
  expr {s : Parser σ} {p : Parser} {l₀ l : Lexer} (context : Context) (holes : Nat)
    {parts : List Expr} : m.Stands (context.before holes) l s p → 2 * p.left + 1 ≤ bound →
    Aligned m.text l₀ l parts →
    m.Runs s p (Parse.exprFrom (extra + bound) context parts) (Parse.exprFrom bound context parts)
      (m.Phrase context holes l₀ p)
  declared {s : Parser σ} {p : Parser} {l : Lexer} {holes : Nat} {span : Span} :
    m.Stands (.word holes) l s p → 2 * p.left + 2 ≤ bound → span.Piece m.text →
    m.Runs s p (Parse.declaredFrom (extra + bound) span) (Parse.declaredFrom bound span)
      (m.Valued holes l p)
  holes {s : Parser σ} {p : Parser} {l : Lexer} {holes : Nat} :
    m.Stands (.word (holes + 1)) l s p → 2 * p.left + 2 ≤ bound →
    m.Runs s p (Parse.holesFrom (extra + bound)) (Parse.holesFrom bound) (m.Quoted holes l p)

section Join

variable {m} {parts : List Expr}

/-- The parts make an expression, and the parsers stay where they are. -/
theorem joinParts_runs (h : Aligned m.text l₀ l parts) (hspan : span.Piece m.text) :
    m.Runs s p (liftM (Parse.joinParts parts span)) (liftM (Parse.joinParts parts span))
      fun e s' p' => s' = s ∧ p' = p ∧ e.Nested m.text ∧ Row l₀.pos l.pos [e.span] ∧
        ∃ first others, l₀.Passes ((first :: others).flatMap Part.tokens) l ∧
          callTree first.tree (partTrees others) = e.erase := by
  refine .lift (fun e he => ⟨rfl, rfl, h.joinParts he⟩) fun e he => ?_
  obtain ⟨hfault, heq⟩ := joinParts_fault e he
  exact ⟨hfault, heq ▸ hspan.inside⟩

theorem joinPattern_runs (h : Aligned m.text l₀ l parts) (hspan : span.Piece m.text) :
    m.Runs s p (liftM (Parse.joinPattern parts span)) (liftM (Parse.joinPattern parts span))
      fun pattern s' p' => s' = s ∧ p' = p ∧ pattern.Nested m.text ∧
        Row l₀.pos l.pos [pattern.span] ∧
        ∃ d : Grammar.Pattern, l₀.Passes d.tokens l ∧ d.tree = pattern.erase := by
  refine .lift (fun pattern hpattern => ⟨rfl, rfl, h.joinPattern hpattern⟩) fun e he => ?_
  obtain ⟨hfault, heq⟩ := joinPattern_fault e he
  exact ⟨hfault, heq ▸ hspan.inside⟩

end Join

section Step

variable {m} {extra bound : Nat} (ih : m.ExprsRun extra bound)

include ih

theorem exprFrom_succ_runs (context : Context) (holes : Nat) {parts : List Expr}
    (h : m.Stands (context.before holes) l s p) (hbound : 2 * p.left + 1 ≤ bound + 1)
    (hparts : Aligned m.text l₀ l parts) :
    m.Runs s p (Parse.exprFrom (extra + bound + 1) context parts)
      (Parse.exprFrom (bound + 1) context parts) (m.Phrase context holes l₀ p) := by
  obtain ⟨k, hk⟩ := context.exists_word holes
  -- other parts, behind which the parsers have gone on
  have goesOn : ∀ {s' p' l'} {others : List Expr}, m.Gone 1 (.word k) l l' p s' p' →
      Aligned m.text l₀ l' others →
      m.Runs s' p' (Parse.exprFrom (extra + bound) context others)
        (Parse.exprFrom bound context others) (m.Phrase context holes l₀ p) := by
    intro s' p' l' others gone hothers
    have hleft := gone.left
    have stands := gone.stands
    rw [← hk] at stands
    refine (ih.expr context holes stands (by omega) hothers).imp fun _ _ _ phrase => ?_
    have hleft' := phrase.left
    exact { phrase with left := by omega }
  rw [Parse.exprFrom, Parse.exprFrom]
  rw [hk] at h
  apply Runs.bind (next_runs h)
  rintro ⟨token, span⟩ s' p' took
  have hspan := took.piece
  -- the parts make one expression, which ends here
  have ends : ∀ {follow : Follow}, context.follow? token = some follow →
      m.Gone 1 (context.behind holes) l p'.lexer p s' p' →
      m.Runs s' p' (do return (← Parse.joinParts parts span, follow))
        (do return (← Parse.joinParts parts span, follow)) (m.Phrase context holes l₀ p) := by
    intro follow hfollow gone
    apply Runs.bind (joinParts_runs hparts hspan)
    rintro e _ _ ⟨rfl, rfl, he, hrow, first, others, hpasses, htree⟩
    refine .pure ⟨gone.stands, gone.left, he, token, l,
      .phrase (.parts first others) ?_ htree hrow hfollow, took.hands, took.row.le⟩
    rwa [Grammar.Expr.tokens_parts]
  cases token
  case equals =>
    apply Runs.ite
    · rintro rfl
      cases hk
      have passed := took.passed rfl
      have hleft := passed.left
      apply Runs.bind (joinPattern_runs hparts hspan)
      rintro pattern _ _ ⟨rfl, rfl, hpattern, hrow, d, hpasses, hbound⟩
      apply Runs.bind (ih.declared passed.stands (by omega) hspan)
      intro value _ _ valued
      have hleft' := valued.left
      obtain ⟨v, l', hvalue, htree, hrow', hnewline, hle⟩ := valued.derived
      exact .pure ⟨valued.stands, by omega, valued.nested, .newline, l', .declaration d v rfl
        (hpasses.append (passed.passes.append hvalue)) hbound htree hpattern
        ((hrow.until passed.le).append hrow'), hnewline, hle⟩
    · intro _
      exact took.fail rfl
  case underscore =>
    apply Runs.ite
    · intro hfirst
      rw [Bool.and_eq_true, decide_eq_true_eq, List.isEmpty_iff] at hfirst
      obtain ⟨rfl, rfl⟩ := hfirst
      cases hk
      obtain ⟨ds, hpasses, hds⟩ := hparts.derived
      obtain rfl := map_eq_nil_iff.1 hds
      have passed := took.passed rfl
      apply Runs.bind (next_runs passed.stands)
      rintro ⟨token, place⟩ s'' p'' took'
      apply Runs.ite
      · rintro rfl
        have passed' := took'.passed rfl
        have hleft := (passed.trans (i := 1) passed').left
        apply Runs.bind (ih.declared passed'.stands (by omega) took'.piece)
        intro value _ _ valued
        have hleft' := valued.left
        obtain ⟨v, l', hvalue, htree, hrow', hnewline, hle⟩ := valued.derived
        refine .pure ⟨valued.stands, by omega, valued.nested, .newline, l', .declaration .ignore v rfl
          (hpasses.append (passed.passes.append (passed'.passes.append hvalue))) rfl htree
          hspan.alone ?_, hnewline, hle⟩
        exact (took.row.widen hparts.row passed'.le).append hrow'
      · intro _
        exact took'.fail rfl
    · intro _
      exact took.fail rfl
  case operator operator =>
    apply Runs.ite
    · intro _
      exact took.fail rfl
    · intro _
      have passed := took.passed rfl
      have hleft := passed.left
      apply Runs.bind (joinParts_runs hparts hspan)
      rintro left _ _ ⟨rfl, rfl, hnested, hrow, first, others, hpasses, htree⟩
      -- only the first operator of a line ends what may be a declaration
      obtain ⟨context', hcontext', hne, hbefore, hbehind, hfollows⟩ : ∃ context' : Context,
          (if context = .line then .lineRest else context) = context' ∧ context' ≠ .line ∧
          context'.before holes = .word k ∧ context'.behind holes = context.behind holes ∧
          ∀ token, context'.follow? token = context.follow? token := by
        cases context <;> exact ⟨_, rfl, Context.noConfusion, hk, rfl,
          fun token => by first | rfl | exact Parse.follow?_lineRest token⟩
      have stands := passed.stands
      rw [← hbefore] at stands
      rw [hcontext']
      apply Runs.bind (ih.expr context' holes stands (by omega) (.nil _ _))
      rintro ⟨right, follow⟩ _ _ phrase
      have hleft' := phrase.left
      obtain ⟨token, l', derives, hhands, hle⟩ := phrase.derived
      obtain ⟨d, hright, hright', hrow', hfollow⟩ := derives.value hne
      have stands' := phrase.stands
      rw [hbehind] at stands'
      have hbetween := (hrow.until passed.le).append hrow'
      obtain ⟨place, row⟩ := hnested.piece.covers phrase.nested.piece hbetween
      refine .pure ⟨stands', by omega, .operatorCall place hnested phrase.nested, token, l',
        .phrase (.operator first others operator d) ?_ ?_ row (hfollows token ▸ hfollow), hhands, hle⟩
      · rw [Grammar.Expr.tokens_operator]
        exact hpasses.append (passed.passes.append hright)
      · rw [Grammar.Expr.tree, htree, hright', Expr.erase]
  case newline | dedent =>
    apply Runs.ite
    · intro hline
      refine ends (by cases context <;> first | rfl | cases hline) ?_
      rw [Context.behind_eq_before (by rintro rfl; cases hline), hk]
      exact (took.passed rfl).toGone
    · intro _
      exact took.fail rfl
  case rightParen | rightBrace =>
    apply Runs.ite
    · rintro rfl
      cases hk
      exact ends rfl (took.gone Token.noConfusion)
    · intro _
      exact took.fail rfl
  case dot =>
    rcases hlast : parts.getLast? with _ | target
    · exact took.fail rfl
    have passed := took.passed rfl
    apply Runs.bind (name_runs passed.stands)
    rintro ⟨text, place⟩ s'' p'' named
    have passed' := passed.trans (i := 1) named.toPassed
    exact goesOn passed'.toGone (hparts.property hlast named.spelled.piece
      (named.row.widen passed.le (Nat.le_refl _)) passed'.passes)
  case name text =>
    have passed := took.passed rfl
    exact goesOn passed.toGone
      (hparts.concat (.access took.spelled) took.row (.name text) passed.passes rfl)
  case typeName className =>
    have passed := took.passed rfl
    apply Runs.bind (expect_runs passed.stands rfl _)
    intro _ s'' p'' dotted
    apply Runs.bind (name_runs dotted.stands)
    rintro ⟨method, place⟩ _ _ named
    have hbetween := (took.row.until dotted.le).append named.row
    obtain ⟨hplace, row⟩ := hspan.covers named.spelled.piece hbetween
    have passed' := passed.trans (i := 1) (dotted.trans (i := 1) named.toPassed)
    exact goesOn passed'.toGone (hparts.concat (.staticAccess (hplace.sublist (nil_sublist _)))
      row (.staticName className method) passed'.passes rfl)
  case literal value =>
    have passed := took.passed rfl
    exact goesOn passed.toGone
      (hparts.concat (.literal hspan.alone) took.row (.literal value) passed.passes rfl)
  case quoteStart head =>
    have gone : m.Gone 1 (.word (k + 1)) l p'.lexer p s' p' := took.gone Token.noConfusion
    have hleft := gone.left
    apply Runs.bind (ih.holes gone.stands (by omega))
    intro holes s'' p'' quoted
    obtain ⟨d, htree, htakes⟩ := quoted.derived
    have hpasses : l.Passes (Grammar.Head.quote head d).tokens p''.lexer := fun n =>
      (Reader.takes_of_hands took.hands Token.noConfusion n).append (htakes n)
    -- the quote ends where the parser stands
    have hrow : Row span.start p''.pos (holes.map (·.1.span)) :=
      quoted.row.widen took.row.2.2 (Nat.le_refl _) |>.widen took.row.2.1 (Nat.le_refl _)
    have hquote : (Expr.quote ⟨span.start, p''.pos⟩ head holes).Nested m.text :=
      .quote (Span.Piece.encloses ⟨hspan.start, quoted.stands.boundary, hrow.le⟩ hrow)
        quoted.nested
    apply Runs.bind (.pos quoted.stands.pos_eq)
    rintro _ _ _ ⟨rfl, rfl, rfl⟩
    exact goesOn (gone.trans quoted.toGone) (hparts.concat hquote
      ⟨took.row.1, hrow.le, Nat.le_refl _⟩ (.quote head d) hpasses
      (by rw [Grammar.Head.tree, htree, Expr.erase]))
  case leftParen =>
    have passed := took.passed rfl
    have hleft := passed.left
    apply Runs.bind (ih.expr .paren k passed.stands (by omega) (.nil _ _))
    rintro ⟨inner, follow⟩ s'' p'' phrase
    have hleft' := phrase.left
    obtain ⟨token, l', derives, hhands, hle⟩ := phrase.derived
    obtain ⟨d, hinner, htree, hrow, hfollow⟩ := derives.value Context.noConfusion
    obtain rfl : token = .rightParen := by
      cases token <;> first | rfl | cases hfollow
    exact goesOn ⟨phrase.stands, by omega, passed.le.trans (hrow.le.trans hle)⟩
      (hparts.concat phrase.nested (hrow.widen passed.le hle) (.paren d)
        (passed.passes.append (hinner.append (hhands.passes rfl))) htree)
  all_goals exact took.fail rfl

theorem declaredFrom_succ_runs (h : m.Stands (.word holes) l s p)
    (hbound : 2 * p.left + 2 ≤ bound + 1) (hspan : span.Piece m.text) :
    m.Runs s p (Parse.declaredFrom (extra + bound + 1) span) (Parse.declaredFrom (bound + 1) span)
      (m.Valued holes l p) := by
  rw [Parse.declaredFrom, Parse.declaredFrom]
  apply Runs.bind (ih.expr .lineRest holes h (by omega) (.nil _ _))
  rintro ⟨value, follow⟩ s' p' phrase
  obtain ⟨token, l', derives, hhands, hle⟩ := phrase.derived
  obtain ⟨d, hpasses, htree, hrow, hfollow⟩ := derives.value Context.noConfusion
  cases follow with
  | ended => exact .fail hspan rfl
  | declared pattern => cases token <;> cases hfollow
  | another =>
    obtain rfl : token = .newline := by
      cases token <;> first | rfl | cases hfollow
    exact .pure ⟨⟨phrase.stands, phrase.left, hrow.le.trans hle⟩, phrase.nested, d, l', hpasses,
      htree, hrow, hhands, hle⟩

theorem holesFrom_succ_runs (h : m.Stands (.word (holes + 1)) l s p)
    (hbound : 2 * p.left + 2 ≤ bound + 1) :
    m.Runs s p (Parse.holesFrom (extra + bound + 1)) (Parse.holesFrom (bound + 1))
      (m.Quoted holes l p) := by
  rw [Parse.holesFrom, Parse.holesFrom]
  apply Runs.bind (ih.expr .hole holes h (by omega) (.nil _ _))
  rintro ⟨hole, follow⟩ s' p' phrase
  have hleft := phrase.left
  obtain ⟨token, l', derives, hhands, hle⟩ := phrase.derived
  obtain ⟨d, hpasses, htree, hrow, hfollow⟩ := derives.value Context.noConfusion
  obtain rfl : token = .rightBrace := by
    cases token <;> first | rfl | cases hfollow
  apply Runs.bind (quotePart_runs phrase.stands)
  rintro ⟨text, isEnd⟩ s'' p'' ⟨gone, hpart⟩
  have hleft' := gone.left
  have hrow' := hrow.until (hle.trans gone.le)
  -- the hole, its brace and the text behind it
  have htakes : ∀ n, Reader.Takes ⟨l, .word (n + 1)⟩
      (d.tokens ++ [.rightBrace, .quotePart text isEnd])
      ⟨p''.lexer, .word (if isEnd then n else n + 1)⟩ := fun n =>
    (hpasses (n + 1)).append ((Reader.takes_of_hands hhands Token.noConfusion (n + 1)).append
      (Reader.takes_of_quotePart hpart n))
  cases isEnd with
  | true =>
    refine .pure ⟨⟨gone.stands, by omega, hrow'.le⟩, hrow', forall_mem_singleton.2 phrase.nested,
      .last d text, ?_, htakes⟩
    rw [Grammar.Holes.tree, htree]
    rfl
  | false =>
    apply Runs.bind (ih.holes gone.stands (by omega))
    intro others _ _ quoted
    have hleft'' := quoted.left
    obtain ⟨ds, htrees, htakes'⟩ := quoted.derived
    refine .pure ⟨⟨quoted.stands, by omega, hrow'.le.trans quoted.le⟩, hrow'.append quoted.row,
      forall_mem_cons.2 ⟨phrase.nested, quoted.nested⟩, .more d text ds, ?_, fun n => ?_⟩
    · rw [Grammar.Holes.tree, htree, htrees]
      rfl
    · simpa [Grammar.Holes.tokens] using (htakes n).append (htakes' n)

end Step

theorem exprsRun (extra bound : Nat) : m.ExprsRun extra bound := by
  induction bound with
  | zero =>
    refine ⟨fun _ _ _ _ hbound => ?_, fun _ hbound => ?_, fun _ hbound => ?_⟩
    all_goals exact absurd hbound (Nat.not_succ_le_zero _)
  | succ bound ih =>
    exact ⟨exprFrom_succ_runs ih, declaredFrom_succ_runs ih, holesFrom_succ_runs ih⟩

end Mirror

/-! ## Blocks -/

namespace Parse

/-- A block that begins at `l` and ends at `l'`: every line is an expression or a declaration with the
token that leads to the next line, or out of the block. -/
inductive Block (text : List Char) : Lexer → Expr → Lexer → Prop where
  | last {l l₁ l' : Lexer} {e : Expr} (nested : e.Nested text)
      (derived : Derives text .line l e .ended .dedent l₁) (hands : l₁.Hands .dedent l')
      (le : l₁.pos ≤ l'.pos) : Block text l e l'
  | seq {l l₁ l₂ l' : Lexer} {first rest : Expr} (nested : first.Nested text)
      (derived : Derives text .line l first .another .newline l₁) (hands : l₁.Hands .newline l₂)
      (le : l₁.pos ≤ l₂.pos) (others : Block text l₂ rest l') :
      Block text l (.seq (first.span.cover rest.span) first rest) l'
  | letIn {l l₁ l₂ l' : Lexer} {pattern : Pattern} {value rest : Expr} (nested : value.Nested text)
      (derived : Derives text .line l value (.declared pattern) .newline l₁)
      (hands : l₁.Hands .newline l₂) (le : l₁.pos ≤ l₂.pos) (others : Block text l₂ rest l') :
      Block text l (.letIn (pattern.span.cover rest.span) pattern value rest) l'

variable {l' : Lexer} {e : Expr}

/-- The places in a block nest, and the block stands between its ends. -/
theorem Block.places (h : Block text l e l') : e.Nested text ∧ Row l.pos l'.pos [e.span] := by
  induction h with
  | last nested derived _ le =>
    cases derived with
    | phrase _ _ _ row => exact ⟨nested, row.until le⟩
  | seq nested derived _ le _ ih =>
    cases derived with
    | phrase _ _ _ row =>
      have hbetween := (row.until le).append ih.2
      obtain ⟨place, hrow⟩ := nested.piece.covers ih.1.piece hbetween
      exact ⟨.seq place nested ih.1, hrow⟩
  | letIn nested derived _ le _ ih =>
    cases derived with
    | phrase _ _ _ _ follows => cases follows
    | declaration _ _ _ _ _ _ bound row =>
      have hbetween := (row.until le).append ih.2
      obtain ⟨place, hrow⟩ := bound.piece.covers ih.1.piece hbetween
      exact ⟨.letIn place bound nested ih.1, hrow⟩

theorem Block.sound (h : Block text l e l') :
    ∃ d : Grammar.Block, l.Passes d.tokens l' ∧ d.tree = e.erase := by
  induction h with
  | last _ derived hands _ =>
    cases derived with
    | phrase d passes tree => exact ⟨.last d, passes.append (hands.passes rfl), tree⟩
  | seq _ derived hands _ _ ih =>
    cases derived with
    | phrase d passes tree =>
      obtain ⟨others, hothers, htrees⟩ := ih
      refine ⟨.line d others, passes.append ((hands.passes rfl).append hothers), ?_⟩
      rw [Grammar.Block.tree, tree, htrees, Expr.erase]
  | letIn _ derived hands _ _ ih =>
    cases derived with
    | phrase _ _ _ _ follows => cases follows
    | declaration d value _ passes bound tree =>
      obtain ⟨others, hothers, htrees⟩ := ih
      refine ⟨.declaration d value others, ?_, ?_⟩
      · simpa [Block.tokens] using passes.append ((hands.passes rfl).append hothers)
      · rw [Block.tree, bound, tree, htrees, Expr.erase]

end Parse

theorem Mirror.blockFrom_runs {σ : Type} [Supply σ] {m : Mirror σ} {s : Parser σ} {p : Parser}
    {holes extra bound : Nat} (h : m.Stands (.word holes) l s p) (hbound : 2 * p.left + 2 ≤ bound) :
    m.Runs s p (Parse.blockFrom (extra + bound)) (Parse.blockFrom bound) fun e s' p' =>
      m.Gone 1 (.word holes) l p'.lexer p s' p' ∧ Parse.Block m.text l e p'.lexer := by
  induction bound generalizing s p l with
  | zero => exact absurd hbound (Nat.not_succ_le_zero _)
  | succ bound ih =>
    rw [← Nat.add_assoc, Parse.blockFrom, Parse.blockFrom]
    apply Runs.bind ((m.exprsRun extra bound).expr .line holes h (by omega) (.nil _ _))
    rintro ⟨first, follow⟩ s' p' phrase
    have hleft := phrase.left
    obtain ⟨token, l', derives, hhands, hle⟩ := phrase.derived
    obtain rfl := derives.token_eq
    cases follow with
    | ended =>
      have hblock := Parse.Block.last phrase.nested derives hhands hle
      exact .pure ⟨⟨phrase.stands, hleft, hblock.places.2.le⟩, hblock⟩
    | another =>
      apply Runs.bind (ih phrase.stands (by omega))
      rintro rest _ _ ⟨gone, hrest⟩
      have hleft' := gone.left
      have hblock := Parse.Block.seq phrase.nested derives hhands hle hrest
      exact .pure ⟨⟨gone.stands, by omega, hblock.places.2.le⟩, hblock⟩
    | declared pattern =>
      apply Runs.bind (ih phrase.stands (by omega))
      rintro rest _ _ ⟨gone, hrest⟩
      have hleft' := gone.left
      have hblock := Parse.Block.letIn phrase.nested derives hhands hle hrest
      exact .pure ⟨⟨gone.stands, by omega, hblock.places.2.le⟩, hblock⟩

end Tree

end ClassLang
