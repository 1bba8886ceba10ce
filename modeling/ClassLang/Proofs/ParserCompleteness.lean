import ClassLang.Proofs.ParserSoundness
import ClassLang.Proofs.Unambiguity

/-!
# The parser accepts its whole grammar

Where the lexer gives the tokens of a derivation the parser succeeds. Each lemma is stated with the
tokens that are still to come behind the phrase (`Ahead`), and the bound of a loop is measured by the
tokens of its phrase: two turns for each token suffice. The trees of expressions are followed on the
way, since a declaration begins with what could be one. For all else it is enough that the parser
succeeds: what it gives then has a derivation (`Tree.parse_sound`), and there is only one
(`Grammar.Module.unique`). The main statement is `Tree.parse_iff_derivation`.
-/

set_option autoImplicit false

namespace ClassLang.Tree

open List Grammar Parse
open Reader (Takes)

variable {text : String} {bound : Nat} {context : Context}

namespace Parse

/-! ## Steps that succeed -/

/-- The step succeeds, as `post` says. -/
def Reaches {α : Type} (x : Parse α) (p : Parser) (post : α → Parser → Prop) : Prop :=
  ∃ a p', x p = .ok (a, p') ∧ post a p'

namespace Reaches

variable {α β : Type} {p : Parser} {x y : Parse α} {post : α → Parser → Prop}

theorem pure {a : α} (h : post a p) : Reaches (Pure.pure a) p post := ⟨a, p, rfl, h⟩

theorem bind {mid : β → Parser → Prop} {x : Parse β} {f : β → Parse α} (first : Reaches x p mid)
    (rest : ∀ b p', mid b p' → Reaches (f b) p' post) : Reaches (x >>= f) p post := by
  obtain ⟨b, q, hx, hmid⟩ := first
  obtain ⟨a, p', hf, hpost⟩ := rest b q hmid
  exact ⟨a, p', (bind_of_ok hx).trans hf, hpost⟩

theorem imp {post' : α → Parser → Prop} (h : Reaches x p post)
    (himp : ∀ a p', post a p' → post' a p') : Reaches x p post' := by
  obtain ⟨a, p', hx, hpost⟩ := h
  exact ⟨a, p', hx, himp a p' hpost⟩

theorem ite_pos {c : Prop} [Decidable c] (hc : c) (h : Reaches x p post) :
    Reaches (if c then x else y) p post := by
  rwa [if_pos hc]

theorem ite_neg {c : Prop} [Decidable c] (hc : ¬ c) (h : Reaches y p post) :
    Reaches (if c then x else y) p post := by
  rwa [if_neg hc]

theorem withBound {loop : Nat → Parse α} (h : Reaches (loop p.bound) p post) :
    Reaches (withBound loop) p post := h

/-- A step that needs no tokens. -/
theorem lift {result : Except CompileError β} {b : β} {f : β → Parse α} (h : result = .ok b)
    (rest : Reaches (f b) p post) : Reaches (liftM result >>= f) p post := by
  rw [h]
  exact rest

end Reaches

/-! ## Single tokens -/

/-- From the parser on, where `mode` is read next, the text has these tokens and then ends. A token
that was looked at is the first of them. -/
inductive Ahead : Mode → Parser → List Token → Prop where
  | taken {mode} {l : Lexer} {tokens} {r : Reader} (clean : l.Clean)
      (takes : Takes ⟨l, mode⟩ tokens r) (ends : r.Ends) : Ahead mode ⟨l, none⟩ tokens
  | peeked {holes} {l l' : Lexer} {lexed tokens} {r : Reader}
      (clean : l.Clean) (next : l.nextToken = (.ok lexed, l'))
      (takes : Takes ⟨l, .word holes⟩ tokens r) (ends : r.Ends) :
      Ahead (.word holes) ⟨l', some lexed⟩ tokens

/-- The step succeeds and leaves the tokens `k`. -/
abbrev Leaves {α : Type} (x : Parse α) (p : Parser) (holes : Nat) (k : List Token) : Prop :=
  Reaches x p fun _ p' => Ahead (.word holes) p' k

variable {p : Parser} {holes : Nat} {token : Token} {k : List Token} {parts : List Expr}
  {post : Expr × Follow → Parser → Prop}

/-- The token behind the last one of a text is `eof`. -/
theorem exists_next {l : Lexer} {r : Reader} (takes : Takes ⟨l, .word holes⟩ k r) (ends : r.Ends) :
    ∃ l', l.Hands (k.headD .eof) l' := by
  cases k with
  | nil =>
    obtain ⟨ts, hts, htokens⟩ := takes
    obtain rfl := map_eq_nil_iff.1 htokens
    cases hts with
    | nil =>
      obtain ⟨_, lexed, l', -, hnext, htoken⟩ := ends
      rw [headD_nil, ← htoken]
      exact ⟨l', lexed.span, hnext⟩
  | cons token k =>
    obtain ⟨l', hhands, -⟩ := takes.first
    exact ⟨l', hhands⟩

/-- The parser sees the next token in the same way if it has looked at it before. -/
theorem Ahead.exists_sees (h : Ahead (.word holes) p k) : ∃ l l' span r,
    l.Clean ∧ Takes ⟨l, .word holes⟩ k r ∧ r.Ends ∧ l.nextToken = (.ok ⟨k.headD .eof, span⟩, l') ∧
    next p = .ok (⟨k.headD .eof, span⟩, ⟨l', none⟩) ∧
    peek p = .ok (k.headD .eof, ⟨l', some ⟨k.headD .eof, span⟩⟩) := by
  cases h with
  | taken clean takes ends =>
    obtain ⟨l', span, hnext⟩ := exists_next takes ends
    refine ⟨_, l', span, _, clean, takes, ends, hnext, ?_, ?_⟩
    · simp only [next, Supply.nextToken_lexer, hnext]
    · simp only [peek, Supply.nextToken_lexer, hnext]
  | peeked clean hpeeked takes ends =>
    obtain ⟨l', span, hnext⟩ := exists_next takes ends
    cases hnext.symm.trans hpeeked
    exact ⟨_, _, span, _, clean, takes, ends, hnext, rfl, rfl⟩

theorem next_reaches (h : Ahead (.word holes) p (token :: k)) :
    Reaches next p fun lexed p' => ∃ span, lexed = ⟨token, span⟩ ∧
      Ahead (.behind token holes) p' k := by
  obtain ⟨l, l', span, r, clean, takes, ends, hnext, hp, -⟩ := h.exists_sees
  obtain ⟨_, ⟨_, hfirst⟩, hne, hrest⟩ := takes.first
  cases hnext.symm.trans hfirst
  refine ⟨_, _, hp, span, rfl, .taken ?_ hrest ends⟩
  exact (Reader.takes_of_hands ⟨span, hnext⟩ hne holes).clean clean

theorem peek_reaches (h : Ahead (.word holes) p k) :
    Reaches peek p fun seen p' => seen = k.headD .eof ∧ Ahead (.word holes) p' k := by
  obtain ⟨l, l', span, r, clean, takes, ends, hnext, -, hp⟩ := h.exists_sees
  exact ⟨_, _, hp, rfl, .peeked clean hnext takes ends⟩

theorem next_eof (h : Ahead (.word holes) p []) :
    Reaches next p fun lexed _ => ∃ span, lexed = ⟨.eof, span⟩ := by
  obtain ⟨_, _, span, _, -, -, -, -, hp, -⟩ := h.exists_sees
  exact ⟨_, _, hp, span, rfl⟩

namespace Reaches

variable {α : Type} {post : α → Parser → Prop}

/-- A token that neither opens nor closes a hole. -/
theorem take {f : Lexed → Parse α} (h : Ahead (.word holes) p (token :: k))
    (plain : token.isPlain = true)
    (rest : ∀ span p', Ahead (.word holes) p' k → Reaches (f ⟨token, span⟩) p' post) :
    Reaches (next >>= f) p post := by
  have hnext := next_reaches h
  rw [Mode.behind_plain plain] at hnext
  apply bind hnext
  rintro _ p' ⟨span, rfl, h⟩
  exact rest span p' h

theorem peek {f : Token → Parse α} (h : Ahead (.word holes) p k)
    (rest : ∀ p', Ahead (.word holes) p' k → Reaches (f (k.headD .eof)) p' post) :
    Reaches (peek >>= f) p post := by
  apply bind (peek_reaches h)
  rintro _ p' ⟨rfl, h⟩
  exact rest p' h

theorem taken {f : Bool → Parse α} (h : Ahead (.word holes) p (token :: k))
    (plain : token.isPlain = true)
    (rest : ∀ p', Ahead (.word holes) p' k → Reaches (f true) p' post) :
    Reaches (tryTake token >>= f) p post := by
  rw [tryTake, bind_assoc]
  refine .peek h fun p' h => ?_
  rw [headD_cons, if_pos rfl, bind_assoc]
  refine .take h plain fun span p'' h => ?_
  exact rest p'' h

theorem left {f : Bool → Parse α} (h : Ahead (.word holes) p k) (hne : k.headD .eof ≠ token)
    (rest : ∀ p', Ahead (.word holes) p' k → Reaches (f false) p' post) :
    Reaches (tryTake token >>= f) p post := by
  rw [tryTake, bind_assoc]
  refine .peek h fun p' h => ?_
  rw [if_neg hne, pure_bind]
  exact rest p' h

theorem expect {f : Span → Parse α} {wanted : Wanted} (h : Ahead (.word holes) p (token :: k))
    (plain : token.isPlain = true)
    (rest : ∀ span p', Ahead (.word holes) p' k → Reaches (f span) p' post) :
    Reaches (expect token wanted >>= f) p post := by
  rw [Parse.expect, bind_assoc]
  refine .take h plain fun span p' h => ?_
  rw [if_pos rfl, pure_bind]
  exact rest span p' h

theorem name {f : String × Span → Parse α} (h : Ahead (.word holes) p (.name text :: k))
    (rest : ∀ span p', Ahead (.word holes) p' k → Reaches (f (text, span)) p' post) :
    Reaches (name >>= f) p post := by
  rw [Parse.name, bind_assoc]
  exact .take h rfl fun span p' h => rest span p' h

end Reaches

theorem quotePart_reaches {isEnd : Bool} (h : Ahead (.text holes) p (.quotePart text isEnd :: k)) :
    Reaches quotePart p fun part p' => part = ⟨text, isEnd⟩ ∧
      Ahead (.word (if isEnd then holes else holes + 1)) p' k := by
  cases h with
  | taken clean takes ends =>
    obtain ⟨⟨text', isEnd'⟩, l', hpart, htoken, hk⟩ := takes.firstText
    cases htoken
    refine ⟨_, ⟨l', none⟩, ?_, rfl,
      .taken (Lexer.clean_of_nextQuotePart clean hpart).1 hk ends⟩
    simp only [quotePart, Supply.nextQuotePart_lexer, hpart]

/-- The bound of a loop suffices for the tokens that are still to come. -/
theorem Ahead.length_le (h : Ahead (.word holes) p k) : 2 * k.length + 2 ≤ p.bound := by
  suffices hmeasure : k.length ≤ p.measure by
    unfold Parser.bound
    omega
  cases h with
  | taken clean takes ends =>
    have hlength := takes.length_le clean
    simp only [Parser.measure, Supply.measure_lexer] at hlength ⊢
    omega
  | peeked clean hpeeked takes ends =>
    -- the token that was looked at is the first of them
    cases k with
    | nil => exact Nat.zero_le _
    | cons token k =>
      obtain ⟨l', ⟨span, hnext⟩, hne, hrest⟩ := takes.first
      cases hnext.symm.trans hpeeked
      have hlength := hrest.length_le
        ((Reader.takes_of_hands ⟨span, hnext⟩ hne holes).clean clean)
      simp only [Parser.measure, Supply.measure_lexer, length_cons, Option.isSome_some,
        if_true] at hlength ⊢
      omega

/-- A loop that may take a turn. -/
theorem exists_turn (bound : Nat) (h : 0 < bound := by omega) : ∃ b, bound = b + 1 :=
  ⟨bound - 1, by omega⟩

/-- A list of phrases, none of which is empty, has a token for each. -/
theorem length_le_flatMap {β : Type} {f : β → List Token} (hf : ∀ x, f x ≠ []) (xs : List β) :
    xs.length ≤ (xs.flatMap f).length := by
  induction xs with
  | nil => exact Nat.zero_le _
  | cons x xs ih =>
    have hpos := length_pos_of_ne_nil (hf x)
    rw [flatMap_cons, length_append, length_cons]
    omega

/-! ## Types -/

/-- The parser reads the type `d` wherever its tokens stand, if no bracket follows. -/
def ReadsType (d : Grammar.TypeExpr) : Prop :=
  ∀ {bound holes : Nat} {p : Parser} {k : List Token}, Ahead (.word holes) p (d.tokens ++ k) →
    k.headD .eof ≠ .leftBracket → 2 * d.tokens.length ≤ bound →
    Leaves (typeFrom bound) p holes k

theorem typeArgsFrom_reaches {first : Grammar.TypeExpr} {others : List Grammar.TypeExpr}
    (hfirst : ReadsType first) (hothers : ∀ d ∈ others, ReadsType d)
    (h : Ahead (.word holes) p (first.tokens ++ (typeArgTokens others ++ k)))
    (hbound : 2 * (first.tokens ++ typeArgTokens others).length ≤ bound) :
    Leaves (typeArgsFrom bound) p holes k := by
  induction others generalizing first bound p with
  | nil =>
    rw [typeArgTokens, length_append, length_singleton] at hbound
    obtain ⟨bound, rfl⟩ := exists_turn bound
    rw [typeArgsFrom]
    refine (hfirst h (by simp [typeArgTokens]) (by omega)).bind fun ty p' h => ?_
    exact .take h rfl fun span p'' h => .pure h
  | cons second others ih =>
    rw [typeArgTokens, length_append, length_cons] at hbound
    obtain ⟨hsecond, hothers⟩ := forall_mem_cons.1 hothers
    obtain ⟨bound, rfl⟩ := exists_turn bound
    rw [typeArgsFrom]
    refine (hfirst h (by simp [typeArgTokens]) (by omega)).bind fun ty p' h => ?_
    rw [typeArgTokens, cons_append, append_assoc] at h
    refine .take h rfl fun span p'' h => ?_
    exact (ih hsecond hothers h (by omega)).bind fun _ _ h => .pure h

theorem typeFrom_reaches (d : Grammar.TypeExpr) : ReadsType d := by
  induction d using Grammar.TypeExpr.induct with
  | named name =>
    intro bound holes p k h hne hbound
    simp only [TypeExpr.tokens, length_cons] at hbound
    obtain ⟨bound, rfl⟩ := exists_turn bound
    rw [typeFrom]
    refine .take h rfl fun span p' h => ?_
    exact .left h hne fun p'' h => .pure h
  | generic name first others hfirst hothers =>
    intro bound holes p k h hne hbound
    simp only [TypeExpr.tokens, length_cons] at hbound
    obtain ⟨bound, rfl⟩ := exists_turn bound
    rw [typeFrom]
    refine .take h rfl fun span p' h => ?_
    refine .taken h rfl fun p'' h => ?_
    exact (typeArgsFrom_reaches hfirst hothers (by simpa using h) (by omega)).bind fun _ _ h => .pure h

theorem typeExpr_reaches (d : Grammar.TypeExpr) (h : Ahead (.word holes) p (d.tokens ++ k))
    (hne : k.headD .eof ≠ .leftBracket) : Leaves typeExpr p holes k := by
  have hbound := h.length_le
  rw [length_append] at hbound
  exact .withBound (typeFrom_reaches d h hne (by omega))

/-! ## Expressions -/

theorem joinParts_complete {first : Part} {others : List Part} (span : Span)
    (h : parts.map Expr.erase = (first :: others).map Part.tree) :
    ∃ e, joinParts parts span = .ok e ∧ e.erase = callTree first.tree (partTrees others) := by
  obtain ⟨target, args, rfl, htarget, hargs⟩ := map_eq_cons_iff.1 h
  cases args with
  | nil =>
    obtain rfl : others = [] := map_eq_nil_iff.1 hargs.symm
    exact ⟨target, rfl, htarget⟩
  | cons arg args =>
    refine ⟨_, rfl, ?_⟩
    rw [Expr.erase, eraseExprs_eq, hargs, htarget, partTrees_eq]
    cases others with
    | nil => cases hargs
    | cons second others => rfl

theorem boundName_of_erase {e : Expr} (h : e.erase = .access .nowhere text) :
    ∃ span, boundName? e = some (span, text) := by
  cases e with
  | access span name =>
    cases h
    exact ⟨span, rfl⟩
  | _ => cases h

theorem BareName.tree_part (bare : BareName) :
    bare.part.tree = .access .nowhere bare.text := by
  induction bare with
  | bare text => rfl
  | paren inner ih => exact ih

theorem mapM_boundName {bares : List BareName}
    (h : parts.map Expr.erase = (bares.map BareName.part).map Part.tree) :
    ∃ names, parts.mapM boundName? = some names ∧ names.length = bares.length := by
  induction parts generalizing bares with
  | nil =>
    obtain rfl : bares = [] := by simpa using h.symm
    exact ⟨[], rfl, rfl⟩
  | cons part parts ih =>
    cases bares with
    | nil => cases h
    | cons bare bares =>
      obtain ⟨hpart, hparts⟩ := cons.inj h
      obtain ⟨span, hbound⟩ := boundName_of_erase (hpart.trans (BareName.tree_part bare))
      obtain ⟨names, hnames, hlength⟩ := ih hparts
      refine ⟨(span, bare.text) :: names, ?_, congrArg (· + 1) hlength⟩
      rw [mapM_cons, hbound, hnames]
      rfl

theorem joinPattern_complete {first : BareName} {others : List BareName} (span : Span)
    (h : parts.map Expr.erase = ((first :: others).map BareName.part).map Part.tree) :
    ∃ pattern, joinPattern parts span = .ok pattern := by
  obtain ⟨names, hnames, hlength⟩ := mapM_boundName h
  rw [joinPattern, hnames]
  cases names with
  | nil => cases hlength
  | cons name names => cases names <;> exact ⟨_, rfl⟩

/-- The parser goes on with one more part. -/
def ReadsPart (tokens : List Token) (tree : Expr) : Prop :=
  ∀ {bound holes : Nat} {context : Context} {parts : List Expr} {p : Parser} {k : List Token}
    {post : Expr × Follow → Parser → Prop}, Ahead (.word holes) p (tokens ++ k) →
    2 * tokens.length ≤ bound →
    (∀ bound' part p', bound ≤ bound' + tokens.length → part.erase = tree →
      Ahead (.word holes) p' k → Reaches (exprFrom bound' context (parts ++ [part])) p' post) →
    Reaches (exprFrom bound context parts) p post

/-- The parser reads the expression `d` up to and including the token that ends it. -/
def ReadsExpr (d : Grammar.Expr) : Prop :=
  ∀ {bound holes : Nat} {context : Context} {follow : Follow} {p : Parser} {token : Token}
    {k : List Token}, Ahead (.word holes) p (d.tokens ++ token :: k) →
    context.follow? token = some follow → 2 * d.tokens.length + 1 ≤ bound →
    Reaches (exprFrom bound context []) p fun result p' =>
      result.1.erase = d.tree ∧ result.2 = follow ∧ Ahead (.behind token holes) p' k

/-- The parser reads the holes of a quote, the last of which closes it. -/
def ReadsHoles (d : Holes) : Prop :=
  ∀ {bound holes : Nat} {p : Parser} {k : List Token}, Ahead (.word (holes + 1)) p (d.tokens ++ k) →
    2 * d.tokens.length ≤ bound → Reaches (holesFrom bound) p fun hs p' =>
      eraseHoles hs = d.tree ∧ Ahead (.word holes) p' k

/-- The parts of an expression, one after the other. -/
theorem readsParts {ds : List Part} (hds : ∀ d ∈ ds, ReadsPart d.tokens d.tree)
    (h : Ahead (.word holes) p (ds.flatMap Part.tokens ++ k))
    (hbound : 2 * (ds.flatMap Part.tokens).length ≤ bound)
    (goesOn : ∀ bound' read p', bound ≤ bound' + (ds.flatMap Part.tokens).length →
      read.map Expr.erase = ds.map Part.tree → Ahead (.word holes) p' k →
      Reaches (exprFrom bound' context (parts ++ read)) p' post) :
    Reaches (exprFrom bound context parts) p post := by
  induction ds generalizing bound parts p with
  | nil =>
    have hend := goesOn bound [] p (Nat.le_refl _) rfl h
    rwa [append_nil] at hend
  | cons d ds ih =>
    simp only [flatMap_cons, append_assoc, length_append] at h hbound goesOn
    obtain ⟨hd, hds⟩ := forall_mem_cons.1 hds
    refine hd h (by omega) fun bound₁ part p₁ hle htree h => ih hds h (by omega) ?_
    intro bound₂ read p₂ hle' htrees h
    have hend := goesOn bound₂ (part :: read) p₂ (by omega)
      (by rw [map_cons, htree, htrees, map_cons]) h
    rwa [append_cons] at hend

/-- The token that ends an expression behind its parts. -/
theorem close_reaches (bound : Nat) {follow : Follow} {first : Part} {others : List Part}
    (h : Ahead (.word holes) p (token :: k)) (hfollow : context.follow? token = some follow)
    (hparts : parts.map Expr.erase = (first :: others).map Part.tree) :
    Reaches (exprFrom (bound + 1) context parts) p fun result p' =>
      result.1.erase = callTree first.tree (partTrees others) ∧ result.2 = follow ∧
        Ahead (.behind token holes) p' k := by
  rw [exprFrom]
  apply Reaches.bind (next_reaches h)
  rintro _ p' ⟨span, rfl, h⟩
  obtain ⟨e, hjoin, htree⟩ := joinParts_complete span hparts
  have ends : Reaches (do return (← joinParts parts span, follow)) p' fun result p' =>
      result.1.erase = callTree first.tree (partTrees others) ∧ result.2 = follow ∧
        Ahead (.behind token holes) p' k := by
    refine .lift hjoin ?_
    exact .pure ⟨htree, rfl, h⟩
  -- one token ends an expression in parentheses or in a hole, two end one on a line
  cases context <;> cases token <;> cases hfollow <;> exact ends

/-- The names behind a part. -/
theorem readsMembers (names : List String) (target : Expr)
    (h : Ahead (.word holes) p (memberTokens names ++ k)) (hbound : names.length ≤ bound)
    (goesOn : ∀ bound' part p', bound ≤ bound' + names.length →
      part.erase = memberTree target.erase names → Ahead (.word holes) p' k →
      Reaches (exprFrom bound' context (parts ++ [part])) p' post) :
    Reaches (exprFrom bound context (parts ++ [target])) p post := by
  induction names generalizing bound target p with
  | nil => exact goesOn bound target p (Nat.le_refl _) rfl h
  | cons name names ih =>
    rw [length_cons] at hbound goesOn
    obtain ⟨bound, rfl⟩ := exists_turn bound
    rw [exprFrom]
    refine .take h rfl fun span p' h => ?_
    dsimp only
    rw [getLast?_concat, dropLast_concat]
    refine .name h fun span' p'' h => ?_
    refine ih (.property (target.span.cover span') target name) h (by omega) ?_
    intro bound' part p₃ hle htree h
    exact goesOn bound' part p₃ (by omega) htree h

/-- A hole of a quote with the text behind it. -/
theorem readsHole {hole : Grammar.Expr} (hhole : ReadsExpr hole) {isEnd : Bool}
    (h : Ahead (.word (holes + 1)) p (hole.tokens ++ .rightBrace :: .quotePart text isEnd :: k))
    (hbound : 2 * hole.tokens.length + 1 ≤ bound) :
    Reaches (exprFrom bound .hole []) p fun result p' => result.1.erase = hole.tree ∧
      Reaches quotePart p' fun part p'' => part = ⟨text, isEnd⟩ ∧
        Ahead (.word (if isEnd then holes else holes + 1)) p'' k := by
  have hfollow : Context.follow? .hole .rightBrace = some .ended := rfl
  refine (hhole h hfollow hbound).imp ?_
  rintro ⟨e, follow⟩ p' ⟨htree, -, h⟩
  exact ⟨htree, quotePart_reaches h⟩

theorem reads_all : (∀ d, ReadsExpr d) ∧ (∀ d : Part, ReadsPart d.tokens d.tree) ∧
    (∀ d : Head, ReadsPart d.tokens d.tree) ∧ ∀ d, ReadsHoles d := by
  apply Grammar.Expr.induct
  case parts =>
    intro first others hfirst hothers bound holes context follow p token k h hfollow hbound
    rw [Expr.tokens_parts] at h hbound
    refine readsParts (forall_mem_cons.2 ⟨hfirst, hothers⟩) h (by omega) ?_
    intro bound₁ read p₁ hle htrees h
    obtain ⟨bound₂, rfl⟩ := exists_turn bound₁
    exact close_reaches bound₂ h hfollow htrees
  case operator =>
    intro first others text right hfirst hothers hright bound holes context follow p token k h
      hfollow hbound
    rw [Expr.tokens_operator] at h hbound
    rw [append_assoc] at h
    rw [length_append, length_cons] at hbound
    refine readsParts (forall_mem_cons.2 ⟨hfirst, hothers⟩) h (by omega) ?_
    intro bound₁ read p₁ hle htrees h
    obtain ⟨bound₂, rfl⟩ := exists_turn bound₁
    have hfollow' : (if context = .line then Context.lineRest else context).follow? token =
        some follow := by
      cases context <;> first | exact hfollow | exact (follow?_lineRest token).trans hfollow
    have hsome : ¬ read.isEmpty = true := by
      intro hempty
      rw [isEmpty_iff.1 hempty] at htrees
      cases htrees
    rw [nil_append, exprFrom]
    refine .take h rfl fun span p₂ h => ?_
    obtain ⟨left, hjoin, hleft⟩ := joinParts_complete span htrees
    apply Reaches.ite_neg hsome
    refine .lift hjoin ?_
    apply Reaches.bind (hright h hfollow' (by omega))
    rintro ⟨e, _⟩ p₃ ⟨htree, rfl, h⟩
    exact .pure ⟨by rw [Expr.erase, hleft, htree, Expr.tree], rfl, h⟩
  case part =>
    intro head names hhead bound holes context parts p k post h hbound goesOn
    rw [Part.tokens, append_assoc] at h
    have hlength : (memberTokens names).length = 2 * names.length := by
      simp [memberTokens, Nat.mul_comm]
    rw [Part.tokens, length_append, hlength] at hbound goesOn
    refine hhead h (by omega) fun bound₁ part p₁ hle htree h =>
      readsMembers names part h (by omega) ?_
    intro bound₂ part' p₂ hle' htree' h
    exact goesOn bound₂ part' p₂ (by omega) (by rw [htree', htree, Part.tree]) h
  case name | literal =>
    intro word bound holes context parts p k post h hbound goesOn
    simp only [Head.tokens, length_cons] at hbound
    obtain ⟨bound, rfl⟩ := exists_turn bound
    rw [exprFrom]
    refine .take h rfl fun span p' h => ?_
    exact goesOn bound _ p' (by simp [Head.tokens]) rfl h
  case staticName =>
    intro className method bound holes context parts p k post h hbound goesOn
    simp only [Head.tokens, length_cons] at hbound
    obtain ⟨bound, rfl⟩ := exists_turn bound
    rw [exprFrom]
    refine .take h rfl fun span p' h => ?_
    refine .expect h rfl fun _ p'' h => ?_
    refine .name h fun span' p₃ h => ?_
    exact goesOn bound _ p₃ (by simp [Head.tokens]) rfl h
  case quote =>
    intro text d hd bound holes context parts p k post h hbound goesOn
    rw [Head.tokens, length_cons] at hbound goesOn
    obtain ⟨bound, rfl⟩ := exists_turn bound
    rw [exprFrom]
    apply Reaches.bind (next_reaches h)
    rintro _ p' ⟨span, rfl, h⟩
    apply Reaches.bind (hd h (by omega))
    rintro hs p'' ⟨htrees, h⟩
    exact goesOn bound (.quote ⟨span.start, p''.pos⟩ text hs) p'' (by omega)
      (by rw [Expr.erase, htrees, Head.tree]) h
  case paren =>
    intro inner hinner bound holes context parts p k post h hbound goesOn
    rw [Head.tokens, cons_append, append_assoc] at h
    rw [Head.tokens, length_cons, length_append, length_singleton] at hbound goesOn
    obtain ⟨bound, rfl⟩ := exists_turn bound
    have hfollow : Context.follow? .paren .rightParen = some .ended := rfl
    rw [exprFrom]
    refine .take h rfl fun span p' h => ?_
    apply Reaches.bind (hinner h hfollow (by omega))
    rintro ⟨e, _⟩ p'' ⟨htree, rfl, h⟩
    exact goesOn bound e p'' (by omega) htree h
  case last =>
    intro hole text hhole bound holes p k h hbound
    simp only [Holes.tokens, length_append, length_cons, length_nil] at hbound
    rw [Holes.tokens, append_assoc] at h
    obtain ⟨bound, rfl⟩ := exists_turn bound
    rw [holesFrom]
    apply Reaches.bind (readsHole hhole h (by omega))
    rintro ⟨e, _⟩ p' ⟨htree, hpart⟩
    apply Reaches.bind hpart
    rintro _ p'' ⟨rfl, h⟩
    refine .pure ⟨?_, h⟩
    rw [eraseHoles, htree]
    rfl
  case more =>
    intro hole text others hhole hothers bound holes p k h hbound
    simp only [Holes.tokens, length_append, length_cons] at hbound
    rw [Holes.tokens, append_assoc] at h
    obtain ⟨bound, rfl⟩ := exists_turn bound
    rw [holesFrom]
    apply Reaches.bind (readsHole hhole h (by omega))
    rintro ⟨e, _⟩ p' ⟨htree, hpart⟩
    apply Reaches.bind hpart
    rintro _ p'' ⟨rfl, h⟩
    apply Reaches.bind (hothers h (by omega))
    rintro hs p₃ ⟨htrees, h⟩
    exact .pure ⟨by rw [eraseHoles, htree, htrees]; rfl, h⟩

/-! ## Blocks -/

theorem declaredFrom_reaches (d : Grammar.Expr) (span : Span)
    (h : Ahead (.word holes) p (d.tokens ++ .newline :: k))
    (hbound : 2 * d.tokens.length + 2 ≤ bound) : Leaves (declaredFrom bound span) p holes k := by
  obtain ⟨bound, rfl⟩ := exists_turn bound
  have hfollow : Context.follow? .lineRest .newline = some .another := rfl
  rw [declaredFrom]
  apply Reaches.bind (reads_all.1 d h hfollow (by omega))
  rintro ⟨e, _⟩ p' ⟨-, rfl, h⟩
  exact .pure h

/-- A declaration, from the start of its line. -/
theorem readsDeclaration (pattern : Grammar.Pattern) (value : Grammar.Expr)
    (h : Ahead (.word holes) p (pattern.tokens ++ .equals :: (value.tokens ++ .newline :: k)))
    (hbound : 2 * (pattern.tokens.length + value.tokens.length) + 3 ≤ bound) :
    Reaches (exprFrom bound .line []) p fun result p' =>
      (∃ pattern, result.2 = .declared pattern) ∧ Ahead (.word holes) p' k := by
  cases pattern with
  | ignore =>
    rw [Grammar.Pattern.tokens, length_singleton] at hbound
    obtain ⟨bound, rfl⟩ := exists_turn bound
    rw [exprFrom]
    refine .take h rfl fun span p' h => ?_
    apply Reaches.ite_pos rfl
    refine .take h rfl fun span' p'' h => ?_
    apply Reaches.ite_pos rfl
    refine (declaredFrom_reaches value span' h (by omega)).bind fun e p₃ h => ?_
    exact .pure ⟨⟨_, rfl⟩, h⟩
  | names first others =>
    have htokens : (Pattern.names first others).tokens =
        ((first :: others).map BareName.part).flatMap Part.tokens := by
      rw [← flatMap_bareTokens]
      rfl
    rw [htokens] at h hbound
    refine readsParts (fun d _ => reads_all.2.1 d) h (by omega) ?_
    intro bound₁ read p₁ hle htrees h
    obtain ⟨bound₂, rfl⟩ := exists_turn bound₁
    rw [nil_append, exprFrom]
    refine .take h rfl fun span p₂ h => ?_
    obtain ⟨pattern, hjoin⟩ := joinPattern_complete span htrees
    apply Reaches.ite_pos rfl
    refine .lift hjoin ?_
    refine (declaredFrom_reaches value span h (by omega)).bind fun e p₃ h => ?_
    exact .pure ⟨⟨_, rfl⟩, h⟩

theorem blockFrom_reaches (d : Grammar.Block) (h : Ahead (.word holes) p (d.tokens ++ k))
    (hbound : 2 * d.tokens.length ≤ bound) : Leaves (blockFrom bound) p holes k := by
  induction d generalizing bound p with
  | last value =>
    rw [Block.tokens, length_append, length_singleton] at hbound
    rw [Block.tokens, append_assoc] at h
    obtain ⟨bound, rfl⟩ := exists_turn bound
    have hfollow : Context.follow? .line .dedent = some .ended := rfl
    rw [blockFrom]
    apply Reaches.bind (reads_all.1 value h hfollow (by omega))
    rintro ⟨e, _⟩ p' ⟨-, rfl, h⟩
    exact .pure h
  | line first rest ih =>
    rw [Block.tokens, length_append, length_cons] at hbound
    rw [Block.tokens, append_assoc] at h
    obtain ⟨bound, rfl⟩ := exists_turn bound
    have hfollow : Context.follow? .line .newline = some .another := rfl
    rw [blockFrom]
    apply Reaches.bind (reads_all.1 first h hfollow (by omega))
    rintro ⟨e, _⟩ p' ⟨-, rfl, h⟩
    exact (ih h (by omega)).bind fun _ _ h => .pure h
  | declaration pattern value rest ih =>
    have h' : Ahead (.word holes) p (pattern.tokens ++
        .equals :: (value.tokens ++ .newline :: (rest.tokens ++ k))) := by
      simpa [Block.tokens] using h
    simp only [Block.tokens, length_append, length_cons] at hbound
    obtain ⟨bound, rfl⟩ := exists_turn bound
    rw [blockFrom]
    apply Reaches.bind (readsDeclaration pattern value h' (by omega))
    rintro ⟨e, _⟩ p' ⟨⟨pattern', rfl⟩, h⟩
    exact (ih h (by omega)).bind fun _ _ h => .pure h

theorem block_reaches (d : Grammar.Block) (h : Ahead (.word holes) p (d.tokens ++ k)) :
    Leaves block p holes k := by
  have hbound := h.length_le
  rw [length_append] at hbound
  exact .withBound (blockFrom_reaches d h (by omega))

/-! ## Imports -/

theorem dotsFrom_reaches (dots : List Dots) (ancestors : Nat) (span : Option Span)
    (h : Ahead (.word holes) p (dots.map Dots.token ++ k))
    (hend : ∀ d : Dots, k.headD .eof ≠ d.token) (hbound : dots.length < bound) :
    Reaches (dotsFrom bound ancestors span) p fun found p' =>
      found.1 = ancestors + Grammar.ancestors dots ∧ Ahead (.word holes) p' k := by
  induction dots generalizing bound ancestors span p with
  | nil =>
    obtain ⟨bound, rfl⟩ := exists_turn bound
    rw [dotsFrom]
    apply Reaches.bind (peek_reaches h)
    rintro seen p' ⟨hseen, h⟩
    have hend' : ∀ d : Dots, seen ≠ d.token := hseen ▸ hend
    cases seen with
    | dot => exact absurd rfl (hend' .one)
    | dotDot => exact absurd rfl (hend' .two)
    | _ => exact .pure ⟨rfl, h⟩
  | cons d dots ih =>
    obtain ⟨bound, rfl⟩ := exists_turn bound
    rw [dotsFrom, Grammar.ancestors, ← Nat.add_assoc]
    refine .peek h fun p' h => ?_
    cases d with
    | one | two =>
      refine .take h rfl fun span' p'' h => ?_
      exact ih _ _ h (Nat.lt_of_succ_lt_succ hbound)

theorem segmentsFrom_reaches (first : Segment) (others : List Segment) (span : Option Span)
    (h : Ahead (.word holes) p (pathTokens (first :: others) ++ k)) (hend : k.headD .eof ≠ .dot)
    (hbound : others.length < bound) : Leaves (segmentsFrom bound span) p holes k := by
  induction others generalizing first bound span p with
  | nil =>
    obtain ⟨bound, rfl⟩ := exists_turn bound
    rw [segmentsFrom]
    cases first with
    | lower text | upper text =>
      refine .take h rfl fun span' p' h => ?_
      exact .left h hend fun p'' h => .pure h
  | cons second others ih =>
    obtain ⟨bound, rfl⟩ := exists_turn bound
    rw [segmentsFrom]
    cases first with
    | lower text | upper text =>
      refine .take h rfl fun span' p' h => ?_
      refine .taken h rfl fun p'' h => ?_
      exact (ih second _ h (Nat.lt_of_succ_lt_succ hbound)).bind fun _ _ h => .pure h

/-- What follows a line of an indented list. -/
def EndsLine (token : Token) : Prop := token = .newline ∨ token = .dedent

/-- The parser reads a line of an indented list wherever its tokens stand. -/
def ReadsLine {α β : Type} (line : Parse α) (f : β → List Token) : Prop :=
  ∀ (d : β) {holes : Nat} {p : Parser} {k : List Token}, Ahead (.word holes) p (f d ++ k) →
    EndsLine (k.headD .eof) → Leaves line p holes k

/-- An import whose path has names. -/
theorem importPath_reaches (dots : List Dots) (first : Segment)
    (others : List Segment) (h : Ahead (.word holes) p
      (dots.map Dots.token ++ (pathTokens (first :: others) ++ k)))
    (hend : k.headD .eof ≠ .dot) : Leaves importLine p holes k := by
  have hfirst : ∀ d : Dots, first.token ≠ d.token := by
    intro d
    cases first <;> cases d <;> simp [Segment.token, Dots.token]
  have hbound := h.length_le
  rw [length_append, length_map] at hbound
  apply Reaches.bind (.withBound (dotsFrom_reaches dots 0 none h hfirst (by omega)))
  rintro ⟨ancestors, span⟩ p' ⟨-, h⟩
  refine .peek h fun p'' h => ?_
  have hbound' := h.length_le
  have hlength :=
    length_le_flatMap (fun segment => cons_ne_nil .dot [Segment.token segment]) others
  rw [length_append, pathTokens, length_cons] at hbound'
  have hpath := segmentsFrom_reaches first others span h hend (by omega : _ < p''.bound)
  cases first with
  | lower text | upper text =>
    refine (Reaches.withBound hpath).bind fun segments p₃ h => ?_
    exact .pure h

/-- An import that only dots make. -/
theorem importDots_reaches (first : Dots) (others : List Dots)
    (h : Ahead (.word holes) p ((first :: others).map Dots.token ++ k))
    (hend : EndsLine (k.headD .eof)) : Leaves importLine p holes k := by
  have hnotDots : ∀ d : Dots, k.headD .eof ≠ d.token := by
    intro d
    rcases hend with hend | hend <;> rw [hend] <;> cases d <;> simp [Dots.token]
  have hcount := ancestors_ne_zero first others rfl
  have hbound := h.length_le
  rw [length_append, length_map] at hbound
  apply Reaches.bind (.withBound (dotsFrom_reaches (first :: others) 0 none h hnotDots (by omega)))
  rintro ⟨ancestors, span⟩ p' ⟨hancestors, h⟩
  have hne : ancestors ≠ 0 := by
    rintro rfl
    exact hcount ((Nat.zero_add _).symm.trans hancestors.symm)
  apply Reaches.bind (peek_reaches h)
  rintro seen p'' ⟨rfl, h⟩
  rcases hend with hend | hend <;> rw [hend]
  all_goals
    refine .ite_neg ?_ (.pure h)
    simp [hne]

theorem importLine_reaches : ReadsLine importLine Import.tokens := by
  intro d holes p k h hend
  have hnotDot : k.headD .eof ≠ .dot := by
    rcases hend with hend | hend <;> rw [hend] <;> simp
  cases d with
  | relative first others path =>
    rw [Import.tokens, append_assoc] at h
    cases path with
    | nil => exact importDots_reaches first others h hend
    | cons segment path => exact importPath_reaches (first :: others) segment path h hnotDot
  | top first others => exact importPath_reaches [] first others h hnotDot

theorem linesFrom_reaches {α β : Type} {line : Parse α} {f : β → List Token}
    (hline : ReadsLine line f) (first : β) (others : List β) (h : Ahead (.word holes) p
      (f first ++ (others.flatMap (fun d => .newline :: f d) ++ .dedent :: k)))
    (hbound : others.length < bound) : Leaves (linesFrom line bound) p holes k := by
  induction others generalizing first bound p with
  | nil =>
    obtain ⟨bound, rfl⟩ := exists_turn bound
    rw [linesFrom]
    refine (hline first h (.inr rfl)).bind fun x p' h => ?_
    exact .take h rfl fun span p'' h => .pure h
  | cons second others ih =>
    obtain ⟨bound, rfl⟩ := exists_turn bound
    rw [flatMap_cons, cons_append, cons_append, append_assoc] at h
    rw [linesFrom]
    refine (hline first h (.inl rfl)).bind fun x p' h => ?_
    refine .take h rfl fun span p'' h => ?_
    exact (ih second h (Nat.lt_of_succ_lt_succ hbound)).bind fun _ _ h => .pure h

/-- An indented list behind the word that opens it. -/
theorem lines_reaches {α β : Type} {line : Parse α} {f : β → List Token} (hline : ReadsLine line f)
    (first : β) (others : List β) (h : Ahead (.word holes) p
      (f first ++ (others.flatMap (fun d => .newline :: f d) ++ [.dedent]) ++ k)) :
    Leaves (withBound (linesFrom line)) p holes k := by
  rw [append_assoc, append_assoc] at h
  have hbound := h.length_le
  have hlength := length_le_flatMap (fun d => cons_ne_nil .newline (f d)) others
  simp only [length_append] at hbound
  exact .withBound (linesFrom_reaches hline first others h (by omega))

theorem imports_reaches (ds : List Grammar.Import)
    (h : Ahead (.word holes) p (blockTokens .importWord Grammar.Import.tokens ds ++ k))
    (hk : k.headD .eof ≠ .importWord) : Leaves imports p holes k := by
  cases ds with
  | nil =>
    exact .left h hk fun p' h => .pure h
  | cons first others =>
    refine .taken h rfl fun p' h => ?_
    refine .expect h rfl fun _ p'' h => ?_
    exact lines_reaches importLine_reaches first others h

/-! ## Classes -/

theorem slot_reaches : ReadsLine slot Slot.tokens := by
  intro d holes p k h hend
  obtain ⟨mutable, ty, name⟩ := d
  have hplain : (if mutable then Token.varWord else .valWord).isPlain = true := by
    cases mutable <;> rfl
  rw [Grammar.Slot.tokens, cons_append, append_assoc] at h
  refine .take h hplain fun span p' h => ?_
  have hty := typeExpr_reaches ty h (by simp)
  cases mutable with
  | true | false =>
    apply Reaches.bind hty
    intro ty' p'' h
    exact .name h fun span' p₃ h => .pure h

theorem head_reaches (ds : List Grammar.Slot)
    (h : Ahead (.word holes) p (blockTokens .slotsWord Grammar.Slot.tokens ds ++ k))
    (hk : k.headD .eof ≠ .slotsWord) : Leaves head p holes k := by
  refine .peek h fun p' h => ?_
  cases ds with
  | nil => exact .ite_neg hk ⟨_, _, rfl, h⟩
  | cons first others =>
    apply Reaches.ite_pos rfl
    refine .take h rfl fun span p'' h => ?_
    refine .expect h rfl fun _ p₃ h => ?_
    exact (lines_reaches slot_reaches first others h).bind fun _ _ h => .pure h

theorem paramsFrom_reaches (first : Grammar.Param) (others : List Grammar.Param)
    (h : Ahead (.word holes) p (paramTokens (first :: others) ++ k))
    (hbound : others.length < bound) : Leaves (paramsFrom bound) p holes k := by
  induction others generalizing first bound p with
  | nil =>
    obtain ⟨bound, rfl⟩ := exists_turn bound
    have h' : Ahead (.word holes) p (first.ty.tokens ++ .name first.name :: .rightParen :: k) := by
      simpa [paramTokens, Grammar.Param.tokens] using h
    rw [paramsFrom]
    refine (typeExpr_reaches first.ty h' (by simp)).bind fun ty p' h => ?_
    refine .name h fun span p'' h => ?_
    exact .take h rfl fun span p₃ h => .pure h
  | cons second others ih =>
    obtain ⟨bound, rfl⟩ := exists_turn bound
    have h' : Ahead (.word holes) p (first.ty.tokens ++ .name first.name ::
        .comma :: (paramTokens (second :: others) ++ k)) := by
      simpa [paramTokens, Param.tokens] using h
    rw [paramsFrom]
    refine (typeExpr_reaches first.ty h' (by simp)).bind fun ty p' h => ?_
    refine .name h fun span p'' h => ?_
    refine .take h rfl fun span p₃ h => ?_
    exact (ih second h (Nat.lt_of_succ_lt_succ hbound)).bind fun _ _ h => .pure h

/-- A method behind the word that opens it. -/
theorem method_reaches (d : Grammar.Method) (start : Span)
    (h : Ahead (.word holes) p (d.returnType.tokens ++ (d.name.token :: .leftParen ::
      (paramTokens d.params ++ .indent :: (d.body.tokens ++ k))))) :
    Leaves (method start d.isStatic) p holes k := by
  obtain ⟨isStatic, ty, name, params, body⟩ := d
  have hplain : name.token.isPlain = true := by
    cases name <;> rfl
  have hne : name.token ≠ .leftBracket := by
    cases name <;> simp [MethodName.token]
  refine (typeExpr_reaches ty h hne).bind fun ty' p' h => ?_
  refine .take h hplain fun span p'' h => ?_
  -- behind the parameters, whether there are any
  have ends : ∀ {p : Parser} (name : String) (params : List Param),
      Ahead (.word holes) p (.indent :: (body.tokens ++ k)) →
      Leaves (do
        let _ ← expect .indent .methodBody
        let body ← block
        return (⟨start.cover body.span, isStatic, ty', name, params, body⟩ : Method)) p holes k := by
    intro p name params h
    refine .expect h rfl fun _ p' h => ?_
    exact (block_reaches body h).bind fun _ _ h => .pure h
  have behind : ∀ name : String, Reaches (do
      let _ ← expect .leftParen .openingParen
      let params ← if ← tryTake .rightParen then pure [] else withBound paramsFrom
      let _ ← expect .indent .methodBody
      let body ← block
      return (⟨start.cover body.span, isStatic, ty', name, params, body⟩ : Method)) p''
      fun _ p' => Ahead (.word holes) p' k := by
    intro name
    refine .expect h rfl fun _ p₃ h => ?_
    cases params with
    | nil =>
      refine .taken h rfl fun p₄ h => ?_
      exact ends name [] h
    | cons first others =>
      have hfirst : (paramTokens (first :: others) ++
          .indent :: (body.tokens ++ k)).headD .eof ≠ .rightParen := by
        obtain ⟨ty, name⟩ := first
        cases ty <;> exact Token.noConfusion
      refine .left h hfirst fun p₄ h => ?_
      have hbound := h.length_le
      have hlength := length_le_flatMap
        (fun param => cons_ne_nil .comma (Param.tokens param)) others
      simp only [length_append, paramTokens] at hbound
      refine (Reaches.withBound (paramsFrom_reaches first others h (by omega))).bind fun params p₅ h => ?_
      exact ends name params h
  cases name with
  | name text => exact behind text
  | operator text => exact behind text

theorem methodsFrom_reaches (ds : List Grammar.Method)
    (h : Ahead (.word holes) p (ds.flatMap Grammar.Method.tokens)) (hbound : ds.length < bound) :
    Reaches (methodsFrom bound) p fun _ _ => True := by
  induction ds generalizing bound p with
  | nil =>
    obtain ⟨bound, rfl⟩ := exists_turn bound
    rw [methodsFrom]
    apply Reaches.bind (next_eof h)
    rintro _ p' ⟨span, rfl⟩
    exact .pure trivial
  | cons d ds ih =>
    obtain ⟨bound, rfl⟩ := exists_turn bound
    have hplain : (if d.isStatic then Token.funWord else .defWord).isPlain = true := by
      cases d.isStatic <;> rfl
    rw [methodsFrom]
    refine .take h hplain fun span p' h => ?_
    have hmethod := method_reaches d span (by simpa using h)
    have behind : Reaches (do
        let first ← method span d.isStatic
        return first :: (← methodsFrom bound)) p' fun _ _ => True := by
      apply Reaches.bind hmethod
      intro first p'' h
      apply Reaches.bind (ih h (Nat.lt_of_succ_lt_succ hbound))
      intro others p₃ _
      exact .pure trivial
    cases hstatic : d.isStatic <;> rw [hstatic] at behind <;> exact behind

/-- The methods of a class begin with the word that opens the first of them. -/
theorem methodTokens_headD_ne (methods : List Grammar.Method)
    (h : token ∉ [.eof, .funWord, .defWord]) :
    (methods.flatMap Grammar.Method.tokens).headD .eof ≠ token := by
  rintro rfl
  cases methods with
  | nil => simp at h
  | cons d methods => cases hstatic : d.isStatic <;> simp [Method.tokens, Method.headTokens, hstatic] at h

theorem classDecl_reaches (name : String) (slots : List Grammar.Slot)
    (methods : List Grammar.Method) (h : Ahead (.word holes) p
      (blockTokens .slotsWord Grammar.Slot.tokens slots ++
        methods.flatMap Grammar.Method.tokens)) :
    Reaches (classDecl name) p fun _ _ => True := by
  have hstart : Reaches pos p fun _ p' => p' = p := ⟨_, _, rfl, rfl⟩
  apply Reaches.bind hstart
  rintro start _ rfl
  apply Reaches.bind (head_reaches slots h (methodTokens_headD_ne methods (by simp)))
  rintro ⟨span, slots'⟩ p' h
  have hbound := h.length_le
  have hne : ∀ d : Grammar.Method, d.tokens ≠ [] := by
    intro d
    simp [Grammar.Method.tokens]
  have hlength := length_le_flatMap hne methods
  apply Reaches.bind (.withBound (methodsFrom_reaches methods h (by omega)))
  intro methods' p'' _
  exact ⟨_, _, rfl, trivial⟩

end Parse

/-- The parser reads every text whose tokens have a derivation. -/
theorem parse_complete {source : String} (name : String) (d : Grammar.Module) {r : Reader}
    (h : Takes (.ofText source) d.bodyTokens r) (hends : r.Ends) :
    ∃ tree, parse source name = .ok tree ∧ tree.erase = d.tree name := by
  have hahead : Ahead (.word 0) (.ofText source) d.bodyTokens :=
    .taken (Lexer.clean_ofText source) h hends
  have hfirst : (blockTokens .slotsWord Grammar.Slot.tokens d.slots ++
      d.methods.flatMap Grammar.Method.tokens).headD .eof ≠ .importWord := by
    cases d.slots with
    | nil => exact methodTokens_headD_ne d.methods (by simp)
    | cons first others => simp [blockTokens]
  have hmodule : Reaches (wholeModule name) (.ofText source) fun _ _ => True := by
    apply Reaches.bind (imports_reaches d.imports hahead hfirst)
    intro items p h
    apply Reaches.bind (classDecl_reaches name d.slots d.methods h)
    intro decl p' _
    exact ⟨_, _, rfl, trivial⟩
  obtain ⟨tree, p, hmodule, -⟩ := hmodule
  have hparse : parse source name = .ok tree := by
    unfold parse
    rw [StateT.run', hmodule]
    rfl
  -- the tree has a derivation with the tokens of the text, and there is only one
  obtain ⟨d', m, l', hpasses, ⟨span, heof⟩, htree⟩ := parse_sound hparse
  obtain ⟨lexed, hreads, htokens⟩ := h
  obtain ⟨ts, hts, htokens'⟩ := hpasses 0
  obtain ⟨rfl, -⟩ := hts.unique ⟨0, ⟨.eof, span⟩, l', rfl, heof, rfl⟩ hreads hends
  obtain rfl : d' = d := Grammar.Module.unique (by
    rw [Grammar.Module.tokens, Grammar.Module.tokens, ← htokens', htokens])
  exact ⟨tree, hparse, htree.symm⟩

/-- The parser accepts exactly its grammar: where the lexer lists the tokens of a text, the parser
succeeds just if they and the end of the text have a derivation. The derivation is then the only one,
and the tree is its tree up to places. -/
theorem parse_iff_derivation {source : String} {lexed : List Lexed}
    (hlexed : tokens source = .ok lexed) (name : String) :
    ((∃ tree, parse source name = .ok tree) ↔
      ∃ d : Grammar.Module, d.tokens = lexed.map Lexed.token ++ [.eof]) ∧
    ∀ tree, parse source name = .ok tree → ∃ d : Grammar.Module,
      d.tokens = lexed.map Lexed.token ++ [.eof] ∧
      (∀ d' : Grammar.Module, d'.tokens = lexed.map Lexed.token ++ [.eof] → d' = d) ∧
      tree.erase = d.tree name := by
  obtain ⟨r, hreads, hends⟩ := tokens_eq_ok_iff.1 hlexed
  have derivation : ∀ tree, parse source name = .ok tree → ∃ d : Grammar.Module,
      d.tokens = lexed.map Lexed.token ++ [.eof] ∧ tree.erase = d.tree name := by
    intro tree hparse
    obtain ⟨d, m, l', hpasses, ⟨span, heof⟩, htree⟩ := parse_sound hparse
    -- the tokens that the parser took are all that the lexer lists
    obtain ⟨ts, hts, htokens⟩ := hpasses 0
    obtain ⟨rfl, -⟩ := hts.unique ⟨0, ⟨.eof, span⟩, l', rfl, heof, rfl⟩ hreads hends
    exact ⟨d, by rw [Grammar.Module.tokens, htokens], htree.symm⟩
  refine ⟨⟨?_, ?_⟩, ?_⟩
  · rintro ⟨tree, hparse⟩
    obtain ⟨d, htokens, -⟩ := derivation tree hparse
    exact ⟨d, htokens⟩
  · rintro ⟨d, htokens⟩
    have hbody : d.bodyTokens = lexed.map Lexed.token := append_cancel_right htokens
    obtain ⟨tree, hparse, -⟩ := parse_complete name d ⟨lexed, hreads, hbody.symm⟩ hends
    exact ⟨tree, hparse⟩
  · intro tree hparse
    obtain ⟨d, htokens, htree⟩ := derivation tree hparse
    exact ⟨d, htokens, fun d' htokens' => Grammar.Module.unique (htokens'.trans htokens.symm), htree⟩

/-- A module with an import, slots, a pattern, an operator, a call and a quote. -/
def sumText : String :=
  "import\n\t...base.Number\nslots\n\tval List[Int] all\n" ++
  "fun String sum(Int a, Int b)\n\t(c) = a + b - 1\n\tshow \"is \x7bc\x7d\" (Number.one).next\n"

/-- The derivation of `sumText`. -/
def sumModule : Grammar.Module where
  imports := [.relative .two [.one] [.lower "base", .upper "Number"]]
  slots := [⟨false, .generic "List" (.named "Int") [], "all"⟩]
  methods := [{
    isStatic := true
    returnType := .named "String"
    name := .name "sum"
    params := [⟨.named "Int", "a"⟩, ⟨.named "Int", "b"⟩]
    body := .declaration (.names (.paren (.bare "c")) [])
      (.operator (.mk (.name "a") []) [] "+"
        (.operator (.mk (.name "b") []) [] "-" (.parts (.mk (.literal (.int 1)) []) [])))
      (.last (.parts (.mk (.name "show") [])
        [.mk (.quote "is " (.last (.parts (.mk (.name "c") []) []) "")) [],
          .mk (.paren (.parts (.mk (.staticName "Number" "one") []) [])) ["next"]])) }]

/-- The tokens of `sumText` are listed, so it is read and its tree is that of `sumModule`. -/
theorem parse_iff_derivation_sumText : ∃ lexed tree, tokens sumText = .ok lexed ∧
    sumModule.tokens = lexed.map Lexed.token ++ [.eof] ∧ parse sumText "Sum" = .ok tree ∧
    tree.erase = sumModule.tree "Sum" := by
  have hlisted : (tokens sumText).toOption.map (List.map Lexed.token) =
      some sumModule.bodyTokens := by
    decide +kernel
  cases hlexed : tokens sumText with
  | error e =>
    rw [hlexed] at hlisted
    cases hlisted
  | ok lexed =>
    rw [hlexed] at hlisted
    have htokens : sumModule.tokens = lexed.map Lexed.token ++ [.eof] := by
      rw [Grammar.Module.tokens, Option.some.inj hlisted]
    obtain ⟨haccepts, hderives⟩ := parse_iff_derivation hlexed "Sum"
    obtain ⟨tree, hparse⟩ := haccepts.2 ⟨sumModule, htokens⟩
    obtain ⟨d, -, hunique, htree⟩ := hderives tree hparse
    exact ⟨lexed, tree, rfl, htokens, hparse, by rw [htree, hunique sumModule htokens]⟩

end ClassLang.Tree
