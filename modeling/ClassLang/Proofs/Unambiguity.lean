import ClassLang.Proofs.Grammar
import ClassLang.Proofs.LexerWords

/-!
# The grammar is unambiguous

Two derivations of one stream are equal. Each phrase is `Delimited`: from what follows it it can be
told where it ends, so that two phrases of a kind at the start of one stream are the same phrase.
This goes from the parts of expressions up to whole modules, for which it is `Module.unique`.
-/

set_option autoImplicit false

namespace ClassLang.Grammar

open List

/-- The tokens with which a part begins. -/
def startsPart : Token → Bool
  | .name _ => true
  | .typeName _ => true
  | .literal _ => true
  | .quoteStart _ => true
  | .leftParen => true
  | _ => false

/-- The tokens that go on with a list of parts. -/
def continuesParts (token : Token) : Bool := startsPart token || token = .dot

/-- The tokens that go on with an expression. -/
def continuesExpr : Token → Bool
  | .operator _ => true
  | token => continuesParts token

/-- The phrases of `f` can be told from what follows them, if that does not begin with a token of
`continues`. -/
def Delimited {α : Type} (f : α → List Token) (continues : Token → Bool) (a : α) : Prop :=
  ∀ a' k k', Stops continues k → Stops continues k' → f a ++ k = f a' ++ k' → a = a' ∧ k = k'

variable {α : Type} {p : Token → Bool} {t : Token} {k m : List Token} {f : α → List Token}

theorem ne_cons_of_stops (hk : Stops p k) (ht : p t = true) : k ≠ t :: m := by
  rintro rfl
  exact absurd ht (ne_true_of_eq_false hk)

theorem Delimited.next {a a' : α} (h : Delimited f p a) {t' : Token} (ht : p t = false)
    (ht' : p t' = false) {m' : List Token} (heq : f a ++ t :: m = f a' ++ t' :: m') :
    a = a' ∧ t = t' ∧ m = m' := by
  obtain ⟨ha, hrest⟩ := h a' (t :: m) (t' :: m') ht ht' heq
  exact ⟨ha, cons.inj hrest⟩

/-- A list of phrases can be told from what follows it, if each phrase can and begins with a token
that neither goes on with the phrase before nor stands behind the list. -/
theorem flatMap_delimited (starts continues : Token → Bool)
    (hstart : ∀ a, ∃ t rest, f a = t :: rest ∧ starts t = true ∧ continues t = false) {xs : List α}
    (hf : ∀ a ∈ xs, Delimited f continues a) :
    Delimited (flatMap f) (fun t => starts t || continues t) xs := by
  intro xs' k k' hk hk' h
  -- what stands behind a phrase is another phrase or the end of the list
  have behind : ∀ (ys : List α) (m : List Token), Stops (fun t => starts t || continues t) m →
      Stops continues (ys.flatMap f ++ m) := by
    intro ys m hm
    cases ys with
    | nil =>
      cases m with
      | nil => rfl
      | cons t m => simp_all [Stops]
    | cons a ys =>
      obtain ⟨t, rest, ht, -, hcontinues⟩ := hstart a
      simp [Stops, ht, hcontinues]
  -- and the end of the list is no phrase
  have ends : ∀ (a : α) (ys : List α) (m m' : List Token),
      Stops (fun t => starts t || continues t) m → ¬ m = (a :: ys).flatMap f ++ m' := by
    intro a ys m m' hm heq
    obtain ⟨t, rest, ht, hstarts, -⟩ := hstart a
    rw [flatMap_cons, ht] at heq
    exact ne_cons_of_stops hm (by simp [hstarts]) heq
  induction xs generalizing xs' with
  | nil =>
    cases xs' with
    | nil => exact ⟨rfl, h⟩
    | cons a' xs' => exact absurd h (ends a' xs' k k' hk)
  | cons a xs ih =>
    cases xs' with
    | nil => exact absurd h.symm (ends a xs k' k hk')
    | cons a' xs' =>
      rw [flatMap_cons, flatMap_cons, append_assoc, append_assoc] at h
      obtain ⟨rfl, hrest⟩ := hf a mem_cons_self a' _ _ (behind xs k hk) (behind xs' k' hk') h
      obtain ⟨rfl, rfl⟩ := ih (fun b hb => hf b (mem_cons_of_mem a hb)) xs' hrest
      exact ⟨rfl, rfl⟩

theorem stops_of_imp {q : Token → Bool} (hpq : ∀ t, p t = true → q t = true) (hk : Stops q k) :
    Stops p k := by
  cases k with
  | nil => rfl
  | cons t k =>
    have ht : q t = false := hk
    have hp : ¬ p t = true := by
      intro hp
      rw [hpq t hp] at ht
      cases ht
    simpa [Stops] using hp

theorem Delimited.mono {q : Token → Bool} {a : α} (h : Delimited f p a)
    (hpq : ∀ t, p t = true → q t = true) : Delimited f q a :=
  fun a' k k' hk hk' heq => h a' k k' (stops_of_imp hpq hk) (stops_of_imp hpq hk') heq

/-- Phrases that can be told from anything that follows them. -/
def never : Token → Bool := fun _ => false

theorem Delimited.always {a a' : α} (h : Delimited f never a) {k' : List Token}
    (heq : f a ++ k = f a' ++ k') : a = a' ∧ k = k' := by
  have hstops : ∀ k, Stops never k := fun k => by cases k <;> rfl
  exact h a' k k' (hstops k) (hstops k') heq

theorem memberTokens_delimited (names : List String) : Delimited memberTokens (· = .dot) names := by
  refine (flatMap_delimited (· = .dot) never ?_ ?_).mono ?_
  · intro name
    exact ⟨.dot, [.name name], rfl, by simp, rfl⟩
  · intro name _ name' k k' _ _ h
    simpa using h
  · intro t ht
    simpa [never] using ht

/-- Phrases that each stand behind the token `word`, up to the token `close`. -/
theorem separated_delimited (word close : Token) (hne : close ≠ word) {continues : Token → Bool}
    (hword : continues word = false) (hclose : continues close = false) {xs : List α}
    (hf : ∀ a ∈ xs, Delimited f continues a) :
    Delimited (fun xs : List α => xs.flatMap (fun a => word :: f a) ++ [close]) never xs := by
  intro xs' k k' _ _ h
  have hlist : Delimited (flatMap fun a => word :: f a) _ xs :=
    flatMap_delimited (fun t => t = word) continues
      (fun a => ⟨word, f a, rfl, by simp, hword⟩)
      (fun a ha a' m m' hm hm' heq => hf a ha a' m m' hm hm' (cons.inj heq).2)
  rw [append_assoc, append_assoc] at h
  have hstops : ∀ m, Stops (fun t => decide (t = word) || continues t) (close :: m) := by
    intro m
    simp [Stops, hne, hclose]
  obtain ⟨rfl, hk⟩ := hlist xs' (close :: k) (close :: k') (hstops k) (hstops k') h
  exact ⟨rfl, (cons.inj hk).2⟩

theorem TypeExpr.delimited (ty : TypeExpr) : Delimited TypeExpr.tokens (· = .leftBracket) ty := by
  induction ty using TypeExpr.induct with
  | named name =>
    intro ty' k k' hk hk' h
    cases ty' with
    | named name' => simpa [TypeExpr.tokens] using h
    | generic name' first' others' =>
      -- a bracket goes on with the type
      exact absurd (cons.inj h).2 (ne_cons_of_stops hk rfl)
  | generic name first others hfirst hothers =>
    intro ty' k k' hk hk' h
    cases ty' with
    | named name' => exact absurd (cons.inj h).2.symm (ne_cons_of_stops hk' rfl)
    | generic name' first' others' =>
      simp only [TypeExpr.tokens, typeArgTokens_eq, cons_append, append_assoc,
        cons.injEq, Token.typeName.injEq, true_and] at h
      obtain ⟨rfl, hargs⟩ := h
      have hstops : ∀ (tys : List TypeExpr) (m : List Token), Stops (· = .leftBracket)
          (tys.flatMap (fun ty => .comma :: ty.tokens) ++ .rightBracket :: m) := by
        intro tys m
        cases tys <;> rfl
      obtain ⟨rfl, hrest⟩ := hfirst first' _ _ (hstops others k) (hstops others' k') hargs
      obtain ⟨rfl, rfl⟩ := (separated_delimited .comma .rightBracket (by simp) rfl rfl
        hothers).always (by simpa using hrest)
      exact ⟨rfl, rfl⟩

theorem Head.exists_cons (head : Head) :
    ∃ t rest, head.tokens = t :: rest ∧ startsPart t = true := by
  cases head <;> exact ⟨_, _, rfl, rfl⟩

theorem Part.exists_cons (part : Part) :
    ∃ t rest, part.tokens = t :: rest ∧ startsPart t = true := by
  cases part with
  | mk head names =>
    obtain ⟨t, rest, ht, hstarts⟩ := head.exists_cons
    exact ⟨t, rest ++ memberTokens names, by rw [Part.tokens, ht, cons_append], hstarts⟩

/-- A list of parts can be told from what follows it if each of them can. -/
theorem parts_delimited {parts : List Part}
    (h : ∀ part ∈ parts, Delimited Part.tokens (· = .dot) part) :
    Delimited (flatMap Part.tokens) continuesParts parts := by
  refine (flatMap_delimited startsPart (· = .dot) ?_ h).mono fun t ht => ht
  intro part
  obtain ⟨t, rest, ht, hstarts⟩ := part.exists_cons
  refine ⟨t, rest, ht, hstarts, ?_⟩
  cases t <;> first | rfl | cases hstarts

theorem continuesExpr_of_parts (h : continuesParts t = true) : continuesExpr t = true := by
  cases t <;> first | rfl | exact h

theorem delimited_all : (∀ e, Delimited Expr.tokens continuesExpr e) ∧
    (∀ p, Delimited Part.tokens (· = .dot) p) ∧ (∀ h, Delimited Head.tokens never h) ∧
    ∀ q, Delimited Holes.tokens never q := by
  apply Expr.induct
  case parts =>
    intro first others hfirst hothers e' k k' hk hk' h
    have hparts := parts_delimited (forall_mem_cons.2 ⟨hfirst, hothers⟩)
    have hstop := stops_of_imp (fun _ => continuesExpr_of_parts) hk
    rw [Expr.tokens_parts] at h
    cases e' with
    | parts first' others' =>
      rw [Expr.tokens_parts] at h
      obtain ⟨hlists, rfl⟩ :=
        hparts _ k k' hstop (stops_of_imp (fun _ => continuesExpr_of_parts) hk') h
      cases hlists
      exact ⟨rfl, rfl⟩
    | operator first' others' text' right' =>
      rw [Expr.tokens_operator, append_assoc] at h
      obtain ⟨-, rfl⟩ := hparts _ k (.operator text' :: right'.tokens ++ k') hstop rfl h
      cases hk
  case operator =>
    intro first others text right hfirst hothers hright e' k k' hk hk' h
    have hparts := parts_delimited (forall_mem_cons.2 ⟨hfirst, hothers⟩)
    rw [Expr.tokens_operator, append_assoc] at h
    cases e' with
    | parts first' others' =>
      rw [Expr.tokens_parts] at h
      obtain ⟨-, rfl⟩ := hparts _ (.operator text :: right.tokens ++ k) k' rfl
        (stops_of_imp (fun _ => continuesExpr_of_parts) hk') h
      cases hk'
    | operator first' others' text' right' =>
      rw [Expr.tokens_operator, append_assoc] at h
      obtain ⟨hlists, htext, htokens⟩ := hparts.next rfl rfl h
      cases hlists
      cases htext
      obtain ⟨rfl, rfl⟩ := hright right' k k' hk hk' htokens
      exact ⟨rfl, rfl⟩
  case part =>
    intro head names hhead part' k k' hk hk' h
    cases part' with
    | mk head' names' =>
      rw [Part.tokens, Part.tokens, append_assoc, append_assoc] at h
      obtain ⟨rfl, hrest⟩ := hhead.always h
      obtain ⟨rfl, rfl⟩ := memberTokens_delimited names names' k k' hk hk' hrest
      exact ⟨rfl, rfl⟩
  case name =>
    intro text head' k k' _ _ h
    cases head' <;> simp_all [Head.tokens]
  case staticName =>
    intro className method head' k k' _ _ h
    cases head' <;> simp_all [Head.tokens]
  case literal =>
    intro value head' k k' _ _ h
    cases head' <;> simp_all [Head.tokens]
  case quote =>
    intro text holes hholes head' k k' _ _ h
    cases head' with
    | quote text' holes' =>
      rw [Head.tokens, Head.tokens, cons_append, cons_append] at h
      obtain ⟨htext, hrest⟩ := cons.inj h
      cases htext
      obtain ⟨rfl, rfl⟩ := hholes.always hrest
      exact ⟨rfl, rfl⟩
    | _ => cases h
  case paren =>
    intro inner hinner head' k k' _ _ h
    cases head' with
    | paren inner' =>
      rw [Head.tokens, Head.tokens, cons_append, cons_append, append_assoc,
        append_assoc] at h
      obtain ⟨rfl, -, rfl⟩ := hinner.next rfl rfl (cons.inj h).2
      exact ⟨rfl, rfl⟩
    | _ => cases h
  case last =>
    intro hole text hhole q' k k' _ _ h
    cases q' <;> rw [Holes.tokens, Holes.tokens, append_assoc, append_assoc] at h <;>
      obtain ⟨rfl, -, hrest⟩ := hhole.next rfl rfl h <;> cases hrest
    exact ⟨rfl, rfl⟩
  case more =>
    intro hole text others hhole hothers q' k k' _ _ h
    cases q' <;> rw [Holes.tokens, Holes.tokens, append_assoc, append_assoc] at h <;>
      obtain ⟨rfl, -, hrest⟩ := hhole.next rfl rfl h
    case last => cases hrest
    case more =>
      obtain ⟨htext, htokens⟩ := cons.inj hrest
      obtain ⟨rfl, -⟩ := Token.quotePart.inj htext
      obtain ⟨rfl, rfl⟩ := hothers.always htokens
      exact ⟨rfl, rfl⟩

theorem Expr.delimited (e : Expr) : Delimited Expr.tokens continuesExpr e := delimited_all.1 e

theorem Part.delimited (part : Part) : Delimited Part.tokens (· = .dot) part := delimited_all.2.1 part

/-- A name of a pattern as a part of an expression. -/
def BareName.part : BareName → Part
  | .bare text => .mk (.name text) []
  | .paren inner => .mk (.paren (.parts inner.part [])) []

theorem BareName.tokens_part (bare : BareName) : bare.part.tokens = bare.tokens := by
  induction bare with
  | bare text => rfl
  | paren inner ih => simp [part, tokens, Part.tokens, Head.tokens, Expr.tokens, partTokens,
      memberTokens, ih]

theorem BareName.part_injective {bare bare' : BareName} (h : bare.part = bare'.part) :
    bare = bare' := by
  induction bare generalizing bare' with
  | bare text =>
    cases bare' with
    | bare text' =>
      cases h
      rfl
    | paren inner' => cases h
  | paren inner ih =>
    cases bare' with
    | bare text' => cases h
    | paren inner' =>
      have hinner : inner.part = inner'.part := by
        simpa [part] using h
      rw [ih hinner]

theorem flatMap_bareTokens (names : List BareName) :
    names.flatMap BareName.tokens = (names.map BareName.part).flatMap Part.tokens := by
  induction names with
  | nil => rfl
  | cons name names ih => rw [flatMap_cons, map_cons, flatMap_cons, ih,
      BareName.tokens_part]

theorem BareName.exists_cons (bare : BareName) :
    ∃ t rest, bare.tokens = t :: rest ∧ startsPart t = true := by
  rw [← bare.tokens_part]
  exact bare.part.exists_cons

theorem Expr.exists_cons (e : Expr) : ∃ t rest, e.tokens = t :: rest ∧ startsPart t = true := by
  cases e with
  | parts first others =>
    obtain ⟨t, rest, ht, hstarts⟩ := first.exists_cons
    exact ⟨t, rest ++ partTokens others, by rw [Expr.tokens, ht, cons_append], hstarts⟩
  | operator first others text right =>
    obtain ⟨t, rest, ht, hstarts⟩ := first.exists_cons
    exact ⟨t, _, by rw [Expr.tokens, ht, cons_append], hstarts⟩

theorem partList_delimited (parts : List Part) :
    Delimited (flatMap Part.tokens) continuesParts parts :=
  parts_delimited fun part _ => part.delimited

theorem Pattern.delimited (pattern : Pattern) :
    Delimited Pattern.tokens continuesParts pattern := by
  intro pattern' k k' hk hk' h
  cases pattern with
  | ignore =>
    cases pattern' with
    | ignore =>
      cases h
      exact ⟨rfl, rfl⟩
    | names first' others' =>
      obtain ⟨t, rest, ht, hstarts⟩ := first'.exists_cons
      rw [Pattern.tokens, Pattern.tokens, ht] at h
      cases (cons.inj h).1
      cases hstarts
  | names first others =>
    cases pattern' with
    | ignore =>
      obtain ⟨t, rest, ht, hstarts⟩ := first.exists_cons
      rw [Pattern.tokens, Pattern.tokens, ht] at h
      cases (cons.inj h).1
      cases hstarts
    | names first' others' =>
      have hnames : (first :: others).flatMap BareName.tokens ++ k =
          (first' :: others').flatMap BareName.tokens ++ k' := h
      rw [flatMap_bareTokens, flatMap_bareTokens] at hnames
      obtain ⟨hparts, rfl⟩ := partList_delimited _ _ k k' hk hk' hnames
      cases (map_inj_right fun _ _ => BareName.part_injective).1 hparts
      exact ⟨rfl, rfl⟩

/-- A line that is no declaration is not the start of one: what follows the parts of its expression
is an operator or the end of the line. -/
theorem Expr.not_pattern (e : Expr) (pattern : Pattern)
    (hk : Stops (fun t => continuesExpr t || t = .equals) k) :
    e.tokens ++ k ≠ pattern.tokens ++ .equals :: m := by
  intro h
  cases pattern with
  | ignore =>
    obtain ⟨t, rest, ht, hstarts⟩ := e.exists_cons
    rw [Pattern.tokens, ht] at h
    cases (cons.inj h).1
    cases hstarts
  | names first others =>
    have hnames : e.tokens ++ k = (first :: others).flatMap BareName.tokens ++ .equals :: m := h
    rw [flatMap_bareTokens] at hnames
    have hparts : Stops continuesParts k := stops_of_imp (fun t ht => by
      simp [continuesExpr_of_parts ht]) hk
    cases e with
    | parts first' others' =>
      rw [Expr.tokens_parts] at hnames
      obtain ⟨-, rfl⟩ := partList_delimited _ _ k (.equals :: m) hparts rfl hnames
      cases hk
    | operator first' others' text right =>
      rw [Expr.tokens_operator, append_assoc] at hnames
      obtain ⟨-, hequals, -⟩ := (partList_delimited _).next rfl rfl hnames
      cases hequals

theorem Block.delimited (block : Block) : Delimited Block.tokens never block := by
  induction block with
  | last value =>
    intro block' k k' _ _ h
    cases block' <;> rw [Block.tokens, Block.tokens, append_assoc, append_assoc] at h
    case last value' =>
      obtain ⟨rfl, -, rfl⟩ := value.delimited.next rfl rfl h
      exact ⟨rfl, rfl⟩
    case line first' rest' =>
      obtain ⟨-, hword, -⟩ := value.delimited.next rfl rfl h
      cases hword
    case declaration pattern' value' rest' => exact absurd h (value.not_pattern pattern' rfl)
  | line first rest ih =>
    intro block' k k' _ _ h
    cases block' <;> rw [Block.tokens, Block.tokens, append_assoc, append_assoc] at h
    case last value' =>
      obtain ⟨-, hword, -⟩ := first.delimited.next rfl rfl h
      cases hword
    case line first' rest' =>
      obtain ⟨rfl, -, hrest⟩ := first.delimited.next rfl rfl h
      obtain ⟨rfl, rfl⟩ := ih.always hrest
      exact ⟨rfl, rfl⟩
    case declaration pattern' value' rest' => exact absurd h (first.not_pattern pattern' rfl)
  | declaration pattern value rest ih =>
    intro block' k k' _ _ h
    cases block' <;> rw [Block.tokens, Block.tokens, append_assoc, append_assoc] at h
    case last value' => exact absurd h.symm (value'.not_pattern pattern rfl)
    case line value' rest' => exact absurd h.symm (value'.not_pattern pattern rfl)
    case declaration pattern' value' rest' =>
      obtain ⟨rfl, -, hvalue⟩ := pattern.delimited.next rfl rfl h
      have hvalue := (append_assoc ..).symm.trans (hvalue.trans (append_assoc ..))
      obtain ⟨rfl, -, hrest⟩ := value.delimited.next rfl rfl hvalue
      obtain ⟨rfl, rfl⟩ := ih.always hrest
      exact ⟨rfl, rfl⟩

/-- The tokens that go on with an import. -/
def continuesImport : Token → Bool
  | .dot => true
  | .dotDot => true
  | .name _ => true
  | .typeName _ => true
  | _ => false

theorem Segment.token_injective {segment segment' : Segment} (h : segment.token = segment'.token) :
    segment = segment' := by
  cases segment <;> cases segment' <;> cases h <;> rfl

theorem Segment.continuesImport_token (segment : Segment) :
    continuesImport segment.token = true ∧ segment.token ≠ .dot ∧ segment.token ≠ .dotDot := by
  cases segment <;> simp [continuesImport, Segment.token]

theorem segments_delimited (segments : List Segment) :
    Delimited (flatMap fun segment : Segment => [.dot, segment.token]) continuesImport
      segments := by
  refine (flatMap_delimited (· = .dot) never ?_ ?_).mono ?_
  · intro segment
    exact ⟨.dot, [segment.token], rfl, by simp, rfl⟩
  · intro segment _ segment' k k' _ _ h
    obtain ⟨htoken, hk⟩ := cons.inj (cons.inj h).2
    exact ⟨Segment.token_injective htoken, hk⟩
  · intro t ht
    have hdot : t = .dot := by simpa [never] using ht
    rw [hdot]
    rfl

theorem pathTokens_delimited (path : List Segment) :
    Delimited pathTokens continuesImport path := by
  intro path' k k' hk hk' h
  cases path with
  | nil =>
    cases path' with
    | nil => exact ⟨rfl, h⟩
    | cons segment' others' =>
      exact absurd h (ne_cons_of_stops hk segment'.continuesImport_token.1)
  | cons segment others =>
    cases path' with
    | nil => exact absurd h.symm (ne_cons_of_stops hk' segment.continuesImport_token.1)
    | cons segment' others' =>
      obtain ⟨htoken, hothers⟩ := cons.inj h
      obtain rfl := Segment.token_injective htoken
      obtain ⟨rfl, rfl⟩ := segments_delimited others others' k k' hk hk' hothers
      exact ⟨rfl, rfl⟩

theorem dots_delimited (dots : List Dots) :
    Delimited (flatMap fun d : Dots => [d.token]) (fun t => t = .dot || t = .dotDot) dots := by
  refine (flatMap_delimited (fun t => t = .dot || t = .dotDot) never ?_ ?_).mono ?_
  · intro d
    refine ⟨d.token, [], rfl, ?_, rfl⟩
    cases d <;> rfl
  · intro d _ d' k k' _ _ h
    obtain ⟨htoken, hk⟩ := cons.inj h
    refine ⟨?_, hk⟩
    cases d <;> cases d' <;> cases htoken <;> rfl
  · intro t ht
    simpa [never] using ht

theorem Import.tokens_relative (first : Dots) (others : List Dots) (path : List Segment) :
    (Import.relative first others path).tokens =
      (first :: others).flatMap (fun d => [d.token]) ++ pathTokens path := by
  rw [Import.tokens, map_eq_flatMap]

theorem Import.delimited (i : Import) : Delimited Import.tokens continuesImport i := by
  intro i' k k' hk hk' h
  -- a path does not begin with a dot
  have hpath : ∀ (path : List Segment) (m : List Token), Stops continuesImport m →
      Stops (fun t => t = .dot || t = .dotDot) (pathTokens path ++ m) := by
    intro path m hm
    cases path with
    | nil =>
      refine stops_of_imp ?_ hm
      intro t ht
      rcases (by simpa using ht : t = .dot ∨ t = .dotDot) with rfl | rfl <;> rfl
    | cons segment others =>
      obtain ⟨-, hdot, hdots⟩ := segment.continuesImport_token
      simp [Stops, pathTokens, hdot, hdots]
  cases i with
  | relative first others path =>
    rw [Import.tokens_relative, append_assoc] at h
    cases i' with
    | relative first' others' path' =>
      rw [Import.tokens_relative, append_assoc] at h
      obtain ⟨hdots, hrest⟩ := dots_delimited _ _ _ _ (hpath path k hk) (hpath path' k' hk') h
      cases hdots
      obtain ⟨rfl, rfl⟩ := pathTokens_delimited path path' k k' hk hk' hrest
      exact ⟨rfl, rfl⟩
    | top first' others' =>
      obtain ⟨hdot, -⟩ := cons.inj h
      cases first <;> cases first' <;> cases hdot
  | top first others =>
    cases i' with
    | relative first' others' path' =>
      obtain ⟨hdot, -⟩ := cons.inj h
      cases first <;> cases first' <;> cases hdot
    | top first' others' =>
      obtain ⟨hpaths, rfl⟩ :=
        pathTokens_delimited (first :: others) (first' :: others') k k' hk hk' h
      cases hpaths
      exact ⟨rfl, rfl⟩

theorem Slot.delimited (slot : Slot) : Delimited Slot.tokens never slot := by
  intro slot' k k' _ _ h
  obtain ⟨mutable, ty, name⟩ := slot
  obtain ⟨mutable', ty', name'⟩ := slot'
  simp only [Slot.tokens, cons_append, append_assoc, nil_append] at h
  obtain ⟨hword, hrest⟩ := cons.inj h
  obtain ⟨rfl, hname, rfl⟩ := ty.delimited.next rfl rfl hrest
  cases hname
  cases mutable <;> cases mutable' <;> cases hword <;> exact ⟨rfl, rfl⟩

theorem Param.delimited (param : Param) : Delimited Param.tokens never param := by
  intro param' k k' _ _ h
  obtain ⟨ty, name⟩ := param
  obtain ⟨ty', name'⟩ := param'
  simp only [Param.tokens, append_assoc, cons_append, nil_append] at h
  obtain ⟨rfl, hname, rfl⟩ := ty.delimited.next rfl rfl h
  cases hname
  exact ⟨rfl, rfl⟩

theorem paramTokens_delimited (params : List Param) : Delimited paramTokens never params := by
  intro params' k k' _ _ h
  -- a type name is no closing parenthesis
  have hparam : ∀ (param : Param) (m m' : List Token), param.tokens ++ m ≠ .rightParen :: m' := by
    intro param m m' heq
    obtain ⟨ty, name⟩ := param
    cases ty <;> cases heq
  cases params with
  | nil =>
    cases params' with
    | nil => exact ⟨rfl, (cons.inj h).2⟩
    | cons first' others' =>
      simp only [paramTokens, append_assoc] at h
      exact absurd h.symm (hparam first' _ _)
  | cons first others =>
    cases params' with
    | nil =>
      simp only [paramTokens, append_assoc] at h
      exact absurd h (hparam first _ _)
    | cons first' others' =>
      simp only [paramTokens, append_assoc] at h
      obtain ⟨rfl, hrest⟩ := first.delimited.always h
      obtain ⟨rfl, rfl⟩ := (separated_delimited .comma .rightParen (by simp) rfl rfl
        fun param (_ : param ∈ others) => Param.delimited param).always
        (by simpa only [append_assoc] using hrest)
      exact ⟨rfl, rfl⟩

theorem MethodName.token_injective {name name' : MethodName} (h : name.token = name'.token) :
    name = name' := by
  cases name <;> cases name' <;> cases h <;> rfl

theorem Method.delimited (method : Method) : Delimited Method.tokens never method := by
  intro method' k k' _ _ h
  obtain ⟨isStatic, returnType, name, params, body⟩ := method
  obtain ⟨isStatic', returnType', name', params', body'⟩ := method'
  simp only [Method.tokens, Method.headTokens, cons_append, append_assoc] at h
  obtain ⟨hword, hrest⟩ := cons.inj h
  have hbracket : ∀ (name : MethodName) (m : List Token),
      Stops (· = .leftBracket) (name.token :: m) := by
    intro name m
    cases name <;> rfl
  obtain ⟨rfl, hname⟩ :=
    returnType.delimited returnType' _ _ (hbracket name _) (hbracket name' _) hrest
  obtain ⟨htoken, hparams⟩ := cons.inj hname
  obtain rfl := MethodName.token_injective htoken
  obtain ⟨rfl, hbody⟩ := (paramTokens_delimited params).always (cons.inj hparams).2
  obtain ⟨rfl, rfl⟩ := body.delimited.always (cons.inj hbody).2
  cases isStatic <;> cases isStatic' <;> cases hword <;> exact ⟨rfl, rfl⟩

theorem blockTokens_delimited {word : Token} {continues : Token → Bool}
    (hnewline : continues .newline = false) (hdedent : continues .dedent = false)
    (hf : ∀ a, Delimited f continues a) (xs : List α) :
    Delimited (blockTokens word f) (· = word) xs := by
  intro xs' k k' hk hk' h
  have behind : ∀ (ys : List α) (m : List Token),
      Stops continues (ys.flatMap (fun x => .newline :: f x) ++ ([.dedent] ++ m)) := by
    intro ys m
    cases ys <;> simp [Stops, hnewline, hdedent]
  cases xs with
  | nil =>
    cases xs' with
    | nil => exact ⟨rfl, h⟩
    | cons first' others' => exact absurd h (ne_cons_of_stops hk (decide_eq_true rfl))
  | cons first others =>
    cases xs' with
    | nil => exact absurd h.symm (ne_cons_of_stops hk' (decide_eq_true rfl))
    | cons first' others' =>
      simp only [blockTokens, cons_append, append_assoc] at h
      obtain ⟨rfl, hrest⟩ := hf first first' _ _ (behind others k) (behind others' k')
        (cons.inj (cons.inj h).2).2
      obtain ⟨rfl, rfl⟩ := (separated_delimited .newline .dedent (by simp) hnewline hdedent
        fun a _ => hf a).always (by simpa only [append_assoc] using hrest)
      exact ⟨rfl, rfl⟩

/-- No stream has two derivations. -/
theorem Module.unique {module module' : Module} (h : module.tokens = module'.tokens) :
    module = module' := by
  obtain ⟨imports, slots, methods⟩ := module
  obtain ⟨imports', slots', methods'⟩ := module'
  simp only [Module.tokens, Module.bodyTokens, append_assoc] at h
  have hmethod : ∀ method : Method, ∃ t rest, method.tokens = t :: rest ∧
      (t = .funWord || t = .defWord) = true ∧ never t = false := by
    intro method
    refine ⟨_, _, rfl, ?_, rfl⟩
    cases method.isStatic <;> rfl
  -- the methods begin with neither of the words that open the blocks before them
  have hfirst : ∀ (word : Token) (methods : List Method), word ≠ .funWord → word ≠ .defWord →
      word ≠ .eof → Stops (· = word) (methods.flatMap Method.tokens ++ [.eof]) := by
    intro word methods hfun hdef heof
    cases methods with
    | nil => simp [Stops, Ne.symm heof]
    | cons method methods =>
      obtain ⟨t, rest, ht, hword, -⟩ := hmethod method
      rcases (by simpa using hword : t = .funWord ∨ t = .defWord) with rfl | rfl
      · simp [Stops, ht, Ne.symm hfun]
      · simp [Stops, ht, Ne.symm hdef]
  have hslots : ∀ (slots : List Slot) (methods : List Method), Stops (· = .importWord)
      (blockTokens .slotsWord Slot.tokens slots ++ (methods.flatMap Method.tokens ++ [.eof])) := by
    intro slots methods
    cases slots with
    | nil => exact hfirst .importWord methods (by simp) (by simp) (by simp)
    | cons slot slots => rfl
  obtain ⟨rfl, hrest⟩ := blockTokens_delimited rfl rfl Import.delimited imports imports' _ _
    (hslots slots methods) (hslots slots' methods') h
  obtain ⟨rfl, hmethods⟩ := blockTokens_delimited rfl rfl Slot.delimited slots slots' _ _
    (hfirst .slotsWord methods (by simp) (by simp) (by simp))
    (hfirst .slotsWord methods' (by simp) (by simp) (by simp)) hrest
  obtain ⟨rfl, -⟩ := flatMap_delimited (fun t => t = .funWord || t = .defWord) never hmethod
    (fun method _ => method.delimited) methods' [.eof] [.eof] rfl rfl hmethods
  rfl

end ClassLang.Grammar
