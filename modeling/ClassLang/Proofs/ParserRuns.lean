import ClassLang.Proofs.Grammar
import ClassLang.Proofs.LexerFaults
import ClassLang.Proofs.Steps

/-!
# Runs of the parser

The parser takes its tokens from any supply. A `Mirror` is one that gives what the lexer gives, up to
the end of the text; nothing is said of what it gives behind `eof`. `Mirror.Runs` relates a run on such
a supply to the one on the lexer: both give the same, and they lead to places where the supply and the
lexer have given the same tokens (`Mirror.Stands`); or both fail in the same way, with a fault that a
reader of the text meets as well, or with one of the grammar at a place of the text, and never because
a loop has no turns left. Each turn of a loop takes a token or leads to one that does, so twice the
tokens that are left are turns enough, and more turns change nothing.

Here are the runs of single tokens, of the lines of a block, and of imports and types; those of
expressions, methods and whole modules are in `ParsedPlaces`.
-/

set_option autoImplicit false

namespace ClassLang

open Grammar

/-- The faults that the parser finds by itself. -/
def Fault.isSyntactic : Fault → Bool
  | .unexpected _ => true
  | .expected _ _ => true
  | .emptyExpression => true
  | .precedingEquals => true
  | .blockEndsInDeclaration => true
  | .unaryOperator _ => true
  | .boundReached => true
  | _ => false

variable {fault : Fault} {extra bound : Nat}

theorem Fault.not_isLexical_of_isSyntactic (h : fault.isSyntactic = true) :
    ¬ fault.isLexical = true := by
  cases fault <;> first | exact Bool.false_ne_true | cases h

/-- The faults of the parser that are not for want of turns. -/
def Fault.isOfGrammar : Fault → Bool
  | .boundReached => false
  | fault => fault.isSyntactic

theorem Fault.isSyntactic_of_isOfGrammar (h : fault.isOfGrammar = true) :
    fault.isSyntactic = true ∧ fault ≠ .boundReached := by
  cases fault <;> first | exact ⟨h, Fault.noConfusion⟩ | cases h

namespace Tree

/-! ## Tokens that are left -/

namespace Parser

/-- How many tokens before `eof` can still be taken. -/
def left (p : Parser) : Nat :=
  p.lexer.measure + if p.peeked.any (·.token ≠ .eof) then 1 else 0

theorem left_le_measure (p : Parser) : p.left ≤ p.measure := by
  obtain ⟨l, peeked⟩ := p
  cases peeked with
  | none => exact Nat.le_refl _
  | some lexed =>
    simp only [left, measure, Supply.measure_lexer, Option.isSome_some, if_true]
    split <;> omega

/-- A loop has turns enough. -/
theorem left_lt_bound (p : Parser) : 2 * p.left + 2 ≤ p.bound := by
  have h := p.left_le_measure
  unfold bound
  omega

end Parser

theorem Parse.ancestors_ne_zero (d : Dots) (dots : List Dots) {n : Nat}
    (h : n = ancestors (d :: dots)) : n ≠ 0 := by
  rw [h, ancestors]
  cases d <;> simp [Dots.count]

/-! ## Supplies that mirror the lexer -/

/-- A supply that gives what the lexer gives in a text, from a reader on. `twin ts s l` says that the
supply at `s` and the lexer at `l` have both given `ts`. -/
structure Mirror (σ : Type) [Supply σ] where
  start : Reader
  text : List Char
  twin : List Lexed → σ → Lexer → Prop
  inText : start.lexer.In text
  pos {ts : List Lexed} {s : σ} {l : Lexer} : twin ts s l → Supply.pos s = l.pos
  measure {ts : List Lexed} {s : σ} {l : Lexer} : twin ts s l → l.measure ≤ Supply.measure s
  word {ts : List Lexed} {s : σ} {l : Lexer} {holes : Nat} : start.Reads ts ⟨l, .word holes⟩ →
    twin ts s l → (Supply.nextToken s).1 = l.nextToken.1 ∧
      ∀ lexed, l.nextToken.1 = .ok lexed →
        twin (ts ++ [lexed]) (Supply.nextToken s).2 l.nextToken.2
  quote {ts : List Lexed} {s : σ} {l : Lexer} {holes : Nat} : start.Reads ts ⟨l, .text holes⟩ →
    twin ts s l → (Supply.nextQuotePart s).1 = l.nextQuotePart.1 ∧
      ∀ part, l.nextQuotePart.1 = .ok part →
        twin (ts ++ [⟨.quotePart part.text part.isEnd, ⟨l.pos, l.nextQuotePart.2.pos⟩⟩])
          (Supply.nextQuotePart s).2 l.nextQuotePart.2

namespace Mirror

variable {σ : Type} [Supply σ] (m : Mirror σ) {α β : Type} {s s' : Parser σ} {p p' : Parser}
  {mode : Mode} {l l' : Lexer} {tokens : List Token} {holes i j k : Nat}

/-- The two parsers stand at `l`, where `mode` is read next. A token that was looked at has been
given already. -/
inductive Stands : Mode → Lexer → Parser σ → Parser → Prop where
  | taken {mode : Mode} {ts : List Lexed} {s : σ} {l : Lexer} (reads : m.start.Reads ts ⟨l, mode⟩)
      (same : m.twin ts s l) : Stands mode l ⟨s, none⟩ ⟨l, none⟩
  | peeked {holes : Nat} {ts : List Lexed} {s : σ} {l l' : Lexer} {lexed : Lexed}
      (reads : m.start.Reads ts ⟨l, .word holes⟩) (next : l.nextToken = (.ok lexed, l'))
      (same : m.twin (ts ++ [lexed]) s l') :
      Stands (.word holes) l ⟨s, some lexed⟩ ⟨l', some lexed⟩

/-- The parsers have gone on from `l` to `l'` and have taken `k` tokens or more. -/
structure Gone (k : Nat) (mode : Mode) (l l' : Lexer) (p : Parser) (s' : Parser σ) (p' : Parser) :
    Prop where
  stands : m.Stands mode l' s' p'
  left : p'.left + k ≤ p.left
  le : l.pos ≤ l'.pos

/-- The parsers have gone on, and these are the tokens that they have taken. -/
structure Passed (k : Nat) (tokens : List Token) (holes : Nat) (l l' : Lexer) (p : Parser)
    (s' : Parser σ) (p' : Parser) : Prop extends m.Gone k (.word holes) l l' p s' p' where
  passes : l.Passes tokens l'

/-- The parsers have taken a token that the lexer gave at `l`. -/
structure Took (holes : Nat) (l : Lexer) (p : Parser) (lexed : Lexed) (s' : Parser σ)
    (p' : Parser) : Prop where
  given : ∃ ts, m.start.Reads ts ⟨l, .word holes⟩ ∧ m.twin (ts ++ [lexed]) s'.lexer p'.lexer
  next : l.nextToken = (.ok lexed, p'.lexer)
  free : s'.peeked = none ∧ p'.peeked = none
  left : lexed.token ≠ .eof → p'.left + 1 ≤ p.left
  seen : ∀ seen ∈ p.peeked, lexed = seen

/-- The parsers have looked at a token. -/
structure Saw (holes : Nat) (l : Lexer) (p : Parser) (token : Token) (s' : Parser σ)
    (p' : Parser) : Prop extends m.Passed 0 [] holes l l p s' p' where
  seen : ∃ span, p'.peeked = some ⟨token, span⟩

/-- The parsers have taken a name, which is written as it is. -/
structure Named (holes : Nat) (l : Lexer) (p : Parser) (named : String × Span) (s' : Parser σ)
    (p' : Parser) : Prop extends m.Passed 1 [.name named.1] holes l p'.lexer p s' p' where
  row : Row l.pos p'.lexer.pos [named.2]
  spelled : TextAt m.text named.2 named.1.toList

/-- All tokens are taken, and `eof` behind them. -/
def Finished (s' : Parser σ) (p' : Parser) : Prop :=
  ∃ ts r eof, m.start.Reads ts r ∧ r.Ends ∧ eof.token = .eof ∧
    m.twin (ts ++ [eof]) s'.lexer p'.lexer ∧ p'.pos = byteLength m.text

/-- A fault of the grammar at a place of the text, or one that a reader meets. -/
def Refuses (e : CompileError) : Prop :=
  (e.fault.isOfGrammar = true ∧ e.span.Inside (byteLength m.text)) ∨
    ∃ ts r, m.start.Reads ts r ∧ r.Fails e

/-- The step on the supply and the one on the lexer give the same, as `post` says, or fail in the same
way. -/
def Runs (s : Parser σ) (p : Parser) (x : ParseFrom σ α) (y : Parse α)
    (post : α → Parser σ → Parser → Prop) : Prop :=
  (∃ a s' p', x s = .ok (a, s') ∧ y p = .ok (a, p') ∧ post a s' p') ∨
    ∃ e, x s = .error e ∧ y p = .error e ∧ m.Refuses e

variable {m}

theorem Stands.pos_eq (h : m.Stands mode l s p) : s.pos = p.pos := by
  cases h with
  | taken _ same => exact m.pos same
  | peeked _ _ same => exact m.pos same

theorem Stands.boundary (h : m.Stands mode l s p) : Boundary m.text p.pos := by
  cases h with
  | taken reads _ => exact (reads.in m.inText).boundary
  | peeked reads next _ =>
    have hl := reads.in m.inText
    exact (((Lexer.nextToken_eq_ok_iff hl.clean).1 next).in hl).1.boundary

theorem Stands.le (h : m.Stands mode l s p) : l.pos ≤ p.pos := by
  cases h with
  | taken => exact Nat.le_refl _
  | peeked reads next _ =>
    obtain ⟨hstart, hle, hstop⟩ :=
      ((Lexer.nextToken_eq_ok_iff (reads.in m.inText).clean).1 next).place
    exact hstart.trans (hle.trans hstop)

theorem Stands.exists_bound (h : m.Stands mode l s p) : ∃ extra, s.bound = extra + p.bound := by
  have hle : p.bound ≤ s.bound := by
    unfold Parser.bound Parser.measure
    cases h with
    | taken _ same =>
      have hmeasure := m.measure same
      simp only [Supply.measure_lexer]
      omega
    | peeked _ _ same =>
      have hmeasure := m.measure same
      simp only [Supply.measure_lexer]
      omega
  exact ⟨_, (Nat.sub_add_cancel hle).symm⟩

theorem Gone.trans {mode' : Mode} {l'' : Lexer} {s'' : Parser σ} {p'' : Parser}
    (h : m.Gone j mode l l' p s' p') (h' : m.Gone k mode' l' l'' p' s'' p'')
    (hle : i ≤ j + k := by omega) : m.Gone i mode' l l'' p s'' p'' := by
  have hleft := h.left
  have hleft' := h'.left
  exact ⟨h'.stands, by omega, h.le.trans h'.le⟩

theorem Passed.trans {others : List Token} {l'' : Lexer} {s'' : Parser σ} {p'' : Parser}
    (h : m.Passed j tokens holes l l' p s' p') (h' : m.Passed k others holes l' l'' p' s'' p'')
    (hle : i ≤ j + k := by omega) : m.Passed i (tokens ++ others) holes l l'' p s'' p'' :=
  ⟨h.toGone.trans h'.toGone, h.passes.append h'.passes⟩

namespace Took

variable {lexed : Lexed} (h : m.Took holes l p lexed s' p')

include h

theorem hands : l.Hands lexed.token p'.lexer :=
  ⟨lexed.span, h.next⟩

theorem gives : l.In m.text ∧ l.Gives lexed p'.lexer := by
  obtain ⟨ts, reads, -⟩ := h.given
  have hl := reads.in m.inText
  exact ⟨hl, (Lexer.nextToken_eq_ok_iff hl.clean).1 h.next⟩

theorem row : Row l.pos p'.lexer.pos [lexed.span] := by
  obtain ⟨hstart, hle, hstop⟩ := h.gives.2.place
  exact ⟨hstart, hle, hstop⟩

theorem piece : lexed.span.Piece m.text := by
  obtain ⟨hl, gives⟩ := h.gives
  by_cases heof : lexed.token = .eof
  · obtain ⟨pos, hl', rfl⟩ := gives.eq_of_eof heof
    have hend := (gives.in hl).1.boundary
    rw [hl'] at hend
    exact ⟨hend, hend, Nat.le_refl _⟩
  · obtain ⟨word, hword, -⟩ := (gives.in hl).2 heof
    exact hword.piece

omit h in
/-- A name is written as it is. -/
theorem spelled {name : String} {span : Span} (h : m.Took holes l p ⟨.name name, span⟩ s' p') :
    TextAt m.text span name.toList := by
  obtain ⟨hl, gives⟩ := h.gives
  obtain ⟨word, hword, rfl⟩ := (gives.in hl).2 Token.noConfusion
  exact hword

theorem gone (hne : lexed.token ≠ .eof) :
    m.Gone 1 (.behind lexed.token holes) l p'.lexer p s' p' := by
  refine ⟨?_, h.left hne, h.row.le⟩
  obtain ⟨ts, reads, same⟩ := h.given
  have next := h.next
  obtain ⟨s', _⟩ := s'
  obtain ⟨l', _⟩ := p'
  obtain ⟨rfl, rfl⟩ := h.free
  exact .taken (reads.append (.cons (.word next hne) .nil)) same

/-- A token that neither opens nor closes a hole. -/
theorem passed (plain : lexed.token.isPlain = true) :
    m.Passed 1 [lexed.token] holes l p'.lexer p s' p' := by
  have hne : lexed.token ≠ .eof := by
    rintro heof
    rw [heof] at plain
    cases plain
  have hgone := h.gone hne
  rw [Mode.behind_plain plain] at hgone
  exact ⟨hgone, h.hands.passes plain⟩

theorem finished (heof : lexed.token = .eof) : m.Finished s' p' := by
  obtain ⟨hl, gives⟩ := h.gives
  obtain ⟨ts, reads, same⟩ := h.given
  refine ⟨ts, _, lexed, reads, ⟨holes, lexed, _, rfl, h.next, heof⟩, heof, same, ?_⟩
  obtain ⟨before, htext, hpos⟩ := (gives.in hl).1.read
  obtain ⟨pos, hl', -⟩ := gives.eq_of_eof heof
  rw [hl', List.append_nil] at htext
  rw [htext]
  exact hpos.symm

end Took

/-! ## Runs -/

namespace Runs

variable {post : α → Parser σ → Parser → Prop} {x x' : ParseFrom σ α} {y y' : Parse α}

theorem imp {post' : α → Parser σ → Parser → Prop} (h : m.Runs s p x y post)
    (himp : ∀ a s' p', post a s' p' → post' a s' p') : m.Runs s p x y post' := by
  rcases h with ⟨a, s', p', hx, hy, hpost⟩ | hfault
  · exact .inl ⟨a, s', p', hx, hy, himp a s' p' hpost⟩
  · exact .inr hfault

theorem pure {a : α} (h : post a s p) : m.Runs s p (Pure.pure a) (Pure.pure a) post :=
  .inl ⟨a, s, p, rfl, rfl, h⟩

theorem bind {mid : β → Parser σ → Parser → Prop} {x : ParseFrom σ β} {y : Parse β}
    {f : β → ParseFrom σ α} {g : β → Parse α} (first : m.Runs s p x y mid)
    (rest : ∀ b s' p', mid b s' p' → m.Runs s' p' (f b) (g b) post) :
    m.Runs s p (x >>= f) (y >>= g) post := by
  rcases first with ⟨b, s', p', hx, hy, hmid⟩ | ⟨e, hx, hy, hfault⟩
  · unfold Runs
    rw [Parse.bind_of_ok hx, Parse.bind_of_ok hy]
    exact rest b s' p' hmid
  · exact .inr ⟨e, Parse.bind_of_error hx, Parse.bind_of_error hy, hfault⟩

theorem ite {c : Prop} [Decidable c] (hpos : c → m.Runs s p x y post)
    (hneg : ¬ c → m.Runs s p x' y' post) :
    m.Runs s p (if c then x else x') (if c then y else y') post := by
  by_cases hc : c
  · rw [if_pos hc, if_pos hc]
    exact hpos hc
  · rw [if_neg hc, if_neg hc]
    exact hneg hc

theorem fail {span : Span} (hspan : span.Piece m.text) (hfault : fault.isOfGrammar = true) :
    m.Runs s p (Parse.fail span fault) (Parse.fail span fault) post :=
  .inr ⟨⟨span, fault⟩, rfl, rfl, .inl ⟨hfault, hspan.inside⟩⟩

theorem pos (heq : s.pos = p.pos) :
    m.Runs s p Parse.pos Parse.pos fun k s' p' => k = p.pos ∧ s' = s ∧ p' = p :=
  .inl ⟨p.pos, s, p, by rw [← heq]; rfl, rfl, rfl, rfl, rfl⟩

/-- A step that needs no tokens. -/
theorem lift {result : Except CompileError α} (hok : ∀ a, result = .ok a → post a s p)
    (herror : ∀ e, result = .error e →
      e.fault.isOfGrammar = true ∧ e.span.Inside (byteLength m.text)) :
    m.Runs s p (liftM result) (liftM result) post := by
  cases result with
  | ok a => exact .inl ⟨a, s, p, rfl, rfl, hok a rfl⟩
  | error e => exact .inr ⟨e, rfl, rfl, .inl (herror e rfl)⟩

/-- The bound on the supply may be larger than that on the lexer. -/
theorem withBound {loop : Nat → ParseFrom σ α} {loop' : Nat → Parse α} (h : m.Stands mode l s p)
    (hloop : ∀ extra, m.Runs s p (loop (extra + p.bound)) (loop' p.bound) post) :
    m.Runs s p (Parse.withBound loop) (Parse.withBound loop') post := by
  obtain ⟨extra, hextra⟩ := h.exists_bound
  have hrun := hloop extra
  rw [← hextra] at hrun
  exact hrun

end Runs

theorem Took.fail {lexed : Lexed} {post : α → Parser σ → Parser → Prop}
    (h : m.Took holes l p lexed s' p') (hfault : fault.isOfGrammar = true) :
    m.Runs s' p' (Parse.fail lexed.span fault) (Parse.fail lexed.span fault) post :=
  .fail h.piece hfault

/-! ## Single tokens -/

/-- What the supply and the lexer give next. -/
theorem nextToken_cases {ts : List Lexed} {s : σ} {l : Lexer}
    (reads : m.start.Reads ts ⟨l, .word holes⟩) (same : m.twin ts s l) :
    (∃ lexed s' l', Supply.nextToken s = (.ok lexed, s') ∧ l.nextToken = (.ok lexed, l') ∧
      m.twin (ts ++ [lexed]) s' l') ∨
    ∃ e s' l', Supply.nextToken s = (.error e, s') ∧ l.nextToken = (.error e, l') ∧
      m.Refuses e := by
  obtain ⟨hfirst, htwin⟩ := m.word reads same
  rcases hs : Supply.nextToken s with ⟨result, s'⟩
  rcases hl : l.nextToken with ⟨e | lexed, l'⟩
  · rw [hs, hl] at hfirst
    obtain rfl : result = .error e := hfirst
    exact .inr ⟨e, s', l', rfl, rfl, .inr ⟨ts, _, reads, congrArg Prod.fst hl⟩⟩
  · rw [hs, hl] at hfirst htwin
    obtain rfl : result = .ok lexed := hfirst
    exact .inl ⟨lexed, s', l', rfl, rfl, htwin lexed rfl⟩

theorem next_runs (h : m.Stands (.word holes) l s p) :
    m.Runs s p Parse.next Parse.next (m.Took holes l p) := by
  cases h with
  | @taken _ ts s _ reads same =>
    rcases nextToken_cases reads same with ⟨lexed, s', l', hs, hl, htwin⟩ | ⟨e, s', l', hs, hl, hfault⟩
    · refine .inl ⟨lexed, ⟨s', none⟩, ⟨l', none⟩, ?_, ?_, ⟨ts, reads, htwin⟩, hl, ⟨rfl, rfl⟩, ?_,
        fun _ h => nomatch h⟩
      · simp only [Parse.next, hs]
      · simp only [Parse.next, Supply.nextToken_lexer, hl]
      · exact ((Lexer.nextToken_eq_ok_iff (reads.in m.inText).clean).1 hl).measure_lt
    · refine .inr ⟨e, ?_, ?_, hfault⟩
      · simp only [Parse.next, hs]
      · simp only [Parse.next, Supply.nextToken_lexer, hl]
  | @peeked _ ts s _ l' lexed reads next same =>
    refine .inl ⟨lexed, ⟨s, none⟩, ⟨l', none⟩, rfl, rfl, ⟨ts, reads, same⟩, next, ⟨rfl, rfl⟩,
      fun hne => ?_, fun _ h => (Option.some.inj h)⟩
    simp [Parser.left, hne]

theorem peek_runs (h : m.Stands (.word holes) l s p) :
    m.Runs s p Parse.peek Parse.peek (m.Saw holes l p) := by
  cases h with
  | @taken _ ts s _ reads same =>
    rcases nextToken_cases reads same with ⟨lexed, s', l', hs, hl, htwin⟩ | ⟨e, s', l', hs, hl, hfault⟩
    · refine .inl ⟨lexed.token, ⟨s', some lexed⟩, ⟨l', some lexed⟩, ?_, ?_,
        ⟨⟨.peeked reads hl htwin, ?_, Nat.le_refl _⟩, .nil⟩, lexed.span, rfl⟩
      · simp only [Parse.peek, hs]
      · simp only [Parse.peek, Supply.nextToken_lexer, hl]
      · -- a token that is looked at counts as one that can be taken, unless it is the last
        have gives := (Lexer.nextToken_eq_ok_iff (reads.in m.inText).clean).1 hl
        by_cases hne : lexed.token = .eof
        · simpa [Parser.left, hne] using gives.measure_le
        · have hle : l'.measure + 1 ≤ l.measure := gives.measure_lt hne
          simpa [Parser.left, hne] using hle
    · refine .inr ⟨e, ?_, ?_, hfault⟩
      · simp only [Parse.peek, hs]
      · simp only [Parse.peek, Supply.nextToken_lexer, hl]
  | @peeked _ ts s _ l' lexed reads next same =>
    exact .inl ⟨_, _, _, rfl, rfl, ⟨⟨.peeked reads next same, Nat.le_refl _, Nat.le_refl _⟩, .nil⟩,
      lexed.span, rfl⟩

variable {token : Token}

/-- The token that is taken is the one that was looked at. -/
theorem Saw.next_runs (h : m.Saw holes l p token s' p') :
    m.Runs s' p' Parse.next Parse.next fun lexed s'' p'' =>
      m.Took holes l p' lexed s'' p'' ∧ lexed.token = token := by
  obtain ⟨span, hseen⟩ := h.seen
  refine (Mirror.next_runs h.stands).imp fun lexed s'' p'' took => ⟨took, ?_⟩
  rw [took.seen _ hseen]

theorem Saw.next (h : m.Saw holes l p token s' p') :
    ∃ lexed, l.nextToken = (.ok lexed, p'.lexer) := by
  obtain ⟨span, hseen⟩ := h.seen
  have hstands := h.stands
  cases hstands with
  | taken => cases hseen
  | peeked _ next _ => exact ⟨_, next⟩

theorem quotePart_runs (h : m.Stands (.text holes) l s p) :
    m.Runs s p Parse.quotePart Parse.quotePart fun part s' p' =>
      m.Gone 0 (.word (if part.isEnd then holes else holes + 1)) l p'.lexer p s' p' ∧
        l.nextQuotePart = (.ok part, p'.lexer) := by
  cases h with
  | @taken _ ts s _ reads same =>
    obtain ⟨hfirst, htwin⟩ := m.quote reads same
    rcases hs : Supply.nextQuotePart s with ⟨result, s'⟩
    rcases hl : l.nextQuotePart with ⟨e | part, l'⟩
    · rw [hs, hl] at hfirst
      obtain rfl : result = .error e := hfirst
      refine .inr ⟨e, ?_, ?_, .inr ⟨ts, _, reads, congrArg Prod.fst hl⟩⟩
      · simp only [Parse.quotePart, hs]
      · simp only [Parse.quotePart, Supply.nextQuotePart_lexer, hl]
    rw [hs, hl] at hfirst htwin
    obtain rfl : result = .ok part := hfirst
    have hin := reads.in m.inText
    have hmeasure := (Lexer.clean_of_nextQuotePart hin.clean hl).2.le
    refine .inl ⟨part, ⟨s', none⟩, ⟨l', none⟩, ?_, ?_, ⟨.taken
      (reads.append (.cons (.text hl) .nil)) (htwin part rfl), hmeasure, (hin.quotePart hl).2⟩, rfl⟩
    · simp only [Parse.quotePart, hs]
    · simp only [Parse.quotePart, Supply.nextQuotePart_lexer, hl]

theorem tryTake_runs (h : m.Stands (.word holes) l s p) (plain : token.isPlain = true) :
    m.Runs s p (Parse.tryTake token) (Parse.tryTake token) fun taken s' p' =>
      ∃ l', m.Passed 0 (if taken then [token] else []) holes l l' p s' p' ∧
        (taken = false → ∃ lexed, l'.nextToken = (.ok lexed, p'.lexer)) := by
  refine .bind (peek_runs h) fun found s' p' saw => .ite (fun hfound => ?_) fun _ => ?_
  · refine .bind saw.next_runs fun lexed s'' p'' ⟨took, htoken⟩ => .pure ⟨p''.lexer, ?_, nofun⟩
    have passed := took.passed (by rw [htoken, hfound, plain])
    rw [htoken, hfound] at passed
    exact saw.toPassed.trans passed
  · exact .pure ⟨l, saw.toPassed, fun _ => saw.next⟩

theorem expect_runs (h : m.Stands (.word holes) l s p) (plain : token.isPlain = true)
    (wanted : Wanted) :
    m.Runs s p (Parse.expect token wanted) (Parse.expect token wanted) fun _ s' p' =>
      m.Passed 1 [token] holes l p'.lexer p s' p' := by
  refine .bind (next_runs h) fun lexed s' p' took => .ite (fun htoken => ?_) fun _ => ?_
  · subst htoken
    exact .pure (took.passed plain)
  · exact took.fail rfl

theorem name_runs (h : m.Stands (.word holes) l s p) :
    m.Runs s p Parse.name Parse.name (m.Named holes l p) := by
  apply Runs.bind (next_runs h)
  rintro ⟨token, span⟩ s' p' took
  cases token with
  | name text => exact .pure ⟨took.passed rfl, took.row, took.spelled⟩
  | _ => exact took.fail rfl

/-! ## Imports and types -/

theorem dotsFrom_runs {ancestors : Nat} {span : Option Span} (h : m.Stands (.word holes) l s p)
    (hbound : p.left < bound) (hspan : ∀ place ∈ span, place.Piece m.text) :
    m.Runs s p (Parse.dotsFrom (extra + bound) ancestors span) (Parse.dotsFrom bound ancestors span)
      fun dots s' p' => ∃ (ds : List Dots) (l' : Lexer),
        m.Passed 0 (ds.map Dots.token) holes l l' p s' p' ∧
        dots.1 = ancestors + Grammar.ancestors ds ∧ ∀ place ∈ dots.2, place.Piece m.text := by
  induction bound generalizing ancestors span s p l with
  | zero => cases hbound
  | succ bound ih =>
    rw [← Nat.add_assoc, Parse.dotsFrom, Parse.dotsFrom]
    apply Runs.bind (peek_runs h)
    intro token s' p' saw
    cases token
    -- a dot that was looked at is taken, and the dots behind it follow
    case dot | dotDot =>
      apply Runs.bind saw.next_runs
      rintro lexed s'' p'' ⟨took, htoken⟩
      have passed := took.passed (by rw [htoken]; rfl)
      rw [htoken] at passed
      have passed' := saw.toPassed.trans (i := 1) passed
      have hleft := passed'.left
      refine (ih passed'.stands (by omega) ?_).imp ?_
      · rintro place ⟨⟩
        cases span with
        | none => exact took.piece
        | some before => exact (hspan before rfl).cover took.piece
      · rintro dots _ _ ⟨ds, l', passed'', hcount, hplaces⟩
        rw [Nat.add_assoc] at hcount
        first
        | exact ⟨.one :: ds, l', passed'.trans passed'', hcount, hplaces⟩
        | exact ⟨.two :: ds, l', passed'.trans passed'', hcount, hplaces⟩
    all_goals exact .pure ⟨[], l, saw.toPassed, rfl, hspan⟩

theorem segmentsFrom_runs {span : Option Span} (h : m.Stands (.word holes) l s p)
    (hbound : p.left < bound) (hspan : ∀ place ∈ span, place.Piece m.text) :
    m.Runs s p (Parse.segmentsFrom (extra + bound) span) (Parse.segmentsFrom bound span)
      fun segments s' p' => ∃ (first : Segment) (others : List Segment) (l' : Lexer),
        m.Passed 0 (pathTokens (first :: others)) holes l l' p s' p' ∧
        (first :: others).map Segment.text = segments.1 ∧ segments.2.Piece m.text := by
  induction bound generalizing span s p l with
  | zero => cases hbound
  | succ bound ih =>
    rw [← Nat.add_assoc, Parse.segmentsFrom, Parse.segmentsFrom]
    apply Runs.bind (next_runs h)
    rintro ⟨token, place⟩ s' p' took
    have covered : (span.elim place (·.cover place)).Piece m.text := by
      cases span with
      | none => exact took.piece
      | some before => exact (hspan before rfl).cover took.piece
    cases token
    case name text | typeName text =>
      obtain ⟨segment, rfl, named⟩ : ∃ segment : Segment, segment.text = text ∧
          m.Passed 1 [segment.token] holes l p'.lexer p s' p' := by
        first
        | exact ⟨.lower text, rfl, took.passed rfl⟩
        | exact ⟨.upper text, rfl, took.passed rfl⟩
      apply Runs.bind (tryTake_runs named.stands rfl)
      rintro taken s'' p'' ⟨l₂, tried, -⟩
      have passed := named.trans (i := 1) tried
      have hleft := passed.left
      apply Runs.ite
      · intro htaken
        rw [if_pos htaken] at passed
        apply Runs.bind (ih passed.stands (by omega) (by rintro _ ⟨⟩; exact covered))
        rintro segments _ _ ⟨second, others, l', passed', htexts, hplace⟩
        exact .pure ⟨segment, second :: others, l', passed.trans passed',
          congrArg (List.cons _) htexts, hplace⟩
      · intro htaken
        rw [if_neg htaken] at passed
        exact .pure ⟨segment, [], l₂, ⟨⟨passed.stands, by omega, passed.le⟩, passed.passes⟩, rfl,
          covered⟩
    all_goals exact took.fail rfl

/-- The parsers have read a line of an indented list. -/
def LineRead (f : β → List Token) (tree : β → α) (erase : α → α) (good : α → Prop) (holes : Nat)
    (l : Lexer) (p : Parser) (item : α) (s' : Parser σ) (p' : Parser) : Prop :=
  ∃ d l', m.Passed 0 (f d) holes l l' p s' p' ∧ tree d = erase item ∧ good item

theorem importLine_runs (h : m.Stands (.word holes) l s p) :
    m.Runs s p Parse.importLine Parse.importLine
      (m.LineRead Import.tokens Import.tree Import.erase
        (·.span.Inside (byteLength m.text)) holes l p) := by
  have hbound := p.left_lt_bound
  have none : ∀ place ∈ (none : Option Span), place.Piece m.text := fun _ h => nomatch h
  apply Runs.bind (.withBound h fun _ => dotsFrom_runs h (by omega) none)
  rintro ⟨ancestors, place⟩ s' p' ⟨dots, l₁, passed, hcount, hplace⟩
  rw [Nat.zero_add] at hcount
  subst hcount
  apply Runs.bind (peek_runs passed.stands)
  intro token s'' p'' saw
  have hbound' := p''.left_lt_bound
  apply Runs.ite
  · intro _
    apply Runs.bind (.withBound saw.stands fun _ => segmentsFrom_runs saw.stands (by omega) hplace)
    rintro ⟨segments, span⟩ _ _ ⟨first, others, l', passed', rfl, hspan⟩
    have passed'' := passed.trans (i := 0) (saw.toPassed.trans (i := 0) passed')
    cases dots with
    | nil => exact .pure ⟨.top first others, l', passed'', rfl, hspan.inside⟩
    | cons dot dots =>
      refine .pure ⟨.relative dot dots (first :: others), l', passed'', ?_, hspan.inside⟩
      rw [Import.erase, if_neg (Parse.ancestors_ne_zero dot dots rfl), Import.tree]
  · intro hnamed
    cases dots with
    | nil => exact absurd (by simp [Grammar.ancestors]) hnamed
    | cons dot dots =>
      refine .pure ⟨.relative dot dots [], l₁, passed.trans saw.toPassed, ?_, ?_⟩
      · rw [Import.erase, if_neg (Parse.ancestors_ne_zero dot dots rfl), Import.tree]
        rfl
      · cases place with
        | none => exact ⟨Nat.le_refl _, Nat.zero_le _⟩
        | some span => exact (hplace span rfl).inside

theorem linesFrom_runs {line : ParseFrom σ α} {line' : Parse α} {f : β → List Token} {tree : β → α}
    {erase : α → α} {good : α → Prop} {start : Nat} (hline : ∀ {s p l},
      m.Stands (.word holes) l s p → start ≤ l.pos →
      m.Runs s p line line' (m.LineRead f tree erase good holes l p))
    (h : m.Stands (.word holes) l s p) (hstart : start ≤ l.pos) (hbound : p.left < bound) :
    m.Runs s p (Parse.linesFrom line (extra + bound)) (Parse.linesFrom line' bound)
      fun items s' p' => ∃ first others, m.Passed 0
        (f first ++ (others.flatMap (fun d => .newline :: f d) ++ [.dedent])) holes l p'.lexer p s' p' ∧
        (first :: others).map tree = items.map erase ∧ ∀ item ∈ items, good item := by
  induction bound generalizing s p l with
  | zero => cases hbound
  | succ bound ih =>
    rw [← Nat.add_assoc, Parse.linesFrom, Parse.linesFrom]
    apply Runs.bind (hline h hstart)
    rintro first s' p' ⟨d, l₁, passed, htree, hfirst⟩
    apply Runs.bind (next_runs passed.stands)
    rintro ⟨token, span⟩ s'' p'' took
    cases token
    case newline =>
      have passed' := passed.trans (i := 1) (took.passed rfl)
      have hleft := passed'.left
      apply Runs.bind (ih passed'.stands (hstart.trans passed'.le) (by omega))
      rintro items _ _ ⟨second, others, passed'', htrees, hothers⟩
      refine .pure ⟨d, second :: others, ?_, ?_, List.forall_mem_cons.2 ⟨hfirst, hothers⟩⟩
      · simpa using passed'.trans (i := 0) passed''
      · rw [List.map_cons, htree, htrees, List.map_cons]
    case dedent =>
      refine .pure ⟨d, [], passed.trans (took.passed rfl), ?_, List.forall_mem_singleton.2 hfirst⟩
      rw [List.map_cons, htree]
      rfl
    all_goals exact took.fail rfl

/-- Behind the imports nothing is looked at; where there are none, a token has been. -/
theorem imports_runs (h : m.Stands (.word holes) l s p) :
    m.Runs s p Parse.imports Parse.imports fun items s' p' =>
      ∃ (ds : List Grammar.Import) (l' : Lexer), m.Passed 0
        (Grammar.blockTokens .importWord Grammar.Import.tokens ds) holes l l' p s' p' ∧
        ds.map Grammar.Import.tree = items.map Import.erase ∧
        (∀ item ∈ items, item.span.Inside (byteLength m.text)) ∧
        if items = [] then ∃ lexed, l'.nextToken = (.ok lexed, p'.lexer) else l' = p'.lexer := by
  apply Runs.bind (tryTake_runs h rfl)
  rintro taken s' p' ⟨l₁, tried, seen⟩
  apply Runs.ite
  · intro htaken
    rw [if_pos htaken] at tried
    apply Runs.bind (expect_runs tried.stands rfl _)
    rintro span s'' p'' passed
    have hbound := p''.left_lt_bound
    refine .withBound passed.stands fun _ =>
      (linesFrom_runs (fun h _ => importLine_runs h) passed.stands (Nat.zero_le _) (by omega)).imp ?_
    rintro items _ _ ⟨first, others, passed', htrees, hitems⟩
    refine ⟨first :: others, _, tried.trans (passed.trans (i := 0) passed'), htrees, hitems, ?_⟩
    rw [if_neg]
    rintro rfl
    cases htrees
  · intro htaken
    rw [if_neg htaken] at tried
    exact .pure ⟨[], l₁, tried, rfl, List.forall_mem_nil _, seen (Bool.eq_false_of_not_eq_true htaken)⟩

/-- The parsers have read a type. -/
def TypeRead (holes : Nat) (l : Lexer) (p : Parser) (ty : TypeExpr) (s' : Parser σ) (p' : Parser) :
    Prop :=
  ∃ (d : Grammar.TypeExpr) (l' : Lexer), m.Passed 1 d.tokens holes l l' p s' p' ∧
    d.tree = ty.erase ∧ Row l.pos l'.pos [ty.span] ∧ ty.Nested m.text

/-- The parsers have read the arguments of a type and the bracket behind them. -/
def ArgsRead (holes : Nat) (l : Lexer) (p : Parser) (args : List TypeExpr × Span) (s' : Parser σ)
    (p' : Parser) : Prop :=
  ∃ (first : Grammar.TypeExpr) (others : List Grammar.TypeExpr),
    m.Passed 1 (first.tokens ++ Grammar.typeArgTokens others) holes l p'.lexer p s' p' ∧
    first.tree :: Grammar.typeTrees others = eraseTypes args.1 ∧
    Row l.pos p'.lexer.pos (args.1.map TypeExpr.span ++ [args.2]) ∧
    (∀ ty ∈ args.1, ty.Nested m.text) ∧ args.2.Piece m.text

/-- A type takes a turn for its name, and its arguments take one more. -/
theorem typeFrom_runs (extra bound : Nat) :
    (∀ {s : Parser σ} {p : Parser} {l}, m.Stands (.word holes) l s p → 2 * p.left + 1 ≤ bound →
      m.Runs s p (Parse.typeFrom (extra + bound)) (Parse.typeFrom bound) (m.TypeRead holes l p)) ∧
    ∀ {s : Parser σ} {p : Parser} {l}, m.Stands (.word holes) l s p → 2 * p.left + 2 ≤ bound →
      m.Runs s p (Parse.typeArgsFrom (extra + bound)) (Parse.typeArgsFrom bound)
        (m.ArgsRead holes l p) := by
  induction bound with
  | zero => exact ⟨fun _ hbound => absurd hbound (Nat.not_succ_le_zero _),
      fun _ hbound => absurd hbound (Nat.not_succ_le_zero _)⟩
  | succ bound ih =>
    rw [← Nat.add_assoc]
    constructor
    · intro s p l h hbound
      rw [Parse.typeFrom, Parse.typeFrom]
      apply Runs.bind (next_runs h)
      rintro ⟨token, span⟩ s' p' took
      have hpiece := took.piece
      cases token
      case typeName text =>
        apply Runs.bind (tryTake_runs (took.passed rfl).stands rfl)
        rintro taken s'' p'' ⟨l₂, tried, -⟩
        have passed := (took.passed rfl).trans (i := 1) tried
        have hleft := passed.left
        apply Runs.ite
        · intro htaken
          rw [if_pos htaken] at passed
          apply Runs.bind (ih.2 passed.stands (by omega))
          rintro ⟨args, close⟩ _ _ ⟨first, others, passed', htrees, hrow, hargs, hclose⟩
          have hbetween := (took.row.until tried.le).append hrow
          obtain ⟨place, row⟩ := hpiece.covers hclose hbetween
          refine .pure ⟨.generic text first others, _, passed.trans passed', ?_, row,
            .generic (place.sublist (.cons _ (List.sublist_append_left _ _))) hargs⟩
          rw [Grammar.TypeExpr.tree, htrees, TypeExpr.erase]
        · intro htaken
          rw [if_neg htaken] at passed
          exact .pure ⟨.named text, l₂, passed, rfl, took.row.until tried.le, .named hpiece.alone⟩
      all_goals exact took.fail rfl
    · intro s p l h hbound
      rw [Parse.typeArgsFrom, Parse.typeArgsFrom]
      apply Runs.bind (ih.1 h (by omega))
      rintro arg s' p' ⟨first, l₁, passed, htree, hrow, harg⟩
      apply Runs.bind (next_runs passed.stands)
      rintro ⟨token, span⟩ s'' p'' took
      cases token
      case comma =>
        have hleft := (passed.trans (i := 1) (took.passed rfl)).left
        apply Runs.bind (ih.2 (took.passed rfl).stands (by omega))
        rintro ⟨args, close⟩ _ _ ⟨second, others, passed', htrees, hrow', hargs, hclose⟩
        refine .pure ⟨first, second :: others,
          passed.trans ((took.passed rfl).trans (i := 0) passed'), ?_,
          (hrow.until took.row.le).append hrow', List.forall_mem_cons.2 ⟨harg, hargs⟩, hclose⟩
        rw [Grammar.typeTrees, htrees, htree, eraseTypes]
      case rightBracket =>
        refine .pure ⟨first, [], passed.trans (took.passed rfl), ?_, hrow.append took.row,
          List.forall_mem_singleton.2 harg, took.piece⟩
        rw [htree]
        rfl
      all_goals exact took.fail rfl

theorem typeExpr_runs (h : m.Stands (.word holes) l s p) :
    m.Runs s p Parse.typeExpr Parse.typeExpr (m.TypeRead holes l p) :=
  .withBound h fun extra =>
    (typeFrom_runs extra p.bound).1 h (Nat.le_of_succ_le p.left_lt_bound)

end Mirror

end Tree

end ClassLang
