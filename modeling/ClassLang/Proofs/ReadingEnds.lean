import ClassLang.Proofs.ParserFaults

/-!
# Reading ends

Every token but `eof` is paid for: it lowers the bytes that are unread, or else leaves them as they are
and lowers the dedents that are still to come (`Gives.cost_lt`). At the end of a text the lexer stays
where it is and gives `eof` again. So a listing ends, and it does not matter how many turns it may take.

The parser ends as well, and it never asks for what is behind `eof`. `Watched` is a supply that gives
what the lexer gives until that was `eof`, and refuses everything after that; it also grants the loops of
the parser any number of turns. It mirrors the lexer, so the parser gives the same on both.
-/

set_option autoImplicit false

namespace ClassLang

/-! ## What a token costs -/

namespace Lexer

/-- The bytes of the text that are not read yet. -/
def unread (l : Lexer) : Nat := l.cursor.torn + byteLength l.cursor.rest

/-- The unread bytes, and then the dedents that are owed or will be at the end of the text. -/
def cost (l : Lexer) : Nat × Nat := (l.unread, l.owed + l.indent)

/-- The places that the lexer reaches in a text, by tokens and by quote text in any order. -/
inductive Reached (source : String) : Lexer → Prop where
  | start : Reached source (ofText source)
  | token {l l' : Lexer} {lexed : Lexed} (h : Reached source l)
      (next : l.nextToken = (.ok lexed, l')) : Reached source l'
  | quotePart {l l' : Lexer} {part : QuotePart} (h : Reached source l)
      (next : l.nextQuotePart = (.ok part, l')) : Reached source l'

variable {source : String} {l l' : Lexer} {lexed : Lexed}

theorem Reached.clean (h : Reached source l) : l.Clean := by
  induction h with
  | start => exact clean_ofText source
  | token _ next ih => exact ((nextToken_eq_ok_iff ih).1 next).clean ih
  | quotePart _ next ih => exact (clean_of_nextQuotePart ih next).1

theorem Gives.cost_lt (h : l.Gives lexed l') (hne : lexed.token ≠ .eof) :
    Prod.Lex (· < ·) (· < ·) l'.cost l.cost := by
  induction h with
  | owed => exact .right _ (Nat.add_lt_add_right (Nat.lt_succ_self _) _)
  | word hw =>
    obtain ⟨first, tail, rfl, -⟩ := hw.exists_cons
    have hfirst := first.utf8Size_pos
    refine .left _ _ ?_
    simp only [unread, byteLength_append, byteLength_cons]
    omega
  | lineBreak =>
    refine .left _ _ ?_
    simp only [unread, byteLength_append, byteLength_cons, utf8Size_newline]
    omega
  | close => exact .right _ (Nat.add_lt_add_left (Nat.lt_succ_self _) _)
  | eof => exact absurd rfl hne
  | @start blank code pos indent owed lexed l _ _ _ ih =>
    -- the lines that are passed over before the first token are read as well
    have hcost := ih hne
    rw [Prod.lex_def] at hcost ⊢
    simp only [cost, unread, byteLength_append] at hcost ⊢
    omega

theorem unread_lt_of_nextQuotePart {part : QuotePart} (clean : l.Clean)
    (h : l.nextQuotePart = (.ok part, l')) : l'.unread < l.unread := by
  obtain ⟨w, t, -, hrest, -, hl⟩ := (nextQuotePart_eq_ok_iff clean).1 h
  have htorn : l'.cursor.torn = 0 := congrArg (·.cursor.torn) hl
  have hend := (quoteEnd part.isEnd).utf8Size_pos
  rw [unread, unread, htorn, clean.1, hrest, byteLength_append, byteLength_cons]
  omega

/-- The end of the text is met again and again. -/
theorem nextToken_of_eof (clean : l.Clean) (h : l.nextToken = (.ok lexed, l'))
    (heof : lexed.token = .eof) : l'.nextToken = (.ok lexed, l') := by
  obtain ⟨pos, rfl, rfl⟩ := ((nextToken_eq_ok_iff clean).1 h).eq_of_eof heof
  rfl

end Lexer

/-- A listing that may take more turns than there are tokens is the listing of the text. -/
theorem tokensFrom_eq_tokens {source : String} {bound : Nat}
    (hbound : (Lexer.ofText source).measure < bound) :
    tokensFrom bound 0 (Lexer.ofText source) = tokens source := by
  exact (tokens_eq_iff.2 (reads_of_tokensFrom (Lexer.clean_ofText source) hbound)).symm

/-- The tokens of a run are before the end of the text. -/
theorem Reader.Reads.ne_eof {r r' : Reader} {ts : List Lexed} (h : r.Reads ts r') :
    ∀ lexed ∈ ts, lexed.token ≠ .eof := by
  induction h with
  | nil => exact List.forall_mem_nil _
  | cons first _ ih =>
    refine List.forall_mem_cons.2 ⟨?_, ih⟩
    cases first with
    | word _ hne => exact hne
    | text _ => exact Token.noConfusion

namespace Tree

/-! ## Nothing is asked for behind the end -/

/-- A lexer that refuses to go on behind `eof`, and the turns that a loop may take beyond those that it
needs. -/
structure Watched where
  lexer : Lexer
  ended : Bool
  extra : Nat

namespace Watched

/-- What is given behind the end of the text: a fault that no text has. -/
def refuse {α : Type} (s : Watched) : Except CompileError α × Watched :=
  (.error ⟨.emptyAt s.lexer.pos, .boundReached⟩, s)

def nextToken (s : Watched) : Except CompileError Lexed × Watched :=
  if s.ended then s.refuse
  else
    match s.lexer.nextToken with
    | (.ok lexed, l) => (.ok lexed, { s with lexer := l, ended := lexed.token = .eof })
    | (.error e, l) => (.error e, { s with lexer := l })

def nextQuotePart (s : Watched) : Except CompileError QuotePart × Watched :=
  if s.ended then s.refuse
  else
    match s.lexer.nextQuotePart with
    | (result, l) => (result, { s with lexer := l })

instance : Supply Watched :=
  ⟨nextToken, nextQuotePart, fun s => s.lexer.pos, fun s => s.lexer.measure + s.extra⟩

/-- Up to the end of the text the supply gives what the lexer gives. -/
def mirror (source : String) : Mirror Watched where
  start := Reader.ofText source
  text := Lexer.normalized source
  twin ts s l := s.lexer = l ∧ (s.ended = true → ∃ lexed ∈ ts, lexed.token = .eof)
  inText := Lexer.in_ofText source
  pos := by
    rintro ts s l ⟨rfl, -⟩
    rfl
  measure := by
    rintro ts s l ⟨rfl, -⟩
    exact Nat.le_add_right _ _
  word := by
    rintro ts s l holes reads ⟨rfl, hended⟩
    have hopen : ¬ s.ended = true := fun h => by
      obtain ⟨lexed, hmem, heof⟩ := hended h
      exact reads.ne_eof lexed hmem heof
    rcases hnext : s.lexer.nextToken with ⟨e | lexed, l'⟩
    · simp [Supply.nextToken, nextToken, hopen, hnext]
    · simpa [Supply.nextToken, nextToken, hopen, hnext] using Or.inr
  quote := by
    rintro ts s l holes reads ⟨rfl, hended⟩
    have hopen : ¬ s.ended = true := fun h => by
      obtain ⟨lexed, hmem, heof⟩ := hended h
      exact reads.ne_eof lexed hmem heof
    simp [Supply.nextQuotePart, nextQuotePart, hopen]

end Watched

/-- The tree of a module, by a parser that is watched. -/
def parseWatched (extra : Nat) (source name : String) : Except CompileError Module :=
  let start : Parser Watched := ⟨⟨Lexer.ofText source, false, extra⟩, none⟩
  Prod.fst <$> (Parse.wholeModule name).run start

theorem parseWatched_eq (extra : Nat) (source name : String) :
    parseWatched extra source name = parse source name := by
  have hruns := Mirror.wholeModule_runs (m := Watched.mirror source) name
    (s := ⟨⟨Lexer.ofText source, false, extra⟩, none⟩)
    (.taken .nil ⟨rfl, Bool.noConfusion⟩)
  rcases hruns with ⟨tree, s, p, hwatched, hplain, -⟩ | ⟨e, hwatched, hplain, -⟩
  · exact (congrArg (Prod.fst <$> ·) hwatched).trans (congrArg (Prod.fst <$> ·) hplain).symm
  · exact (congrArg (Prod.fst <$> ·) hwatched).trans (congrArg (Prod.fst <$> ·) hplain).symm

/-- **Reading ends on every text.** At every place that the lexer reaches, a token other than `eof`
lowers its cost, quote text lowers the unread bytes, and `eof` is given again for ever. The listing
and the parser never run out of turns, more turns change nothing, and the parser asks for nothing
behind `eof`. -/
theorem reading_ends (source name : String) :
    (∀ l, Lexer.Reached source l →
      (∀ lexed l', l.nextToken = (.ok lexed, l') → lexed.token ≠ .eof →
        Prod.Lex (· < ·) (· < ·) l'.cost l.cost) ∧
      (∀ part l', l.nextQuotePart = (.ok part, l') → l'.unread < l.unread) ∧
      ∀ lexed l', l.nextToken = (.ok lexed, l') → lexed.token = .eof →
        l'.nextToken = (.ok lexed, l')) ∧
    (∀ e, tokens source = .error e → e.fault ≠ .boundReached) ∧
    (∀ bound, (Lexer.ofText source).measure < bound →
      tokensFrom bound 0 (Lexer.ofText source) = tokens source) ∧
    (∀ e, parse source name = .error e → e.fault ≠ .boundReached) ∧
    ∀ extra, parseWatched extra source name = parse source name := by
  refine ⟨fun l reached => ⟨?_, ?_, ?_⟩, ?_, fun _ => tokensFrom_eq_tokens, ?_,
    fun extra => parseWatched_eq extra source name⟩
  · intro lexed l' next hne
    exact ((Lexer.nextToken_eq_ok_iff reached.clean).1 next).cost_lt hne
  · intro part l' next
    exact Lexer.unread_lt_of_nextQuotePart reached.clean next
  · intro lexed l' next heof
    exact Lexer.nextToken_of_eof reached.clean next heof
  · intro e h heq
    obtain ⟨hlexical, -⟩ := tokens_error h
    rw [heq] at hlexical
    cases hlexical
  · intro e h
    exact (parse_error h).2.1

/-- A call whose arguments are cut off by the end of the text. -/
def cutOff : String := "fun Int f()\n\tg ("

theorem reading_ends_cutOff :
    (∃ lexed l', (Lexer.ofText cutOff).nextToken = (.ok lexed, l') ∧ lexed.token ≠ .eof ∧
      Prod.Lex (· < ·) (· < ·) l'.cost (Lexer.ofText cutOff).cost) ∧
    (∃ e, parse cutOff "m" = .error e ∧ e.fault ≠ .boundReached) ∧
    tokensFrom 100 0 (Lexer.ofText cutOff) = tokens cutOff ∧
    parseWatched 100 cutOff "m" = parse cutOff "m" := by
  obtain ⟨reached, -, hlisting, hrefused, hwatched⟩ := reading_ends cutOff "m"
  refine ⟨?_, ?_, hlisting 100 (by decide +kernel), hwatched 100⟩
  · have hnext : (Lexer.ofText cutOff).nextToken =
        (.ok ⟨.funWord, ⟨0, 3⟩⟩, ⟨⟨" Int f()\n\tg (\n".toList, 3, 0⟩, 0, 0, true⟩) := by
      rfl
    have hne : Token.funWord ≠ .eof := Token.noConfusion
    exact ⟨_, _, hnext, hne, (reached _ .start).1 _ _ hnext hne⟩
  · have hfails : (parse cutOff "m").toBool = false := by decide +kernel
    cases hparse : parse cutOff "m" with
    | ok tree =>
      rw [hparse] at hfails
      cases hfails
    | error e => exact ⟨e, rfl, hrefused e hparse⟩

end Tree

end ClassLang
