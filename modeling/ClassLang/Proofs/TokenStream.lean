import ClassLang.Proofs.LexerMoves
import ClassLang.Token.Listing

/-!
# The stream of tokens

A `Reader` is a lexer together with what it reads next: a token, or the text of a quote behind a
hole that was closed. `Reader.Reads` is a run of reading steps up to some place and `Reader.Ends`
says that nothing is left. Every step lowers the measure of the lexer, so a run is never longer than
that; the main statement, `tokens_eq_ok_iff`, says that the listing of a text is its whole run.
-/

set_option autoImplicit false

namespace ClassLang

/-! ## The measure of the lexer -/

variable {part : QuotePart} {e : CompileError} {l l' : Lexer} {token : Token} {holes : Nat}

namespace Lexer

theorem breakToken_ne_eof (depth indent : Nat) : breakToken depth indent ≠ .eof := by
  unfold breakToken
  split
  · exact Token.noConfusion
  · split <;> exact Token.noConfusion

theorem Gives.measure_lt {lexed : Lexed} (h : l.Gives lexed l') (hne : lexed.token ≠ .eof) :
    l'.measure < l.measure := by
  induction h with
  | owed | close =>
    simp only [measure]
    omega
  | word h =>
    obtain ⟨first, tail, rfl, -⟩ := h.exists_cons
    simp only [measure, List.length_append, List.length_cons]
    omega
  | lineBreak _ _ _ hdepth =>
    simp only [measure, List.length_append, List.length_cons, List.length_replicate]
    omega
  | eof => exact absurd rfl hne
  | start _ _ _ ih =>
    have hlt := ih hne
    simp only [measure, List.length_append] at hlt ⊢
    omega

/-- Quote text runs up to its end within the line. -/
theorem nextQuotePart_eq_ok_iff (clean : l.Clean) :
    l.nextQuotePart = (.ok part, l') ↔ ∃ w t, QuoteText w t ∧
      l.cursor.rest = w ++ quoteEnd part.isEnd :: l'.cursor.rest ∧
      part.text = String.ofList t ∧
      l' = { l with cursor := ⟨l'.cursor.rest, l.pos + byteLength w + 1, 0⟩ } := by
  obtain ⟨⟨rest, pos, torn⟩, indent, owed, started⟩ := l
  obtain rfl : torn = 0 := clean.1
  constructor
  · intro h
    unfold nextQuotePart at h
    split at h
    next result cursor hread =>
    cases h
    obtain ⟨w, t, hw, hrest, htext, hcursor⟩ := quoteFrom_eq_ok_iff.1 hread
    exact ⟨w, t, hw, hrest, htext, congrArg (Lexer.mk · indent owed started) hcursor⟩
  · rintro ⟨w, t, hw, hrest, htext, hl⟩
    have hread : readQuotePart (Cursor.mend ⟨rest, pos, 0⟩) = (.ok part, l'.cursor) :=
      quoteFrom_eq_ok_iff.2 ⟨w, t, hw, hrest, htext, congrArg Lexer.cursor hl⟩
    unfold nextQuotePart
    rw [hread, hl]

theorem clean_of_nextQuotePart (clean : l.Clean) (h : l.nextQuotePart = (.ok part, l')) :
    l'.Clean ∧ l'.measure < l.measure := by
  obtain ⟨w, t, -, hrest, -, hl⟩ := (nextQuotePart_eq_ok_iff clean).1 h
  have hlined := clean.2
  rw [hrest, List.append_cons] at hlined
  refine ⟨⟨congrArg (·.cursor.torn) hl, hlined.of_append⟩, ?_⟩
  have hindent : l'.indent = l.indent := by rw [hl]
  have howed : l'.owed = l.owed := by rw [hl]
  simp only [measure, hrest, hindent, howed, List.length_append, List.length_cons]
  omega

end Lexer

/-! ## Readers -/

/-- What is read next. Both count the holes that are open. -/
inductive Mode where
  /-- A token. -/
  | word (holes : Nat)
  /-- The text of a quote, behind the brace that closed a hole. -/
  | text (holes : Nat)
deriving DecidableEq

/-- What is read behind a token. -/
def Mode.behind (token : Token) (holes : Nat) : Mode :=
  match token, holes with
  | .quoteStart _, holes => .word (holes + 1)
  | .rightBrace, holes + 1 => .text holes
  | _, holes => .word holes

structure Reader where
  lexer : Lexer
  mode : Mode

namespace Reader

/-- The reader at the start of a text. -/
def ofText (source : String) : Reader := ⟨.ofText source, .word 0⟩

/-- Reads one token other than `eof`. -/
inductive Step : Reader → Lexed → Reader → Prop where
  | word {l l' : Lexer} {lexed : Lexed} {holes : Nat} (h : l.nextToken = (.ok lexed, l'))
      (hne : lexed.token ≠ .eof) :
      Step ⟨l, .word holes⟩ lexed ⟨l', .behind lexed.token holes⟩
  | text {l l' : Lexer} {part : QuotePart} {holes : Nat} (h : l.nextQuotePart = (.ok part, l')) :
      Step ⟨l, .text holes⟩ ⟨.quotePart part.text part.isEnd, ⟨l.pos, l'.pos⟩⟩
        ⟨l', .word (if part.isEnd then holes else holes + 1)⟩

/-- Reads these tokens one after the other. -/
inductive Reads : Reader → List Lexed → Reader → Prop where
  | nil {r : Reader} : Reads r [] r
  | cons {r m r' : Reader} {lexed : Lexed} {rest : List Lexed} (first : Step r lexed m)
      (others : Reads m rest r') : Reads r (lexed :: rest) r'

/-- Only `eof` is left. -/
def Ends (r : Reader) : Prop :=
  ∃ holes lexed l, r.mode = .word holes ∧ r.lexer.nextToken = (.ok lexed, l) ∧ lexed.token = .eof

/-- What is read next is a fault. -/
def Fails (r : Reader) (e : CompileError) : Prop :=
  match r.mode with
  | .word _ => r.lexer.nextToken.1 = .error e
  | .text _ => r.lexer.nextQuotePart.1 = .error e

/-- The result of a listing that has read `ts` and stands at `r`. -/
def Lists (r : Reader) (ts : List Lexed) : Except CompileError (List Lexed) → Prop
  | .ok us => r.Ends ∧ us = ts
  | .error e => r.Fails e

variable {r r' m : Reader} {lexed : Lexed} {ts us : List Lexed}

theorem Step.clean (h : r.Step lexed r') (clean : r.lexer.Clean) : r'.lexer.Clean := by
  cases h with
  | word h _ => exact ((Lexer.nextToken_eq_ok_iff clean).1 h).clean clean
  | text h => exact (Lexer.clean_of_nextQuotePart clean h).1

theorem Step.measure_lt (h : r.Step lexed r') (clean : r.lexer.Clean) :
    r'.lexer.measure < r.lexer.measure := by
  cases h with
  | word h hne => exact ((Lexer.nextToken_eq_ok_iff clean).1 h).measure_lt hne
  | text h => exact (Lexer.clean_of_nextQuotePart clean h).2

theorem Step.unique {lexed' : Lexed} (h : r.Step lexed m) (h' : r.Step lexed' r') :
    lexed = lexed' ∧ m = r' := by
  cases h with
  | word h _ =>
    cases h' with
    | word h' _ =>
      cases h.symm.trans h'
      exact ⟨rfl, rfl⟩
  | text h =>
    cases h' with
    | text h' =>
      cases h.symm.trans h'
      exact ⟨rfl, rfl⟩

theorem Ends.not_step (h : r.Ends) : ¬ r.Step lexed r' := by
  obtain ⟨holes, lexed', l, hmode, hnext, heof⟩ := h
  rintro (⟨h, hne⟩ | h)
  · cases h.symm.trans hnext
    exact hne heof
  · cases hmode

theorem Fails.not_step (h : r.Fails e) : ¬ r.Step lexed r' := by
  rintro (⟨h', -⟩ | h')
  · cases (congrArg Prod.fst h').symm.trans h
  · cases (congrArg Prod.fst h').symm.trans h

variable {x : Except CompileError (List Lexed)}

theorem Lists.not_step (h : r.Lists ts x) : ¬ r.Step lexed r' := by
  cases x with
  | ok us => exact h.1.not_step
  | error e => exact Fails.not_step h

theorem Fails.unique {e' : CompileError} (h : r.Fails e) (h' : r.Fails e') : e = e' := by
  obtain ⟨l, mode⟩ := r
  cases mode <;> exact Except.error.inj (Eq.trans (Eq.symm h) h')

theorem Ends.not_fails (h : r.Ends) : ¬ r.Fails e := by
  obtain ⟨l, mode⟩ := r
  obtain ⟨holes, lexed, l', rfl, hnext, -⟩ := h
  intro hfails
  cases (congrArg Prod.fst hnext).symm.trans hfails

theorem Lists.unique {y : Except CompileError (List Lexed)} (h : r.Lists ts x) (h' : r.Lists ts y) :
    x = y := by
  cases x with
  | ok us =>
    cases y with
    | ok us' => rw [h.2, h'.2]
    | error e => exact absurd h' h.1.not_fails
  | error e =>
    cases y with
    | ok us' => exact absurd h h'.1.not_fails
    | error e' => rw [Fails.unique h h']

theorem Lists.behind (us : List Lexed) (h : r.Lists ts x) :
    r.Lists (us ++ ts) ((us ++ ·) <$> x) := by
  cases x with
  | ok _ => exact ⟨h.1, congrArg (us ++ ·) h.2⟩
  | error e => exact h

theorem Reads.clean (h : r.Reads ts r') (clean : r.lexer.Clean) : r'.lexer.Clean := by
  induction h with
  | nil => exact clean
  | cons first _ ih => exact ih (first.clean clean)

/-- A run is never longer than the measure of the lexer. -/
theorem Reads.length_le (h : r.Reads ts r') (clean : r.lexer.Clean) :
    ts.length + r'.lexer.measure ≤ r.lexer.measure := by
  induction h with
  | nil => simp
  | cons first _ ih =>
    have hlt := first.measure_lt clean
    have hle := ih (first.clean clean)
    simp only [List.length_cons]
    omega

theorem Reads.append (h : r.Reads ts m) (h' : m.Reads us r') : r.Reads (ts ++ us) r' := by
  induction h with
  | nil => exact h'
  | cons first _ ih => exact .cons first (ih h')

theorem Reads.split (h : r.Reads (ts ++ us) r') : ∃ m, r.Reads ts m ∧ m.Reads us r' := by
  induction ts generalizing r with
  | nil => exact ⟨r, .nil, h⟩
  | cons lexed ts ih =>
    cases h with
    | cons first others =>
      obtain ⟨m, hts, hus⟩ := ih others
      exact ⟨m, .cons first hts, hus⟩

/-- What holds of every word, of every piece of quote text and of the tokens of line breaks holds of
all tokens of a run. -/
theorem Reads.forall_tokens {P : Token → Prop}
    (words : ∀ {w more : List Char} {token : Token}, WordText w token more → P token)
    (texts : ∀ {w t : List Char} {isEnd : Bool}, QuoteText w t → P (.quotePart (String.ofList t) isEnd))
    (breaks : ∀ token ∈ [Token.newline, .indent, .dedent], P token) (h : r.Reads ts r')
    (clean : r.lexer.Clean) : ∀ lexed ∈ ts, P lexed.token := by
  have given : ∀ {l l' : Lexer} {lexed : Lexed}, l.Gives lexed l' → lexed.token ≠ .eof →
      P lexed.token := by
    intro l l' lexed h hne
    induction h with
    | word h => exact words h
    | @lineBreak _ _ _ tabs _ indent _ _ _ _ =>
      refine breaks _ ?_
      unfold Lexer.breakToken
      dsimp only
      split
      · simp
      · split <;> simp
    | eof => exact absurd rfl hne
    | start _ _ _ ih => exact ih hne
    | _ => exact breaks _ (by simp)
  induction h with
  | nil => simp
  | cons first _ ih =>
    refine List.forall_mem_cons.2 ⟨?_, ih (first.clean clean)⟩
    cases first with
    | word hnext hne => exact given ((Lexer.nextToken_eq_ok_iff clean).1 hnext) hne
    | text hpart =>
      obtain ⟨w, t, hw, -, htext, -⟩ := (Lexer.nextQuotePart_eq_ok_iff clean).1 hpart
      dsimp only
      rw [htext]
      exact texts hw

/-- Two runs that cannot go on are the same. -/
theorem Reads.unique_of_not_step {e e' : Reader} (h : r.Reads ts e)
    (hend : ∀ lexed m, ¬ e.Step lexed m) (h' : r.Reads us e')
    (hend' : ∀ lexed m, ¬ e'.Step lexed m) : ts = us ∧ e = e' := by
  induction h generalizing us with
  | nil =>
    cases h' with
    | nil => exact ⟨rfl, rfl⟩
    | cons first _ => exact absurd first (hend _ _)
  | cons first _ ih =>
    cases h' with
    | nil => exact absurd first (hend' _ _)
    | cons first' others' =>
      obtain ⟨rfl, rfl⟩ := first.unique first'
      obtain ⟨rfl, rfl⟩ := ih hend others'
      exact ⟨rfl, rfl⟩

/-- A text has one whole run. -/
theorem Reads.unique {e e' : Reader} (h : r.Reads ts e) (hend : e.Ends) (h' : r.Reads us e')
    (hend' : e'.Ends) : ts = us ∧ e = e' :=
  h.unique_of_not_step (fun _ _ => hend.not_step) h' fun _ _ => hend'.not_step

end Reader

theorem Mode.behind_other (hquote : ∀ head, token ≠ .quoteStart head)
    (hbrace : token ≠ .rightBrace) : Mode.behind token holes = .word holes := by
  unfold Mode.behind
  split
  · exact absurd rfl (hquote _)
  · exact absurd rfl hbrace
  · rfl

/-- Quote text is read behind the brace that closes a hole. -/
theorem Mode.eq_rightBrace_of_behind {holes' : Nat} (h : Mode.behind token holes = .text holes') :
    token = .rightBrace := by
  by_contra hbrace
  unfold Mode.behind at h
  split at h <;> contradiction

/-! ## Listing -/

section Listing

variable {bound holes' : Nat} {lexed : Lexed}

/-- A listing takes one token. -/
theorem tokensFrom_word (h : l.nextToken = (.ok lexed, l')) (hne : lexed.token ≠ .eof)
    (hmode : Mode.behind lexed.token holes = .word holes') :
    tokensFrom (bound + 1) holes l = ([lexed] ++ ·) <$> tokensFrom bound holes' l' := by
  rw [tokensFrom, h]
  dsimp only
  split
  · next htoken => exact absurd htoken hne
  · next head htoken =>
    rw [htoken] at hmode
    cases hmode
    rfl
  · next htoken =>
    rw [htoken] at hmode
    cases holes with
    | zero =>
      cases hmode
      rfl
    | succ holes => cases hmode
  · next _ hquote hbrace =>
    cases (Mode.behind_other hquote hbrace).symm.trans hmode
    rfl

/-- A listing takes the brace that closes a hole, and the text of the quote behind it. -/
theorem tokensFrom_text (h : l.nextToken = (.ok lexed, l'))
    (hmode : Mode.behind lexed.token holes = .text holes') :
    tokensFrom (bound + 1) holes l =
      match l'.nextQuotePart with
      | (.error e, _) => .error e
      | (.ok part, last) =>
        ([lexed, ⟨.quotePart part.text part.isEnd, ⟨l'.pos, last.pos⟩⟩] ++ ·) <$>
          tokensFrom bound (if part.isEnd then holes' else holes' + 1) last := by
  have htoken := Mode.eq_rightBrace_of_behind hmode
  rw [htoken] at hmode
  cases holes with
  | zero => cases hmode
  | succ holes =>
    cases hmode
    rw [tokensFrom, h]
    dsimp only
    rw [htoken]
    rfl

/-- A listing gives what a run takes, and ends as the run does. -/
theorem reads_of_tokensFrom (clean : l.Clean) (hbound : l.measure < bound) :
    ∃ ts r, Reader.Reads ⟨l, .word holes⟩ ts r ∧ r.Lists ts (tokensFrom bound holes l) := by
  induction bound generalizing holes l with
  | zero => cases hbound
  | succ bound ih =>
    rcases hnext : l.nextToken with ⟨e | lexed, l'⟩
    · refine ⟨[], _, .nil, ?_⟩
      rw [tokensFrom, hnext]
      exact congrArg Prod.fst hnext
    by_cases heof : lexed.token = .eof
    · refine ⟨[], _, .nil, ?_⟩
      rw [tokensFrom, hnext]
      dsimp only
      rw [heof]
      exact ⟨⟨holes, lexed, l', rfl, hnext, heof⟩, rfl⟩
    have first : Reader.Step ⟨l, .word holes⟩ lexed _ := .word hnext heof
    have hclean := first.clean clean
    have hlt : l'.measure < bound :=
      Nat.lt_of_lt_of_le (first.measure_lt clean) (Nat.le_of_lt_succ hbound)
    cases hmode : Mode.behind lexed.token holes with
    | word holes' =>
      rw [hmode] at first
      rw [tokensFrom_word hnext heof hmode]
      obtain ⟨ts, r, hreads, hlists⟩ := @ih l' holes' hclean hlt
      exact ⟨_, r, .cons first hreads, hlists.behind [lexed]⟩
    | text holes' =>
      rw [hmode] at first
      rw [tokensFrom_text hnext hmode]
      rcases hpart : l'.nextQuotePart with ⟨e | part, last⟩
      · exact ⟨_, _, .cons first .nil, congrArg Prod.fst hpart⟩
      have second : Reader.Step ⟨l', .text holes'⟩ _ _ := .text hpart
      obtain ⟨ts, r, hreads, hlists⟩ :=
        ih (second.clean hclean) ((second.measure_lt hclean).trans hlt)
      exact ⟨_, r, .cons first (.cons second hreads), hlists.behind _⟩

variable {source : String}

theorem tokens_eq_iff {x : Except CompileError (List Lexed)} :
    tokens source = x ↔ ∃ ts r, (Reader.ofText source).Reads ts r ∧ r.Lists ts x := by
  obtain ⟨us, m, hreads, hlists⟩ : ∃ us m, (Reader.ofText source).Reads us m ∧
      m.Lists us (tokens source) :=
    reads_of_tokensFrom (Lexer.clean_ofText source) (Nat.lt_succ_self _)
  constructor
  · rintro rfl
    exact ⟨us, m, hreads, hlists⟩
  · rintro ⟨ts, r, hts, hx⟩
    obtain ⟨rfl, rfl⟩ :=
      hreads.unique_of_not_step (fun _ _ => hlists.not_step) hts fun _ _ => hx.not_step
    exact hlists.unique hx

/-- The listing of a text is its whole run. -/
theorem tokens_eq_ok_iff {ts : List Lexed} :
    tokens source = .ok ts ↔ ∃ r, (Reader.ofText source).Reads ts r ∧ r.Ends := by
  rw [tokens_eq_iff]
  constructor
  · rintro ⟨_, r, hreads, hends, rfl⟩
    exact ⟨r, hreads, hends⟩
  · rintro ⟨r, hreads, hends⟩
    exact ⟨ts, r, hreads, hends, rfl⟩

/-- A listing fails with the fault to which a run leads. -/
theorem tokens_eq_error_iff :
    tokens source = .error e ↔ ∃ ts r, (Reader.ofText source).Reads ts r ∧ r.Fails e :=
  tokens_eq_iff

end Listing

/-! ## Runs by their tokens -/

/-- The lexer gives `token`, wherever it stands. -/
def Lexer.Hands (l : Lexer) (token : Token) (l' : Lexer) : Prop :=
  ∃ span, l.nextToken = (.ok ⟨token, span⟩, l')

/-- A token that neither opens nor closes a hole nor ends the text. -/
def Token.isPlain : Token → Bool
  | .quoteStart _ => false
  | .rightBrace => false
  | .eof => false
  | _ => true

theorem Mode.behind_plain (h : token.isPlain = true) (holes : Nat) :
    Mode.behind token holes = .word holes := by
  refine Mode.behind_other ?_ ?_
  · rintro head rfl
    cases h
  · rintro rfl
    cases h

namespace Reader

/-- Reads tokens of these kinds one after the other. -/
def Takes (r : Reader) (tokens : List Token) (r' : Reader) : Prop :=
  ∃ ts, r.Reads ts r' ∧ ts.map Lexed.token = tokens

variable {r r' m : Reader} {tokens others : List Token}

theorem Takes.nil : r.Takes [] r := ⟨[], .nil, rfl⟩

theorem Takes.append (h : r.Takes tokens m) (h' : m.Takes others r') :
    r.Takes (tokens ++ others) r' := by
  obtain ⟨ts, hts, rfl⟩ := h
  obtain ⟨us, hus, rfl⟩ := h'
  exact ⟨ts ++ us, hts.append hus, List.map_append⟩

theorem Takes.length_le (h : r.Takes tokens r') (clean : r.lexer.Clean) :
    tokens.length + r'.lexer.measure ≤ r.lexer.measure := by
  obtain ⟨ts, hts, rfl⟩ := h
  rw [List.length_map]
  exact hts.length_le clean

theorem Takes.clean (h : r.Takes tokens r') (clean : r.lexer.Clean) : r'.lexer.Clean := by
  obtain ⟨ts, hts, -⟩ := h
  exact hts.clean clean

/-- The first token of a run that begins between words. -/
theorem Takes.first (h : Takes ⟨l, .word holes⟩ (token :: tokens) r') :
    ∃ l', l.Hands token l' ∧ token ≠ .eof ∧ Takes ⟨l', .behind token holes⟩ tokens r' := by
  obtain ⟨ts, hts, htokens⟩ := h
  cases hts with
  | nil => cases htokens
  | cons first others =>
    cases htokens
    cases first with
    | word hnext hne => exact ⟨_, ⟨_, hnext⟩, hne, _, others, rfl⟩

/-- The first token of a run that begins behind a closed hole is quote text. -/
theorem Takes.firstText (h : Takes ⟨l, .text holes⟩ (token :: tokens) r') :
    ∃ part l', l.nextQuotePart = (.ok part, l') ∧ token = .quotePart part.text part.isEnd ∧
      Takes ⟨l', .word (if part.isEnd then holes else holes + 1)⟩ tokens r' := by
  obtain ⟨ts, hts, htokens⟩ := h
  cases hts with
  | nil => cases htokens
  | cons first others =>
    cases htokens
    cases first with
    | text hpart => exact ⟨_, _, hpart, rfl, _, others, rfl⟩

theorem takes_of_hands (h : l.Hands token l') (hne : token ≠ .eof) (holes : Nat) :
    Takes ⟨l, .word holes⟩ [token] ⟨l', .behind token holes⟩ := by
  obtain ⟨span, hnext⟩ := h
  exact ⟨[⟨token, span⟩], .cons (.word hnext hne) .nil, rfl⟩

theorem takes_of_quotePart (h : l.nextQuotePart = (.ok part, l')) (holes : Nat) :
    Takes ⟨l, .text holes⟩ [.quotePart part.text part.isEnd]
      ⟨l', .word (if part.isEnd then holes else holes + 1)⟩ :=
  ⟨[⟨.quotePart part.text part.isEnd, _⟩], .cons (.text h) .nil, rfl⟩

end Reader

/-- Between `l` and `l'` the text has these tokens, with all the holes closed that they open. -/
def Lexer.Passes (l : Lexer) (tokens : List Token) (l' : Lexer) : Prop :=
  ∀ holes, Reader.Takes ⟨l, .word holes⟩ tokens ⟨l', .word holes⟩

namespace Lexer

theorem Passes.nil : l.Passes [] l := fun _ => .nil

theorem Passes.append {m : Lexer} {tokens others : List Token} (h : l.Passes tokens m)
    (h' : m.Passes others l') : l.Passes (tokens ++ others) l' :=
  fun holes => (h holes).append (h' holes)

theorem Hands.passes (h : l.Hands token l') (plain : token.isPlain = true) :
    l.Passes [token] l' := by
  intro holes
  have htakes := Reader.takes_of_hands h (by rintro rfl; cases plain) holes
  rwa [Mode.behind_plain plain] at htakes

theorem Hands.unique {m m' : Lexer} {token' : Token} (h : l.Hands token m)
    (h' : l.Hands token' m') : token = token' ∧ m = m' := by
  obtain ⟨span, hnext⟩ := h
  obtain ⟨span', hnext'⟩ := h'
  cases hnext.symm.trans hnext'
  exact ⟨rfl, rfl⟩

end Lexer

end ClassLang
