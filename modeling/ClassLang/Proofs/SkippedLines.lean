import ClassLang.Proofs.TokenStream

/-!
# Lines without code do not count

Two texts that differ only in the lines without code behind their line breaks are `Padded`. Within a
line such texts cannot be told apart, and going to the next line with code passes over what they
differ in (`Padded.lineFrom`), so the lexer moves through both in step (`Lexer.Alike.nextToken`): it
gives the same tokens, or fails for the same cause, at other offsets. The main statement is
`tokens_insert_blank`.
-/

set_option autoImplicit false

namespace ClassLang

open List

/-! ## Texts -/

/-- Two texts that differ only in the lines without code behind their line breaks. -/
inductive Padded : List Char → List Char → Prop where
  | nil : Padded [] []
  | char {t t' : List Char} (c : Char) (rest : Padded t t') : Padded (c :: t) (c :: t')
  | lines {blank blank' t t' : List Char} (hblank : BlankLines blank) (hblank' : BlankLines blank')
      (rest : Padded t t') : Padded ('\n' :: (blank ++ t)) ('\n' :: (blank' ++ t'))

namespace Padded

variable {t t' : List Char} {p : Char → Bool}

protected theorem refl (t : List Char) : Padded t t := by
  induction t with
  | nil => exact .nil
  | cons c t ih => exact .char c ih

protected theorem append (v : List Char) (h : Padded t t') : Padded (v ++ t) (v ++ t') := by
  induction v with
  | nil => exact h
  | cons c v ih => exact .char c ih

theorem head?_eq (h : Padded t t') : t.head? = t'.head? := by
  cases h <;> rfl

theorem eq_nil (h : Padded [] t') : t' = [] := by
  cases h
  rfl

theorem exists_cons {c : Char} (h : Padded (c :: t) t') : ∃ rest', t' = c :: rest' := by
  cases h with
  | char _ rest => exact ⟨_, rfl⟩
  | lines _ _ _ => exact ⟨_, rfl⟩

/-- Within a line the texts go on alike. -/
theorem tail {c : Char} (h : Padded (c :: t) t') (hc : c ≠ '\n') :
    ∃ rest', t' = c :: rest' ∧ Padded t rest' := by
  cases h with
  | char _ rest => exact ⟨_, rfl, rest⟩
  | lines _ _ _ => exact absurd rfl hc

/-- A run of characters does not leave the line. -/
theorem takeWhile_eq (h : Padded t t') (hp : p '\n' = false) : t.takeWhile p = t'.takeWhile p := by
  induction h with
  | nil => rfl
  | char c _ ih => rw [takeWhile_cons, takeWhile_cons, ih]
  | lines _ _ _ _ => simp [hp]

theorem dropWhile (h : Padded t t') (hp : p '\n' = false) :
    Padded (t.dropWhile p) (t'.dropWhile p) := by
  induction h with
  | nil => exact .nil
  | char c rest ih =>
    rw [dropWhile_cons, dropWhile_cons]
    split
    · exact ih
    · exact .char c rest
  | lines hblank hblank' rest _ =>
    simp only [dropWhile_cons, hp, Bool.false_eq_true, if_false]
    exact .lines hblank hblank' rest

/-- Behind a line break there may be lines without code in both texts. -/
theorem behindBreak (h : Padded ('\n' :: t) ('\n' :: t')) : ∃ blank blank' s s',
    t = blank ++ s ∧ t' = blank' ++ s' ∧ BlankLines blank ∧ BlankLines blank' ∧ Padded s s' := by
  cases h with
  | char _ rest => exact ⟨[], [], t, t', rfl, rfl, .nil, .nil, rest⟩
  | lines hblank hblank' rest => exact ⟨_, _, _, _, rfl, rfl, hblank, hblank', rest⟩

end Padded

/-! ## Going to a line -/

/-- Two lines are equally deep, and behind their tabs there are texts that are padded. -/
def SameDepth (line line' : Nat × Cursor) : Prop :=
  Padded line.2.rest line'.2.rest ∧
    ∃ depth, line.2.pos = line.1 + depth ∧ line'.2.pos = line'.1 + depth

/-- Going to the next line with code passes over what the texts differ in. Within a comment it does
not matter how deep its line is. -/
theorem Padded.lineFrom {t t' : List Char} (h : Padded t t') {start pos start' pos' : Nat}
    {comment : Bool}
    (hdepth : comment = false → ∃ depth, pos = start + depth ∧ pos' = start' + depth) :
    SameDepth (Cursor.lineFrom start pos comment t) (Cursor.lineFrom start' pos' comment t') := by
  induction h generalizing start pos start' pos' comment with
  | nil =>
    refine ⟨.nil, ?_⟩
    cases comment with
    | true => exact ⟨0, rfl, rfl⟩
    | false => exact hdepth rfl
  | char c rest ih =>
    rw [Cursor.lineFrom, Cursor.lineFrom]
    split
    · exact ih fun _ => ⟨0, rfl, rfl⟩
    split
    · exact ih (by simp)
    · next hcomment =>
      obtain ⟨depth, rfl, rfl⟩ := hdepth (Bool.eq_false_iff.2 hcomment)
      split
      · exact ih fun _ => ⟨depth + 1, rfl, rfl⟩
      · split
        · exact ih (by simp)
        · exact ⟨.char c rest, depth, rfl, rfl⟩
  | lines hblank hblank' _ ih =>
    rw [Cursor.lineFrom, if_pos rfl, Cursor.lineFrom_blank hblank]
    rw [Cursor.lineFrom, if_pos rfl, Cursor.lineFrom_blank hblank']
    exact ih fun _ => ⟨0, rfl, rfl⟩

/-- Two cursors behind a line break, or at the start of a text. -/
def Cursor.AtLines (c c' : Cursor) : Prop := Padded ('\n' :: c.rest) ('\n' :: c'.rest)

theorem Cursor.AtLines.toLine {c c' : Cursor} (h : c.AtLines c') : SameDepth c.toLine c'.toLine := by
  obtain ⟨blank, blank', t, t', hrest, hrest', hblank, hblank', htext⟩ := h.behindBreak
  unfold Cursor.toLine
  rw [hrest, hrest', Cursor.lineFrom_blank hblank, Cursor.lineFrom_blank hblank']
  exact htext.lineFrom fun _ => ⟨0, rfl, rfl⟩

/-! ## Words -/

/-- Two steps of reading: results that `R` relates, in states that `S` relates, or faults for the same
cause. -/
inductive InStep {α σ : Type} (R : α → α → Prop) (S : σ → σ → Prop) :
    Except CompileError α × σ → Except CompileError α × σ → Prop where
  | ok {a b : α} {s s' : σ} (result : R a b) (state : S s s') : InStep R S (.ok a, s) (.ok b, s')
  | error {span span' : Span} {fault : Fault} {s s' : σ} :
      InStep R S (.error ⟨span, fault⟩, s) (.error ⟨span', fault⟩, s')

/-- Two cursors, perhaps at other offsets, before texts that are padded. -/
def Cursor.Alike (c c' : Cursor) : Prop := Padded c.rest c'.rest

/-- The same is read from two cursors. -/
abbrev Reading.Alike {α : Type} : Reading α → Reading α → Prop := InStep Eq Cursor.Alike

theorem Reading.alike_fail {α : Type} (c c' : Cursor) (span span' : Span) (fault : Fault) :
    Reading.Alike (.fail c span fault : Reading α) (.fail c' span' fault) :=
  .error

theorem Padded.quoteFrom {t t' : List Char} (h : Padded t t') (done : List Char) (pos pos' : Nat) :
    Reading.Alike (quoteFrom done pos t) (quoteFrom done pos' t') := by
  fun_induction ClassLang.quoteFrom done pos t generalizing t' pos' with
  | case1 =>
    obtain rfl := h.eq_nil
    exact Reading.alike_fail ..
  | case2 | case3 =>
    obtain ⟨rest', rfl, hrest⟩ := h.tail (by decide)
    exact .ok rfl hrest
  | case4 =>
    obtain ⟨rest', rfl⟩ := h.exists_cons
    exact Reading.alike_fail ..
  | case5 =>
    obtain ⟨rest', rfl, hrest⟩ := h.tail (by decide)
    obtain rfl := hrest.eq_nil
    exact Reading.alike_fail ..
  | case6 done pos c rest meant hmeant ih =>
    obtain ⟨behind, rfl, hbehind⟩ := h.tail (by decide)
    -- no escape stands for a line break
    have hc : c ≠ '\n' := by
      rintro rfl
      cases hmeant
    obtain ⟨rest', rfl, hrest⟩ := hbehind.tail hc
    rw [ClassLang.quoteFrom, hmeant]
    exact ih hrest _
  | case7 done pos c rest hmeant =>
    obtain ⟨behind, rfl, hbehind⟩ := h.tail (by decide)
    obtain ⟨rest', rfl⟩ := hbehind.exists_cons
    rw [ClassLang.quoteFrom, hmeant]
    exact Reading.alike_fail ..
  | case8 done pos c rest hquote hbrace hbreak hlast hescape ih =>
    obtain ⟨rest', rfl, hrest⟩ := h.tail hbreak
    -- a backslash is refused or starts an escape
    have hslash : c ≠ '\\' := by
      rintro rfl
      cases rest with
      | nil => exact hlast rfl rfl
      | cons d rest => exact hescape d rest rfl rfl
    have hplain : QuoteText [c] [c] := by
      refine .plain ?_ .nil
      simp only [mem_cons, not_mem_nil, or_false, not_or]
      exact ⟨hquote, hbrace, hbreak, hslash⟩
    rw [← singleton_append (l := rest'), quoteFrom_text hplain]
    exact ih hrest _

/-- A word is read alike from padded texts: it does not leave the line, and is read by itself. -/
theorem Padded.readWord {t t' : List Char} (h : Padded t t') (first : Char) (pos pos' : Nat) :
    Reading.Alike (readWord pos first ⟨t, pos + first.utf8Size, 0⟩)
      (readWord pos' first ⟨t', pos' + first.utf8Size, 0⟩) := by
  by_cases hquote : first = '"'
  · subst hquote
    have hpart : Reading.Alike (readQuotePart ⟨t, _, 0⟩) (readQuotePart ⟨t', _, 0⟩) :=
      h.quoteFrom [] (pos + '"'.utf8Size) (pos' + '"'.utf8Size)
    rw [readWord_mark, readWord_mark]
    generalize readQuotePart ⟨t, _, 0⟩ = part at hpart
    generalize readQuotePart ⟨t', _, 0⟩ = part' at hpart
    cases hpart with
    | ok hsame hbehind =>
      subst hsame
      exact .ok rfl hbehind
    | error => exact .error
  · have hword : t.takeWhile isWordChar = t'.takeWhile isWordChar := h.takeWhile_eq rfl
    rw [readWord_eq_placed hquote, readWord_eq_placed hquote, ← hword]
    rcases ClassLang.readWord 0 first _ with ⟨e | token, behind⟩
    · exact .error
    · exact .ok rfl ((h.dropWhile rfl).append behind.rest)

/-! ## Lexers -/

namespace Lexer

/-- Two lexers that have read the same, of texts that are padded. Before its first token a lexer is at
the start of a line. -/
structure Alike (l l' : Lexer) : Prop where
  indent : l.indent = l'.indent
  owed : l.owed = l'.owed
  started : l.started = l'.started
  text : if l.started then l.cursor.Alike l'.cursor else l.cursor.AtLines l'.cursor

/-- The same token, perhaps at another place. -/
abbrev SameToken (a b : Lexed) : Prop := a.token = b.token

variable {l l' : Lexer}

theorem Alike.of_started {c c' : Cursor} (h : c.Alike c') (indent owed : Nat) :
    Alike ⟨c, indent, owed, true⟩ ⟨c', indent, owed, true⟩ := ⟨rfl, rfl, rfl, h⟩

/-- Going to a line fails in both texts, or leads to lines that are equally deep. -/
theorem toLine_cases (h : l.cursor.AtLines l'.cursor) :
    (∃ span span' fault m m', l.toLine = (.error ⟨span, fault⟩, m) ∧
      l'.toLine = (.error ⟨span', fault⟩, m')) ∨
    ∃ start start' c c' depth, l.toLine = (.ok start, { l with cursor := c }) ∧
      l'.toLine = (.ok start', { l' with cursor := c' }) ∧ c.Alike c' ∧
      c.pos = start + depth ∧ c'.pos = start' + depth := by
  obtain ⟨htext, depth, hpos, hpos'⟩ := h.toLine
  have hnext : l.cursor.toLine.2.next? = l'.cursor.toLine.2.next? := htext.head?_eq
  unfold toLine
  dsimp only
  rw [hnext]
  split
  · exact .inl ⟨_, _, _, _, _, rfl, rfl⟩
  · exact .inr ⟨_, _, _, _, depth, rfl, rfl, htext, hpos, hpos'⟩

theorem lineToken_inStep (h : l.cursor.AtLines l'.cursor) (hindent : l.indent = l'.indent)
    (howed : l.owed = l'.owed) (hstarted : l.started = true) (hstarted' : l'.started = true) :
    InStep SameToken Alike l.lineToken l'.lineToken := by
  obtain ⟨cursor, indent, owed, started⟩ := l
  obtain ⟨cursor', indent', owed', started'⟩ := l'
  obtain rfl : indent = indent' := hindent
  obtain rfl : owed = owed' := howed
  obtain rfl : started = true := hstarted
  obtain rfl : started' = true := hstarted'
  unfold lineToken
  rcases toLine_cases h with ⟨span, span', fault, m, m', hline, hline'⟩ |
    ⟨start, start', c, c', depth, hline, hline', hc, hpos, hpos'⟩
  · rw [hline, hline']
    exact .error
  rw [hline, hline']
  have hdepth : c.pos - start = depth := by omega
  have hdepth' : c'.pos - start' = depth := by omega
  simp only [Lexer.pos, hdepth, hdepth']
  split
  · exact .ok rfl (.of_started hc ..)
  split
  · exact .ok rfl (.of_started hc ..)
  · split
    · exact .ok rfl (.of_started hc ..)
    · exact .error

theorem Alike.endToken {c c' : Cursor} (h : c.Alike c') (indent owed : Nat) :
    InStep SameToken Alike (endToken ⟨c, indent, owed, true⟩) (endToken ⟨c', indent, owed, true⟩) := by
  unfold Lexer.endToken
  dsimp only
  split
  · exact .ok rfl (.of_started h ..)
  · exact .ok rfl (.of_started h ..)

/-- Within a line the same word is read, and the end of the line leads to the same next line. -/
theorem Alike.lineWord {c c' : Cursor} (h : c.Alike c') (indent owed : Nat) :
    InStep SameToken Alike (lineWord ⟨c, indent, owed, true⟩) (lineWord ⟨c', indent, owed, true⟩) := by
  have hfirst : c.mend.next? = c'.mend.next? := h.head?_eq
  have hspaced : (c.mend.skipWhile (· = ' ')).Alike (c'.mend.skipWhile (· = ' ')) :=
    Padded.dropWhile h rfl
  unfold Lexer.lineWord
  dsimp only
  rw [hfirst]
  generalize c.mend.skipWhile (· = ' ') = spaced at hspaced
  generalize c'.mend.skipWhile (· = ' ') = spaced' at hspaced
  have hnext : spaced.next? = spaced'.next? := hspaced.head?_eq
  rw [hnext]
  split
  · exact .error
  -- a comment is passed over up to the end of its line
  have hpassed : Cursor.Alike
      (if spaced'.next? = some '|' then spaced.skipWhile (· ≠ '\n') else spaced)
      (if spaced'.next? = some '|' then spaced'.skipWhile (· ≠ '\n') else spaced') := by
    split
    · exact Padded.dropWhile hspaced rfl
    · exact hspaced
  generalize (if spaced'.next? = some '|' then spaced.skipWhile (· ≠ '\n') else spaced) = d
    at hpassed
  generalize (if spaced'.next? = some '|' then spaced'.skipWhile (· ≠ '\n') else spaced') = d'
    at hpassed
  obtain ⟨rest, pos, torn⟩ := d
  obtain ⟨rest', pos', torn'⟩ := d'
  have htext : Padded rest rest' := hpassed
  dsimp only
  split
  · obtain rfl := htext.eq_nil
    exact endToken hpassed ..
  · obtain ⟨rest', rfl⟩ := htext.exists_cons
    exact lineToken_inStep htext rfl rfl rfl rfl
  · next ch rest hbreak =>
    obtain ⟨rest', rfl, htail⟩ := htext.tail hbreak
    have hword := htail.readWord ch pos pos'
    generalize readWord pos ch ⟨rest, pos + ch.utf8Size, 0⟩ = word at hword
    generalize hread : readWord pos' ch ⟨rest', pos' + ch.utf8Size, 0⟩ = word' at hword
    cases hword with
    | ok htoken hbehind =>
      dsimp only
      split
      · next hnil => cases hnil
      · next hcons => exact absurd (List.cons.inj hcons).1 hbreak
      · next hcons =>
        cases hcons
        rw [hread]
        exact .ok htoken (.of_started hbehind ..)
    | error =>
      dsimp only
      split
      · next hnil => cases hnil
      · next hcons => exact absurd (List.cons.inj hcons).1 hbreak
      · next hcons =>
        cases hcons
        rw [hread]
        exact .error

theorem Alike.startedToken {c c' : Cursor} (h : c.Alike c') (indent owed : Nat) :
    InStep SameToken Alike (startedToken ⟨c, indent, owed, true⟩)
      (startedToken ⟨c', indent, owed, true⟩) := by
  unfold Lexer.startedToken
  dsimp only
  split
  · exact lineWord h ..
  · exact .ok rfl (.of_started h ..)

/-- **One token.** Lexers that are alike give the same token and stay alike, or fail alike. -/
theorem Alike.nextToken (h : l.Alike l') : InStep SameToken Alike l.nextToken l'.nextToken := by
  obtain ⟨cursor, indent, owed, started⟩ := l
  obtain ⟨cursor', indent', owed', started'⟩ := l'
  obtain ⟨hindent, howed, hstarted, htext⟩ := h
  obtain rfl : indent = indent' := hindent
  obtain rfl : owed = owed' := howed
  obtain rfl : started = started' := hstarted
  unfold Lexer.nextToken
  cases started with
  | true => exact startedToken htext ..
  | false =>
    dsimp only
    rcases @toLine_cases ⟨cursor.mend, indent, owed, true⟩ ⟨cursor'.mend, indent, owed, true⟩
        htext with
      ⟨span, span', fault, m, m', hline, hline'⟩ |
      ⟨start, start', c, c', depth, hline, hline', hc, hpos, hpos'⟩
    · rw [if_neg Bool.false_ne_true, if_neg Bool.false_ne_true, hline, hline']
      exact .error
    rw [if_neg Bool.false_ne_true, if_neg Bool.false_ne_true, hline, hline']
    -- the first line is not deep in the one text exactly when it is not deep in the other
    have hflat : (start = c.pos) = (depth = 0) := by simp only [hpos]; grind
    have hflat' : (start' = c'.pos) = (depth = 0) := by simp only [hpos']; grind
    simp only [Lexer.pos, hflat, hflat']
    split
    · exact startedToken hc ..
    · exact .error

/-- The text of a quote behind a hole is read alike. -/
theorem Alike.nextQuotePart (h : l.Alike l') (hstarted : l.started = true) :
    InStep Eq Alike l.nextQuotePart l'.nextQuotePart := by
  obtain ⟨cursor, indent, owed, started⟩ := l
  obtain ⟨cursor', indent', owed', started'⟩ := l'
  obtain ⟨hindent, howed, hstarted', htext⟩ := h
  obtain rfl : indent = indent' := hindent
  obtain rfl : owed = owed' := howed
  obtain rfl : started = true := hstarted
  obtain rfl : true = started' := hstarted'
  have hpart : Reading.Alike (readQuotePart cursor.mend) (readQuotePart cursor'.mend) :=
    Padded.quoteFrom htext ..
  unfold Lexer.nextQuotePart
  dsimp only
  generalize readQuotePart cursor.mend = part at hpart
  generalize readQuotePart cursor'.mend = part' at hpart
  cases hpart with
  | ok hpart hbehind => exact .ok hpart (.of_started hbehind ..)
  | error => exact .error

end Lexer

/-! ## Listings -/

/-- Two outcomes of reading a text: results that `R` relates, or faults for the same cause. -/
inductive SameOutcome {α : Type} (R : α → α → Prop) :
    Except CompileError α → Except CompileError α → Prop where
  | ok {a b : α} (result : R a b) : SameOutcome R (.ok a) (.ok b)
  | error {span span' : Span} {fault : Fault} :
      SameOutcome R (.error ⟨span, fault⟩) (.error ⟨span', fault⟩)

/-- The same tokens in the same order, perhaps at other places. -/
def SameTokens (ts us : List Lexed) : Prop := ts.map Lexed.token = us.map Lexed.token

theorem SameTokens.cons {a b : Lexed} {ts us : List Lexed} (h : a.token = b.token)
    (rest : SameTokens ts us) : SameTokens (a :: ts) (b :: us) := by
  rw [SameTokens, map_cons, map_cons, h, rest]

theorem SameOutcome.map {α β : Type} {R : α → α → Prop} {S : β → β → Prop} {f g : α → β}
    {x y : Except CompileError α} (h : SameOutcome R x y) (hfg : ∀ a b, R a b → S (f a) (g b)) :
    SameOutcome S (f <$> x) (g <$> y) := by
  cases h with
  | ok result => exact .ok (hfg _ _ result)
  | error => exact .error

/-- **A listing.** The induction is on the bound of one listing; both bounds suffice, however many
lines without code there are. -/
theorem tokensFrom_sameOutcome {l l' : Lexer} (h : l.Alike l') (clean : l.Clean) (clean' : l'.Clean)
    {bound bound' : Nat} (hbound : l.measure < bound) (hbound' : l'.measure < bound') (holes : Nat) :
    SameOutcome SameTokens (tokensFrom bound holes l) (tokensFrom bound' holes l') := by
  induction bound generalizing holes l l' bound' with
  | zero => cases hbound
  | succ bound ih =>
    cases bound' with
    | zero => cases hbound'
    | succ bound' =>
      rw [tokensFrom, tokensFrom]
      have hstep := h.nextToken
      rcases hnext : l.nextToken with ⟨e | lexed, behind⟩ <;>
        rcases hnext' : l'.nextToken with ⟨e' | lexed', behind'⟩ <;>
        rw [hnext, hnext'] at hstep
      · cases hstep
        exact .error
      · cases hstep
      · cases hstep
      · cases hstep with
        | ok htoken hbehind =>
        have gives := (Lexer.nextToken_eq_ok_iff clean).1 hnext
        have gives' := (Lexer.nextToken_eq_ok_iff clean').1 hnext'
        -- behind a token that does not end the text both listings go on alike
        have goesOn : ∀ holes, lexed.token ≠ .eof → SameOutcome SameTokens
            ((lexed :: ·) <$> tokensFrom bound holes behind)
            ((lexed' :: ·) <$> tokensFrom bound' holes behind') := by
          intro holes hne
          have hless := gives.measure_lt hne
          have hless' := gives'.measure_lt (htoken ▸ hne)
          exact (ih hbehind (gives.clean clean) (gives'.clean clean') (by omega) (by omega)
            holes).map fun _ _ hrest => .cons htoken hrest
        dsimp only
        rw [← htoken]
        split
        · exact .ok rfl
        · next heq => exact goesOn _ (heq ▸ Token.noConfusion)
        · next heq =>
          have hne : lexed.token ≠ .eof := heq ▸ Token.noConfusion
          split
          · exact goesOn _ hne
          -- the text of the quote goes on behind the hole
          have hpart := hbehind.nextQuotePart gives.started
          rcases hquote : behind.nextQuotePart with ⟨e | part, last⟩ <;>
            rcases hquote' : behind'.nextQuotePart with ⟨e' | part', last'⟩ <;>
            rw [hquote, hquote'] at hpart
          · cases hpart
            exact .error
          · cases hpart
          · cases hpart
          · cases hpart with
            | ok hsame hlast =>
            obtain rfl : part = part' := hsame
            obtain ⟨cleanLast, hlt⟩ :=
              Lexer.clean_of_nextQuotePart (gives.clean clean) hquote
            obtain ⟨cleanLast', hlt'⟩ :=
              Lexer.clean_of_nextQuotePart (gives'.clean clean') hquote'
            have hless := gives.measure_lt hne
            have hless' := gives'.measure_lt (htoken ▸ hne)
            exact (ih hlast cleanLast cleanLast' (by omega) (by omega) _).map
              fun _ _ hrest => .cons htoken (.cons rfl hrest)
        · next hne _ _ => exact goesOn _ hne

/-! ## Texts with a line more -/

/-- In front of every line there is a line break, if one is put in front of the text. -/
theorem Lined.exists_break {cs : List Char} (h : Lined cs) : ∃ v, '\n' :: cs = v ++ ['\n'] := by
  rcases h with rfl | h
  · exact ⟨[], rfl⟩
  · obtain ⟨v, rfl⟩ := getLast?_eq_some_iff.1 h
    exact ⟨'\n' :: v, rfl⟩

theorem Lexer.normalized_append (a : String) {b : String} (hb : b.toList ≠ []) :
    normalized (a ++ b) = a.toList ++ normalized b := by
  have hlast : (a ++ b).toList.getLast? = b.toList.getLast? := by
    rw [String.toList_append, getLast?_append]
    cases hlast : b.toList.getLast? with
    | none => exact absurd (getLast?_eq_none_iff.1 hlast) hb
    | some c => rfl
  unfold normalized
  rw [hlast, String.toList_append]
  split
  · rfl
  · exact append_assoc ..

theorem tokens_sameOutcome {source source' : String}
    (h : Padded ('\n' :: Lexer.normalized source) ('\n' :: Lexer.normalized source')) :
    SameOutcome SameTokens (tokens source) (tokens source') := by
  have halike : (Lexer.ofText source).Alike (Lexer.ofText source') := ⟨rfl, rfl, rfl, h⟩
  exact tokensFrom_sameOutcome halike (Lexer.clean_ofText source) (Lexer.clean_ofText source')
    (Nat.lt_succ_self _) (Nat.lt_succ_self _) 0

/-- **A line without code does not count.** Put in between two lines of a text, or at its start or
its end, a line of tabs and perhaps a comment changes neither the tokens of the text nor the cause
for which it cannot be read. -/
theorem tokens_insert_blank {a line : String} (b : String) (ha : Lined a.toList)
    (hline : ∃ tabs comment, Comment comment ∧
      line.toList = List.replicate tabs '\t' ++ (comment ++ ['\n'])) :
    SameOutcome SameTokens (tokens (a ++ line ++ b)) (tokens (a ++ b)) := by
  obtain ⟨tabs, comment, hcomment, hline⟩ := hline
  have hblank : BlankLines line.toList := hline ▸ .line hcomment .nil
  apply tokens_sameOutcome
  obtain ⟨v, hv⟩ := ha.exists_break
  by_cases hb : b.toList = []
  · obtain rfl : b = "" := String.toList_inj.1 hb
    have hended : line.toList.getLast? = some '\n' := by simp [hline]
    have hlong : Lexer.normalized (a ++ line) = a.toList ++ line.toList := by
      rw [Lexer.normalized_append a (by simp [hline]), Lexer.normalized, if_pos hended]
    rw [String.append_empty, String.append_empty, hlong]
    rcases ha with ha | ha
    · -- a text without lines is read as one empty line
      obtain rfl : a = "" := String.toList_inj.1 ha
      have hempty : BlankLines (List.replicate 0 '\t' ++ ([] ++ ['\n'])) := .line .none .nil
      have hpadded := Padded.lines hblank hempty .nil
      rw [append_nil] at hpadded
      exact hpadded
    · have hshort : Lexer.normalized a = a.toList := if_pos ha
      have hpadded := (Padded.lines hblank .nil .nil).append v
      rw [hshort, ← cons_append, hv, append_assoc]
      rw [append_nil] at hpadded
      exact hpadded
  · rw [Lexer.normalized_append _ hb, Lexer.normalized_append _ hb, String.toList_append,
      append_assoc, ← cons_append, ← cons_append, hv, append_assoc,
      append_assoc]
    exact (Padded.lines hblank .nil (.refl _)).append v

/-- A deep comment in front of a hole that is never closed. -/
theorem tokens_insert_blank_comment :
    Lined "a\n\tb\n".toList ∧ SameOutcome SameTokens
      (tokens ("a\n\tb\n" ++ "\t\t\t| note\n" ++ "c \"d\x7be")) (tokens ("a\n\tb\n" ++ "c \"d\x7be")) :=
  ⟨.inr rfl, tokens_insert_blank _ (.inr rfl) ⟨3, "| note".toList, .bar (by decide), rfl⟩⟩

end ClassLang
