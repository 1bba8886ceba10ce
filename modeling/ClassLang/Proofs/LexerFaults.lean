import ClassLang.Proofs.NestedPlaces
import ClassLang.Proofs.TextLines

/-!
# Where the faults of the lexer are

A fault that the lexer finds has its place in the text: it begins before it ends, and it ends within
the text. `Lexer.In` says that a lexer stands in a text, and the moves of the lexer keep it
(`Gives.in`). A text ends its last line, so no word, number or quote is cut off by the end of the
text, and the faults that look one character ahead find one. The main statement is `tokens_error`,
about all tokens of a text.
-/

set_option autoImplicit false

namespace ClassLang

open List

/-! ## Faults of the lexer -/

/-- The faults that a lexer finds. The parser has none of them. -/
def Fault.isLexical : Fault → Bool
  | .leadingSpace => true
  | .trailingSpace => true
  | .tooMuchIndent => true
  | .unrecognizedCharacter _ => true
  | .missingFractionDigits => true
  | .numberOutOfRange _ => true
  | .unterminatedQuote => true
  | .badEscape _ => true
  | _ => false

/-- A fault of the lexer. If `whole` holds, it has its place in a text of `n` bytes. -/
structure CompileError.LexicalIn (whole : Prop) (n : Nat) (e : CompileError) : Prop where
  isLexical : e.fault.isLexical = true
  inside : whole → e.span.Inside n

theorem CompileError.LexicalIn.imp {whole whole' : Prop} {m n : Nat} {e : CompileError}
    (h : e.LexicalIn whole m) (hwhole : whole' → whole ∧ m ≤ n) : e.LexicalIn whole' n :=
  ⟨h.isLexical, fun h' => (h.inside (hwhole h').1).mono (hwhole h').2⟩

/-! ## Where the lexer stands -/

/-- The cursor has passed over some of the text. -/
def Cursor.Past (c c' : Cursor) : Prop :=
  ∃ passed, c.rest = passed ++ c'.rest ∧ c'.pos = c.pos + byteLength passed

namespace Cursor

variable {c c' c'' : Cursor} {p : Char → Bool}

theorem past_skipWhile (c : Cursor) (p : Char → Bool) : c.Past (c.skipWhile p) :=
  ⟨c.rest.takeWhile p, takeWhile_append_dropWhile.symm, rfl⟩

theorem past_char (c : Char) (rest : List Char) (pos torn : Nat) :
    Past ⟨c :: rest, pos, torn⟩ ⟨rest, pos + c.utf8Size, 0⟩ :=
  ⟨[c], rfl, rfl⟩

theorem Past.trans (h : c.Past c') (h' : c'.Past c'') : c.Past c'' := by
  obtain ⟨passed, hrest, hpos⟩ := h
  obtain ⟨passed', hrest', hpos'⟩ := h'
  refine ⟨passed ++ passed', ?_, ?_⟩
  · rw [hrest, hrest', append_assoc]
  · rw [hpos', hpos, byteLength_append, Nat.add_assoc]

theorem Past.le (h : c.Past c') : c.pos ≤ c'.pos := by
  obtain ⟨passed, -, hpos⟩ := h
  exact hpos ▸ Nat.le_add_right _ _

theorem Past.length (h : c.Past c') : c'.pos + byteLength c'.rest = c.pos + byteLength c.rest := by
  obtain ⟨passed, hrest, hpos⟩ := h
  rw [hrest, hpos, byteLength_append, Nat.add_assoc]

/-- The end of a line is not passed over. -/
theorem newline_mem_skipWhile (hp : p '\n' = false) (h : '\n' ∈ c.rest) :
    '\n' ∈ (c.skipWhile p).rest := by
  rw [← takeWhile_append_dropWhile (p := p) (l := c.rest)] at h
  rcases mem_append.1 h with hmem | hmem
  · have htrue := all_eq_true.1 all_takeWhile _ hmem
    rw [hp] at htrue
    cases htrue
  · exact hmem

end Cursor

/-- The lexer stands in the text, between two characters. -/
structure Lexer.In (text : List Char) (l : Lexer) : Prop where
  clean : l.Clean
  read : ∃ before, text = before ++ l.cursor.rest ∧ byteLength before = l.pos

namespace Lexer

variable {text : List Char} {l l' : Lexer} {lexed : Lexed}

theorem in_ofText (source : String) : (ofText source).In (normalized source) :=
  ⟨clean_ofText source, [], rfl, rfl⟩

theorem In.boundary (h : l.In text) : Boundary text l.pos := by
  obtain ⟨before, htext, hpos⟩ := h.read
  exact ⟨before, _, htext, hpos⟩

theorem In.length (h : l.In text) : l.pos + byteLength l.cursor.rest = byteLength text := by
  obtain ⟨before, htext, hpos⟩ := h.read
  rw [htext, byteLength_append, hpos]

theorem In.mend (h : l.In text) : l.cursor.mend = l.cursor := by
  have htorn : l.cursor.torn = 0 := h.clean.1
  rw [Cursor.mend, htorn, Nat.add_zero, ← htorn]

theorem In.past (h : l.In text) {c : Cursor} (hpast : l.cursor.mend.Past c) :
    In text { l with cursor := ⟨c.rest, c.pos, 0⟩ } := by
  rw [h.mend] at hpast
  obtain ⟨⟨-, lined⟩, before, htext, hpos⟩ := h
  obtain ⟨passed, hrest, hpos'⟩ := hpast
  rw [hrest] at htext lined
  refine ⟨⟨rfl, lined.of_append⟩, before ++ passed, by rw [htext, append_assoc], ?_⟩
  rw [byteLength_append, hpos]
  exact hpos'.symm

/-- At the end of the text the lexer stays where it is. -/
theorem Gives.eq_of_eof (h : l.Gives lexed l') (heof : lexed.token = .eof) :
    ∃ pos, l' = ⟨⟨[], pos, 0⟩, 0, 0, true⟩ ∧ lexed = ⟨.eof, .emptyAt pos⟩ := by
  induction h with
  | owed => cases heof
  | word h => exact absurd heof h.ne_eof
  | lineBreak => exact absurd heof (breakToken_ne_eof _ _)
  | close => cases heof
  | eof => exact ⟨_, rfl, rfl⟩
  | start _ _ _ ih => exact ih heof

/-- One move leads on in the text, and the token is there as it is written. -/
theorem Gives.in (h : l.Gives lexed l') (hl : l.In text) : l'.In text ∧
    (lexed.token ≠ .eof → ∃ word, TextAt text lexed.span word ∧ lexed.token.WrittenAs word) := by
  -- the move where the depth of the first line is known
  have started : ∀ {l : Lexer}, l.Gives lexed l' → l.In text → l.started = true → l'.In text ∧
      (lexed.token ≠ .eof → ∃ word, TextAt text lexed.span word ∧ lexed.token.WrittenAs word) := by
    intro l h hl started
    by_cases heof : lexed.token = .eof
    · cases h with
      | eof => exact ⟨hl, fun hne => absurd heof hne⟩
      | owed => cases heof
      | word hw => exact absurd heof hw.ne_eof
      | lineBreak => exact absurd heof (breakToken_ne_eof _ _)
      | close => cases heof
      | start => cases started
    obtain ⟨passed, word, covers⟩ := h.covers started heof
    obtain ⟨before, htext, hpos⟩ := hl.read
    rw [covers.text] at htext
    refine ⟨⟨h.clean hl.clean, before ++ (passed ++ word), ?_, ?_⟩, fun _ =>
      ⟨word, ⟨before ++ passed, l'.cursor.rest, ?_, ?_, ?_⟩, covers.written⟩⟩
    · rw [htext, append_assoc, append_assoc]
    · rw [byteLength_append, byteLength_append, hpos, covers.pos, Nat.add_assoc]
    · rw [htext, append_assoc]
    · rw [covers.span, byteLength_append, hpos]
    · rw [covers.span, byteLength_append, hpos]
  cases hstarted : l.started with
  | true => exact started h hl hstarted
  | false =>
    cases h with
    | @start blank code pos indent owed lexed l hblank hcode h =>
      obtain ⟨before, htext, hpos⟩ := hl.read
      refine started h ⟨⟨rfl, hl.clean.2.of_append⟩, before ++ blank, ?_, ?_⟩ rfl
      · rw [htext, append_assoc]
      · rw [byteLength_append, hpos]
        rfl
    | _ => cases hstarted

theorem In.quotePart {part : QuotePart} (hl : l.In text) (h : l.nextQuotePart = (.ok part, l')) :
    l'.In text ∧ l.pos ≤ l'.pos := by
  obtain ⟨w, t, -, hrest, -, hnext⟩ := (nextQuotePart_eq_ok_iff hl.clean).1 h
  obtain ⟨before, htext, hpos⟩ := hl.read
  have hend : (quoteEnd part.isEnd).utf8Size = 1 := by cases part.isEnd <;> rfl
  have hpos' : l'.pos = l.pos + byteLength w + 1 := congrArg (·.cursor.pos) hnext
  refine ⟨⟨(clean_of_nextQuotePart hl.clean h).1, before ++ (w ++ [quoteEnd part.isEnd]), ?_, ?_⟩, ?_⟩
  · rw [htext, hrest]
    simp
  · rw [byteLength_append, byteLength_append, byteLength_cons, byteLength_nil, hend, hpos, hpos']
    omega
  · omega

end Lexer

section Lexing

variable {e : CompileError}

/-- Quote text has no fault behind the end of its line. -/
theorem quoteFrom_error {done rest : List Char} {pos : Nat}
    (h : (quoteFrom done pos rest).1 = .error e) :
    e.LexicalIn ('\n' ∈ rest) (pos + byteLength rest) := by
  have hbackslash : '\\'.utf8Size = 1 := rfl
  fun_induction quoteFrom done pos rest with
  | case1 =>
    cases h
    exact ⟨rfl, fun ends => absurd ends not_mem_nil⟩
  | case2 => cases h
  | case3 => cases h
  | case4 done pos rest =>
    cases h
    refine ⟨rfl, fun _ => ⟨Nat.le_succ _, ?_⟩⟩
    simp only [Span.single, byteLength_cons, utf8Size_newline]
    omega
  | case5 =>
    cases h
    exact ⟨rfl, fun ends => by simp at ends⟩
  | case6 done pos c rest meant hmeant ih =>
    have hne : '\n' ≠ c := by
      rintro rfl
      cases hmeant
    have hsize := c.utf8Size_pos
    refine (ih h).imp fun ends => ⟨by simpa [hne] using ends, ?_⟩
    simp only [byteLength_cons]
    omega
  | case7 done pos c rest hmeant =>
    cases h
    have hsize := c.utf8Size_pos
    refine ⟨rfl, fun _ => ⟨Nat.le_add_right _ _, ?_⟩⟩
    simp only [byteLength_cons]
    omega
  | case8 done pos c rest _ _ hne _ _ ih =>
    refine (ih h).imp fun ends => ⟨(mem_cons.1 ends).resolve_left (Ne.symm hne), ?_⟩
    rw [byteLength_cons, Nat.add_assoc]

/-- A number is read up to a place behind it, also where it has a fault. -/
theorem readNumber_place {start : Nat} {first : Char} {c : Cursor} (hstart : start ≤ c.pos) :
    c.Past (readNumber start first c).2 ∧ ∀ e, (readNumber start first c).1 = .error e →
      e.LexicalIn ('\n' ∈ c.rest) (c.pos + byteLength c.rest) := by
  have hliteral : ∀ {text value?} {c' : Cursor}, c.Past c' →
      c.Past (numberLiteral start text value? c').2 ∧
        ∀ e, (numberLiteral start text value? c').1 = .error e →
          e.LexicalIn ('\n' ∈ c.rest) (c.pos + byteLength c.rest) := by
    intro text value? c' hpast
    cases value? with
    | none =>
      refine ⟨hpast, ?_⟩
      rintro e ⟨⟩
      exact ⟨rfl, fun _ => ⟨hstart.trans hpast.le, hpast.length ▸ Nat.le_add_right _ _⟩⟩
    | some value => exact ⟨hpast, nofun⟩
  have hpast := c.past_skipWhile Char.isDigit
  have hends : '\n' ∈ c.rest → '\n' ∈ (c.skipWhile Char.isDigit).rest :=
    Cursor.newline_mem_skipWhile rfl
  unfold readNumber
  dsimp only
  generalize c.skipWhile Char.isDigit = behind at hpast hends ⊢
  obtain ⟨left, pos, torn⟩ := behind
  split
  · next left hleft =>
    obtain rfl : _ = '.' :: left := hleft
    have hpoint : c.Past ⟨left, pos + 1, 0⟩ := hpast.trans (Cursor.past_char ..)
    split
    · exact hliteral hpast
    split
    · exact hliteral (hpoint.trans (Cursor.past_skipWhile ..))
    -- the line ends behind the point, so there is something behind it
    refine ⟨hpoint, ?_⟩
    rintro e ⟨⟩
    refine ⟨rfl, fun ends => ⟨Nat.le_succ _, ?_⟩⟩
    rw [← hpoint.length]
    cases left with
    | nil => simpa using hends ends
    | cons d left => exact Nat.add_le_add_left (d.utf8Size_pos.trans_le (Nat.le_add_right _ _)) _
  · exact hliteral hpast

/-- The faults at a word: in a quote, in a number, or a character with which no word begins. -/
theorem readWord_error {start pos : Nat} {first : Char} {rest : List Char}
    (hstart : start + first.utf8Size = pos)
    (h : (readWord start first ⟨rest, pos, 0⟩).1 = .error e) :
    e.LexicalIn ('\n' ∈ rest) (pos + byteLength rest) := by
  unfold readWord at h
  split at h
  · cases h
  split at h
  · split at h <;> cases h
  split at h
  · split at h
    · cases h
    · next hread =>
      cases h
      exact quoteFrom_error (congrArg Prod.fst hread)
  split at h
  · exact (readNumber_place (hstart ▸ Nat.le_add_right _ _)).2 e h
  split at h
  · cases h
  split at h
  · cases h
  split at h
  · cases h
  · cases h
    exact ⟨rfl, fun _ => ⟨Nat.le_add_right _ _, hstart ▸ Nat.le_add_right _ _⟩⟩

namespace Lexer

variable {text : List Char} {l : Lexer}

/-- Going to a line passes over some of the text. -/
theorem In.toLine (h : l.In text) : l.toLine.2.In text ∧
    (∀ start, l.toLine.1 = .ok start → start ≤ l.toLine.2.pos) ∧
      ∀ e, l.toLine.1 = .error e → e.span.Inside (byteLength text) := by
  obtain ⟨⟨rest, pos, torn⟩, indent, owed, started⟩ := l
  obtain rfl : torn = 0 := h.clean.1
  obtain ⟨blank, tabs, code, rfl, hblank, hcode⟩ := exists_lines rest h.clean.2
  have hin : In text ⟨⟨code, pos + byteLength blank + tabs, 0⟩, indent, owed, started⟩ := by
    refine h.past (c := ⟨code, _, 0⟩) ⟨blank ++ replicate tabs '\t', ?_, ?_⟩
    · exact (append_assoc ..).symm
    · rw [byteLength_append, byteLength_replicate utf8Size_tab, ← Nat.add_assoc]
      rfl
  unfold Lexer.toLine
  rw [Cursor.toLine_lines hblank hcode]
  dsimp only
  split
  · next hspace =>
    refine ⟨hin, nofun, ?_⟩
    rintro e ⟨⟩
    -- the space itself is still in the text
    obtain ⟨more, rfl⟩ := head?_eq_some_iff.1 hspace
    have hlength := hin.length
    rw [byteLength_cons, utf8Size_space] at hlength
    dsimp only [Lexer.pos] at hlength
    exact ⟨by dsimp only; omega, by dsimp only; omega⟩
  · refine ⟨hin, ?_, nofun⟩
    rintro start ⟨⟩
    exact Nat.le_add_right _ _

theorem toLine_error (h : l.toLine.1 = .error e) : e.LexicalIn (l.In text) (byteLength text) := by
  refine ⟨?_, fun hin => hin.toLine.2.2 e h⟩
  unfold toLine at h
  split at h
  split at h <;> cases h
  rfl

theorem lineToken_error (h : l.lineToken.1 = .error e) :
    e.LexicalIn (l.In text) (byteLength text) := by
  unfold lineToken at h
  split at h
  · next e' l' hline =>
    obtain rfl : e' = e := by simpa using h
    exact toLine_error (congrArg Prod.fst hline)
  · next start l' hline =>
    dsimp only at h
    split at h
    · cases h
    split at h
    · cases h
    split at h
    · cases h
    cases h
    refine ⟨rfl, fun hin => ?_⟩
    obtain ⟨hin, hstart, -⟩ := hin.toLine
    rw [hline] at hin hstart
    exact ⟨hstart start rfl, hin.boundary.le⟩

theorem lineWord_error (h : l.lineWord.1 = .error e) :
    e.LexicalIn (l.In text) (byteLength text) := by
  unfold lineWord at h
  dsimp only at h
  have hspaced := l.cursor.mend.past_skipWhile (· = ' ')
  generalize l.cursor.mend.skipWhile (· = ' ') = spaced at h hspaced
  split at h
  · cases h
    exact ⟨rfl, fun hin => ⟨Nat.sub_le _ _, (hin.past hspaced).boundary.le⟩⟩
  -- a comment is passed over as well
  have hpast : l.cursor.mend.Past
      (if spaced.next? = some '|' then spaced.skipWhile (· ≠ '\n') else spaced) := by
    split
    · exact hspaced.trans (spaced.past_skipWhile _)
    · exact hspaced
  generalize (if spaced.next? = some '|' then spaced.skipWhile (· ≠ '\n') else spaced) = c
    at h hpast
  obtain ⟨rest, pos, torn⟩ := c
  dsimp only at h
  split at h
  · -- the end of the text is no fault
    dsimp only [endToken] at h
    split at h <;> cases h
  · next rest =>
    exact (lineToken_error h).imp fun hin =>
      ⟨hin.past (hpast.trans (Cursor.past_char ..)), Nat.le_refl _⟩
  · next ch rest hne =>
    split at h
    · cases h
    · next e' behind hread =>
      obtain rfl : e' = e := by simpa using h
      exact (readWord_error rfl (congrArg Prod.fst hread)).imp fun hin =>
        ⟨mem_of_lined_cons (hin.past hpast).clean.2 hne,
          (hin.past (hpast.trans (Cursor.past_char ..))).length.le⟩

theorem startedToken_error (h : l.startedToken.1 = .error e) :
    e.LexicalIn (l.In text) (byteLength text) := by
  unfold startedToken at h
  split at h
  · exact lineWord_error h
  · cases h

/-- **A fault at a token** is one of the lexer, and in the text. -/
theorem nextToken_error (h : l.nextToken.1 = .error e) :
    e.LexicalIn (l.In text) (byteLength text) := by
  unfold nextToken at h
  split at h
  · exact startedToken_error h
  have first (hin : l.In text) : In text { l with started := true, cursor := l.cursor.mend } := by
    rw [hin.mend]
    exact ⟨hin.clean, hin.read⟩
  split at h
  · next e' l' hline =>
    obtain rfl : e' = e := by simpa using h
    exact (toLine_error (congrArg Prod.fst hline)).imp fun hin => ⟨first hin, Nat.le_refl _⟩
  · next start l' hline =>
    have hplace := fun hin => (first hin).toLine
    rw [hline] at hplace
    split at h
    · exact (startedToken_error h).imp fun hin => ⟨(hplace hin).1, Nat.le_refl _⟩
    · cases h
      exact ⟨rfl, fun hin => ⟨(hplace hin).2.1 start rfl, (hplace hin).1.boundary.le⟩⟩

/-- A fault in quote text is in the text, if the line ends in it. -/
theorem nextQuotePart_error (h : l.nextQuotePart.1 = .error e) :
    e.LexicalIn (l.In text ∧ '\n' ∈ l.cursor.rest) (byteLength text) := by
  refine (quoteFrom_error h).imp fun hin => ⟨hin.2, ?_⟩
  rw [hin.1.mend]
  exact hin.1.length.le

end Lexer

/-- An error that the lexer raises, at a token or at quote text. -/
def CompileError.FromLexer (e : CompileError) : Prop :=
  ∃ l : Lexer, l.nextToken.1 = .error e ∨ l.nextQuotePart.1 = .error e

theorem Reader.Fails.fromLexer {r : Reader} {e : CompileError} (h : r.Fails e) : e.FromLexer := by
  obtain ⟨l, mode⟩ := r
  cases mode with
  | word holes => exact ⟨l, .inl h⟩
  | text holes => exact ⟨l, .inr h⟩

theorem CompileError.FromLexer.isLexical (h : e.FromLexer) : e.fault.isLexical = true := by
  obtain ⟨l, h | h⟩ := h
  · exact (@Lexer.nextToken_error _ [] _ h).isLexical
  · exact (@Lexer.nextQuotePart_error _ [] _ h).isLexical

namespace Lexer

/-! ## Moves stay in the text -/

variable {l l' : Lexer} {lexed : Lexed}

/-- A token stands behind what was read before. -/
theorem Gives.place (h : l.Gives lexed l') : l.pos ≤ lexed.span.start ∧
    lexed.span.Inside l'.pos := by
  induction h with
  | owed | close | eof => exact ⟨Nat.le_refl _, Nat.le_refl _, Nat.le_refl _⟩
  | word => exact ⟨Nat.le_add_right _ _, Nat.le_add_right _ _, Nat.le_refl _⟩
  | lineBreak =>
    refine ⟨?_, Nat.le_add_right _ _, Nat.le_refl _⟩
    dsimp only [Lexer.pos]
    omega
  | start _ _ _ ih => exact ⟨(Nat.le_add_right _ _).trans ih.1, ih.2⟩

theorem Gives.measure_le (h : l.Gives lexed l') : l'.measure ≤ l.measure := by
  by_cases heof : lexed.token = .eof
  · -- at the end of a text there is nothing left to take
    induction h with
    | owed => cases heof
    | word h => exact absurd heof h.ne_eof
    | lineBreak => exact absurd heof (breakToken_ne_eof _ _)
    | close => cases heof
    | eof => exact Nat.le_refl _
    | start _ _ _ ih =>
      refine (ih heof).trans ?_
      simp only [measure, length_append]
      omega
  · exact (h.measure_lt heof).le

/-- A word does not end its line. -/
theorem Gives.newline_mem (h : l.Gives lexed l') (clean : l.Clean)
    (hbreak : lexed.token.isBreak = false) (hne : lexed.token ≠ .eof) :
    '\n' ∈ l'.cursor.rest := by
  induction h with
  | owed => cases hbreak
  | @word spaces pos indent w more token h =>
    obtain ⟨first, tail, hw, -⟩ := h.exists_cons
    have hmem : '\n' ∈ replicate spaces ' ' ++ (w ++ more) := by
      rcases clean.2 with hnil | hlast
      · simp [hw] at hnil
      · exact mem_of_getLast? hlast
    rcases mem_append.1 hmem with hspace | hmem
    · cases eq_of_mem_replicate hspace
    · exact (mem_append.1 hmem).resolve_left h.newline_notMem
  | lineBreak => exact absurd (hbreak.symm.trans (isBreak_breakToken _ _)) Bool.false_ne_true
  | close => cases hbreak
  | eof => exact absurd rfl hne
  | start _ _ _ ih => exact ih ⟨rfl, clean.2.of_append⟩ hbreak hne

end Lexer

/-! ## The listing of a text -/

theorem error_of_map {ε α β : Type} {f : α → β} {x : Except ε α} {e : ε}
    (h : f <$> x = .error e) : x = .error e := by
  cases x with
  | error e' => exact congrArg Except.error (Except.error.inj h)
  | ok a => cases h

/-- The reader is in a text, and quote text that it reads has a line end behind it. -/
structure Reader.InText (text : List Char) (r : Reader) : Prop where
  lexer : r.lexer.In text
  ends {holes : Nat} (h : r.mode = .text holes) : '\n' ∈ r.lexer.cursor.rest

namespace Reader

variable {text : List Char} {r r' : Reader} {lexed : Lexed} {ts : List Lexed}

theorem Step.in (h : r.Step lexed r') (hr : r.lexer.In text) : r'.lexer.In text := by
  cases h with
  | word hnext _ => exact (((Lexer.nextToken_eq_ok_iff hr.clean).1 hnext).in hr).1
  | text hpart => exact (hr.quotePart hpart).1

theorem Reads.in (h : r.Reads ts r') (hr : r.lexer.In text) : r'.lexer.In text := by
  induction h with
  | nil => exact hr
  | cons first _ ih => exact ih (first.in hr)

theorem Step.inText (h : r.Step lexed r') (inText : r.InText text) : r'.InText text := by
  refine ⟨h.in inText.lexer, fun hmode => ?_⟩
  have clean := inText.lexer.clean
  cases h with
  | word h hne =>
    refine ((Lexer.nextToken_eq_ok_iff clean).1 h).newline_mem clean ?_ hne
    rw [Mode.eq_rightBrace_of_behind hmode]
    rfl
  | text h => cases hmode

theorem Reads.inText (h : r.Reads ts r') (inText : r.InText text) : r'.InText text := by
  induction h with
  | nil => exact inText
  | cons first _ ih => exact ih (first.inText inText)

theorem Fails.inside (h : r.Fails e) (inText : r.InText text) : e.span.Inside (byteLength text) := by
  obtain ⟨l, mode⟩ := r
  cases mode with
  | word holes => exact (Lexer.nextToken_error h).inside inText.lexer
  | text holes => exact (Lexer.nextQuotePart_error h).inside ⟨inText.lexer, inText.ends rfl⟩

end Reader

/-- **The faults of a listing** are faults of the lexer, at places of the text. -/
theorem tokens_error {source : String} (h : tokens source = .error e) :
    e.fault.isLexical = true ∧ e.span.Inside (byteLength (Lexer.normalized source)) := by
  obtain ⟨ts, r, hreads, hfails⟩ := tokens_eq_error_iff.1 h
  refine ⟨hfails.fromLexer.isLexical, hfails.inside (hreads.inText ?_)⟩
  exact ⟨Lexer.in_ofText source, nofun⟩

end Lexing

end ClassLang
