import ClassLang.Proofs.LexerWords

/-!
# The moves of the lexer

What stands between the words of a text: a `Gap` at the end of a line, `BlankLines` that do not
count, and the tabs of the next line with code. `Lexer.Gives` says what the lexer gives in terms of
the text alone: a dedent that is owed, a word, a line break, or an end. The main statement is
`Lexer.nextToken_eq_ok_iff`: on a text whose lines are all ended the lexer makes exactly these moves.
-/

set_option autoImplicit false

namespace ClassLang

open List Cursor

/-! ## Lines -/

/-- A text that is empty or ends a line. -/
def Lined (cs : List Char) : Prop := cs = [] ∨ cs.getLast? = some '\n'

theorem Lined.of_append {cs ds : List Char} (h : Lined (cs ++ ds)) : Lined ds := by
  cases hlast : ds.getLast? with
  | none => exact .inl (getLast?_eq_none_iff.1 hlast)
  | some c =>
    rcases h with h | h
    · exact .inl (append_eq_nil_iff.1 h).2
    · rw [getLast?_append, hlast, Option.some_or] at h
      exact .inr (hlast.trans h)

theorem lined_normalized (source : String) : Lined (Lexer.normalized source) := by
  unfold Lexer.normalized
  split
  · next h => exact .inr h
  · exact .inr (by simp)

/-- A comment behind its bar does not leave the line. Without a bar there is none. -/
inductive Comment : List Char → Prop where
  | none : Comment []
  | bar {text : List Char} (h : '\n' ∉ text) : Comment ('|' :: text)

/-- Lines without code: tabs and perhaps a comment on each. -/
inductive BlankLines : List Char → Prop where
  | nil : BlankLines []
  | line {tabs : Nat} {comment rest : List Char} (hcomment : Comment comment)
      (hrest : BlankLines rest) :
      BlankLines (replicate tabs '\t' ++ (comment ++ '\n' :: rest))

/-- What may stand between the last word of a line and its end: nothing, or spaces and a comment. -/
inductive Gap : List Char → Prop where
  | none : Gap []
  | comment {spaces : Nat} {text : List Char} (h : '\n' ∉ text) :
      Gap (replicate spaces ' ' ++ '|' :: text)

/-- A text that is at its end or goes on with code. -/
def StartsCode (cs : List Char) : Prop := ∀ c ∈ cs.head?, c ∉ gapChars

variable {code text : List Char} {c : Char} {blank : List Char} {l l' : Lexer}

theorem StartsCode.head_ne (h : StartsCode code) (hc : c ∈ gapChars) :
    code.head? ≠ some c := fun heq => h c heq hc

theorem startsCode_of_head (h : ∀ c ∈ code.head?, c ∉ ['\n', '\t', '|'])
    (hspace : code.head? ≠ some ' ') : StartsCode code := by
  intro c hc hmem
  rcases mem_cons.1 hmem with rfl | hother
  · exact hspace hc
  · have hsubset : ['|', '\n', '\t'] ⊆ ['\n', '\t', '|'] := by simp
    exact h c hc (hsubset hother)

@[simp] theorem utf8Size_newline : '\n'.utf8Size = 1 := rfl

@[simp] theorem utf8Size_tab : '\t'.utf8Size = 1 := rfl

@[simp] theorem utf8Size_space : ' '.utf8Size = 1 := rfl

@[simp] theorem utf8Size_bar : '|'.utf8Size = 1 := rfl

theorem byteLength_eq_length {cs : List Char} (h : ∀ c ∈ cs, c.utf8Size = 1) :
    byteLength cs = cs.length := by
  induction cs with
  | nil => rfl
  | cons c cs ih =>
    obtain ⟨hc, hcs⟩ := forall_mem_cons.1 h
    rw [byteLength_cons, hc, ih hcs, length_cons, Nat.add_comm]

theorem byteLength_replicate (hc : c.utf8Size = 1) (n : Nat) :
    byteLength (replicate n c) = n := by
  rw [byteLength_eq_length fun d hd => eq_of_mem_replicate hd ▸ hc, length_replicate]

namespace Cursor

theorem lineFrom_comment (h : '\n' ∉ text) (start pos : Nat) (rest : List Char) :
    lineFrom start pos true (text ++ '\n' :: rest) =
      lineFrom (pos + byteLength text + 1) (pos + byteLength text + 1) false rest := by
  induction text generalizing pos with
  | nil => simp [lineFrom]
  | cons c text ih =>
    simp only [mem_cons, not_or] at h
    rw [cons_append, lineFrom, if_neg (Ne.symm h.1), if_pos rfl, ih h.2, byteLength_cons]
    simp only [Nat.add_assoc]

theorem lineFrom_tabs (tabs start pos : Nat) (rest : List Char) :
    lineFrom start pos false (replicate tabs '\t' ++ rest) =
      lineFrom start (pos + tabs) false rest := by
  induction tabs generalizing pos with
  | zero => rfl
  | succ n ih =>
    rw [replicate_succ, cons_append, lineFrom, if_neg (by decide),
      if_neg Bool.false_ne_true, if_pos rfl, ih]
    congr 1
    omega

theorem lineFrom_code (h : ∀ c ∈ code.head?, c ∉ ['\n', '\t', '|']) (start pos : Nat) :
    lineFrom start pos false code = (start, ⟨code, pos, 0⟩) := by
  cases code with
  | nil => rfl
  | cons c rest =>
    have hc := h c rfl
    simp only [mem_cons, not_mem_nil, or_false, not_or] at hc
    rw [lineFrom, if_neg hc.1, if_neg Bool.false_ne_true, if_neg hc.2.1, if_neg hc.2.2]

theorem lineFrom_blank (h : BlankLines blank) (pos : Nat) (rest : List Char) :
    lineFrom pos pos false (blank ++ rest) =
      lineFrom (pos + byteLength blank) (pos + byteLength blank) false rest := by
  -- the start of the line matters only behind the last newline
  suffices hgen : ∀ start, blank ≠ [] → lineFrom start pos false (blank ++ rest) =
      lineFrom (pos + byteLength blank) (pos + byteLength blank) false rest by
    by_cases hblank : blank = []
    · simp [hblank]
    · exact hgen pos hblank
  induction h generalizing pos with
  | nil => exact fun _ hne => absurd rfl hne
  | @line tabs comment blank hcomment _ ih =>
    intro start _
    have hnext : lineFrom (pos + tabs + byteLength comment + 1)
        (pos + tabs + byteLength comment + 1) false (blank ++ rest) =
        lineFrom (pos + tabs + byteLength comment + 1 + byteLength blank)
          (pos + tabs + byteLength comment + 1 + byteLength blank) false rest := by
      by_cases hblank : blank = []
      · simp [hblank]
      · exact ih _ _ hblank
    have hlength : pos + byteLength (replicate tabs '\t' ++ (comment ++ '\n' :: blank)) =
        pos + tabs + byteLength comment + 1 + byteLength blank := by
      simp only [byteLength_append, byteLength_cons, byteLength_replicate utf8Size_tab,
        utf8Size_newline]
      omega
    rw [hlength, ← hnext, append_assoc, append_assoc, cons_append, lineFrom_tabs]
    cases hcomment with
    | none => simp [lineFrom]
    | bar htext =>
      rw [cons_append, lineFrom, if_neg (by decide), if_neg Bool.false_ne_true,
        if_neg (by decide), if_pos rfl, lineFrom_comment htext, byteLength_cons, utf8Size_bar]
      simp only [Nat.add_assoc]

/-- Going to the next line with code passes over blank lines and its tabs. -/
theorem toLine_lines (hblank : BlankLines blank) (hcode : ∀ c ∈ code.head?, c ∉ ['\n', '\t', '|'])
    (tabs pos : Nat) : toLine ⟨blank ++ (replicate tabs '\t' ++ code), pos, 0⟩ =
      (pos + byteLength blank, ⟨code, pos + byteLength blank + tabs, 0⟩) := by
  unfold toLine
  rw [lineFrom_blank hblank, lineFrom_tabs, lineFrom_code hcode]

end Cursor

theorem mem_of_lined_cons {cs : List Char} (h : Lined (c :: cs)) (hc : c ≠ '\n') : '\n' ∈ cs := by
  rcases h with h | h
  · cases h
  · have hmem : '\n' ∈ c :: cs := mem_of_getLast? h
    simpa [Ne.symm hc] using hmem

/-- A text whose lines are ended is blank lines, the tabs of a line and the code behind them. -/
theorem exists_lines (rest : List Char) (lined : Lined rest) : ∃ blank tabs code,
    rest = blank ++ (replicate tabs '\t' ++ code) ∧ BlankLines blank ∧
      ∀ c ∈ code.head?, c ∉ ['\n', '\t', '|'] := by
  -- each blank line is peeled off, so the induction is on the length of the text
  induction hn : rest.length using Nat.strong_induction_on generalizing rest with
  | _ n ih =>
  have hsplit : rest = replicate (rest.takeWhile (· = '\t')).length '\t' ++
      rest.dropWhile (· = '\t') := by
    rw [← eq_replicate_of_mem fun c hc => by simpa using mem_takeWhile_imp hc,
      takeWhile_append_dropWhile]
  have hstops := stops_dropWhile (· = '\t') rest
  generalize (rest.takeWhile (· = '\t')).length = tabs at hsplit
  generalize rest.dropWhile (· = '\t') = code at hsplit hstops
  have hcodeLined : Lined code := by
    rw [hsplit] at lined
    exact lined.of_append
  have peel : ∀ comment behind, Comment comment → code = comment ++ '\n' :: behind →
      ∃ blank tabs code, rest = blank ++ (replicate tabs '\t' ++ code) ∧ BlankLines blank ∧
        ∀ c ∈ code.head?, c ∉ ['\n', '\t', '|'] := by
    intro comment behind hcomment hcode
    have hlined : Lined behind := by
      rw [hcode, append_cons] at hcodeLined
      exact hcodeLined.of_append
    have hlength : behind.length < n := by
      rw [← hn, hsplit, hcode]
      simp only [length_append, length_cons]
      omega
    obtain ⟨blank, tabs', code', hbehind, hblank, hcode'⟩ := ih _ hlength behind hlined rfl
    refine ⟨replicate tabs '\t' ++ (comment ++ '\n' :: blank), tabs', code', ?_,
      .line hcomment hblank, hcode'⟩
    rw [hsplit, hcode, hbehind]
    simp
  cases code with
  | nil => exact ⟨[], tabs, [], hsplit, .nil, by simp⟩
  | cons c behind =>
    by_cases hnewline : c = '\n'
    · subst hnewline
      exact peel [] behind .none rfl
    by_cases hbar : c = '|'
    · subst hbar
      obtain ⟨text, behind', rfl, htext⟩ :=
        eq_append_cons_of_mem (mem_of_lined_cons hcodeLined (by decide))
      exact peel _ behind' (.bar htext) rfl
    · refine ⟨[], tabs, c :: behind, hsplit, .nil, ?_⟩
      have htab : c ≠ '\t' := by simpa [Stops] using hstops
      simp [hnewline, hbar, htab]

/-! ## Moves -/

namespace Lexer

/-- The token of a line break by the depth of the new line and that of the old one. -/
def breakToken (depth indent : Nat) : Token :=
  if depth = indent then .newline else if depth < indent then .dedent else .indent

/-- What the lexer gives and where it stands afterwards. -/
inductive Gives : Lexer → Lexed → Lexer → Prop where
  /-- A dedent that is owed. -/
  | owed {cursor : Cursor} {indent owed} :
      Gives ⟨cursor, indent, owed + 1, true⟩ ⟨.dedent, .emptyAt cursor.pos⟩
        ⟨cursor, indent, owed, true⟩
  /-- A word, behind any number of spaces. -/
  | word {spaces pos indent w more token} (h : WordText w token more) :
      Gives ⟨⟨replicate spaces ' ' ++ (w ++ more), pos, 0⟩, indent, 0, true⟩
        ⟨token, ⟨pos + spaces, pos + spaces + byteLength w⟩⟩
        ⟨⟨more, pos + spaces + byteLength w, 0⟩, indent, 0, true⟩
  /-- A line break, up to the code of the next line, which is at most one level deeper. -/
  | lineBreak {gap blank code tabs pos indent} (hgap : Gap gap)
      (hblank : BlankLines blank) (hcode : StartsCode code) (hdepth : tabs ≤ indent + 1) :
      Gives ⟨⟨gap ++ '\n' :: (blank ++ (replicate tabs '\t' ++ code)), pos, 0⟩, indent, 0, true⟩
        ⟨breakToken tabs indent, ⟨pos + byteLength gap + 1 + byteLength blank,
          pos + byteLength gap + 1 + byteLength blank + tabs⟩⟩
        ⟨⟨code, pos + byteLength gap + 1 + byteLength blank + tabs, 0⟩, tabs, indent - tabs - 1, true⟩
  /-- The end of a line that is still open when the text ends. -/
  | close {pos indent} :
      Gives ⟨⟨[], pos, 0⟩, indent + 1, 0, true⟩ ⟨.dedent, .emptyAt pos⟩
        ⟨⟨[], pos, 0⟩, indent, 0, true⟩
  | eof {pos} : Gives ⟨⟨[], pos, 0⟩, 0, 0, true⟩ ⟨.eof, .emptyAt pos⟩ ⟨⟨[], pos, 0⟩, 0, 0, true⟩
  /-- The first token, behind the blank lines at the start of the text. -/
  | start {blank code pos indent owed lexed l} (hblank : BlankLines blank) (hcode : StartsCode code)
      (h : Gives ⟨⟨code, pos + byteLength blank, 0⟩, indent, owed, true⟩ lexed l) :
      Gives ⟨⟨blank ++ code, pos, 0⟩, indent, owed, false⟩ lexed l

/-- No character is torn and every line of the text is ended. -/
def Clean (l : Lexer) : Prop := l.cursor.torn = 0 ∧ Lined l.cursor.rest

theorem clean_ofText (source : String) : (ofText source).Clean := ⟨rfl, lined_normalized source⟩

variable {lexed : Lexed} {more : List Char}

theorem Gives.clean (h : l.Gives lexed l') (clean : l.Clean) : l'.Clean := by
  induction h with
  | owed => exact clean
  | word =>
    refine ⟨rfl, ?_⟩
    have hlined := clean.2
    rw [← append_assoc] at hlined
    exact hlined.of_append
  | @lineBreak gap blank code tabs =>
    refine ⟨rfl, ?_⟩
    have hlined := clean.2
    rw [append_cons, ← append_assoc, ← append_assoc] at hlined
    exact hlined.of_append
  | close => exact clean
  | eof => exact clean
  | start _ _ _ ih => exact ih ⟨rfl, clean.2.of_append⟩

/-- Once a token is given the text is begun. -/
theorem Gives.started (h : l.Gives lexed l') : l'.started = true := by
  induction h with
  | start _ _ _ ih => exact ih
  | _ => rfl

theorem skipWhile_spaces (spaces pos : Nat) (h : more.head? ≠ some ' ') :
    skipWhile ⟨replicate spaces ' ' ++ more, pos, 0⟩ (· = ' ') =
      ⟨more, pos + spaces, 0⟩ := by
  have hrun : ∀ c ∈ replicate spaces ' ', decide (c = ' ') = true := fun c hc => by
    simp [eq_of_mem_replicate hc]
  have stops : Stops (· = ' ') more := by
    cases more with
    | nil => rfl
    | cons c more => simpa [Stops] using h
  unfold skipWhile
  rw [dropWhile_run hrun stops, takeWhile_run hrun stops, byteLength_replicate utf8Size_space]

theorem toLine_code (hblank : BlankLines blank) (hcode : StartsCode code)
    (tabs pos indent owed : Nat) (started : Bool) :
    toLine ⟨⟨blank ++ (replicate tabs '\t' ++ code), pos, 0⟩, indent, owed, started⟩ =
      (.ok (pos + byteLength blank),
        ⟨⟨code, pos + byteLength blank + tabs, 0⟩, indent, owed, started⟩) := by
  have hhead : ∀ c ∈ code.head?, c ∉ ['\n', '\t', '|'] := by
    intro c hc hmem
    have hsubset : ['\n', '\t', '|'] ⊆ gapChars := by simp [gapChars]
    exact hcode c hc (hsubset hmem)
  have hspace : code.head? ≠ some ' ' := hcode.head_ne (by decide)
  simp only [toLine, toLine_lines hblank hhead, Cursor.next?, hspace, if_false]

/-- The token of a line break, which the lexer gives if the depth allows it. -/
theorem lineToken_lines (hblank : BlankLines blank) (hcode : StartsCode code) {tabs indent : Nat}
    (hdepth : tabs ≤ indent + 1) (pos : Nat) :
    lineToken ⟨⟨blank ++ (replicate tabs '\t' ++ code), pos, 0⟩, indent, 0, true⟩ =
      (.ok ⟨breakToken tabs indent, ⟨pos + byteLength blank, pos + byteLength blank + tabs⟩⟩,
        ⟨⟨code, pos + byteLength blank + tabs, 0⟩, tabs, indent - tabs - 1, true⟩) := by
  unfold lineToken breakToken
  rw [toLine_code hblank hcode]
  dsimp only [Lexer.pos]
  rw [Nat.add_sub_cancel_left]
  rcases Nat.lt_trichotomy tabs indent with h | h | h
  · rw [if_neg (Nat.ne_of_lt h), if_pos h, if_neg (Nat.ne_of_lt h), if_pos h]
  · rw [if_pos h, if_pos h, h, Nat.sub_self]
  -- only one level deeper is left
  obtain rfl : tabs = indent + 1 := by omega
  have hdeeper : ¬ indent + 1 < indent := by omega
  simp [hdeeper]

theorem lineWord_word {w : List Char} {token : Token} (h : WordText w token more)
    (spaces pos indent : Nat) :
    lineWord ⟨⟨replicate spaces ' ' ++ (w ++ more), pos, 0⟩, indent, 0, true⟩ =
      (.ok ⟨token, ⟨pos + spaces, pos + spaces + byteLength w⟩⟩,
        ⟨⟨more, pos + spaces + byteLength w, 0⟩, indent, 0, true⟩) := by
  obtain ⟨first, tail, rfl, hfirst⟩ := h.exists_cons
  have hne : ∀ c ∈ gapChars, (first :: tail ++ more).head? ≠ some c := by
    intro c hc heq
    exact hfirst (Option.some.inj heq ▸ hc)
  simp only [lineWord, mend, Cursor.next?, Nat.add_zero,
    skipWhile_spaces spaces pos (hne ' ' (by decide)), hne '\n' (by decide), hne '|' (by decide),
    and_false, if_false]
  split
  · next heq => cases heq
  · next heq => exact absurd (congrArg head? heq) (hne '\n' (by decide))
  · next ch rest _ heq =>
    have hrest : tail ++ more = rest := (cons.inj heq).2
    obtain rfl : first = ch := (cons.inj heq).1
    rw [← hrest, readWord_word h]

theorem skipWhile_line (h : '\n' ∉ text) (rest : List Char) (pos : Nat) :
    skipWhile ⟨text ++ '\n' :: rest, pos, 0⟩ (· ≠ '\n') =
      ⟨'\n' :: rest, pos + byteLength text, 0⟩ := by
  have hrun : ∀ c ∈ text, decide (c ≠ '\n') = true := fun c hc =>
    decide_eq_true fun heq => h (heq ▸ hc)
  have stops : Stops (· ≠ '\n') ('\n' :: rest) := rfl
  unfold skipWhile
  rw [dropWhile_run hrun stops, takeWhile_run hrun stops]

theorem lineWord_break {gap : List Char} (h : Gap gap) (rest : List Char) (pos indent : Nat) :
    lineWord ⟨⟨gap ++ '\n' :: rest, pos, 0⟩, indent, 0, true⟩ =
      lineToken ⟨⟨rest, pos + byteLength gap + 1, 0⟩, indent, 0, true⟩ := by
  cases h with
  | none => rfl
  | @comment spaces text htext =>
    have hline : '\n' ∉ '|' :: text := by simp [htext]
    have hspace : ('|' :: text ++ '\n' :: rest).head? ≠ some ' ' := by simp
    have hnewline : some '|' ≠ some '\n' := by simp
    have hbar : ('|' :: text ++ '\n' :: rest).head? = some '|' := rfl
    have hcomment := skipWhile_line hline rest (pos + spaces)
    simp only [lineWord, mend, Cursor.next?, Nat.add_zero, append_assoc,
      skipWhile_spaces spaces pos hspace, hnewline, hbar, and_false, if_false, if_true, hcomment]
    simp only [byteLength_append, byteLength_replicate utf8Size_space, Nat.add_assoc]

theorem nextToken_of_gives (h : l.Gives lexed l') : l.nextToken = (.ok lexed, l') := by
  induction h with
  | owed => rfl
  | word h => exact lineWord_word h _ _ _
  | lineBreak hgap hblank hcode hdepth =>
    refine (lineWord_break hgap _ _ _).trans ?_
    rw [lineToken_lines hblank hcode hdepth]
  | close => rfl
  | eof => rfl
  | @start blank code pos indent owed lexed l hblank hcode h ih =>
    have hline := toLine_code hblank hcode 0 pos indent owed true
    rw [replicate_zero, nil_append] at hline
    rw [Nat.add_zero] at hline
    simp only [nextToken, mend, Nat.add_zero, hline, Lexer.pos, Bool.false_eq_true, if_false,
      if_true]
    exact ih

/-- A line break is followed by blank lines and a line that is at most one level deeper. -/
theorem lineToken_eq_ok {rest : List Char} (lined : Lined rest) {pos indent : Nat}
    (h : lineToken ⟨⟨rest, pos, 0⟩, indent, 0, true⟩ = (.ok lexed, l)) :
    ∃ blank tabs code, rest = blank ++ (replicate tabs '\t' ++ code) ∧ BlankLines blank ∧
      StartsCode code ∧ tabs ≤ indent + 1 := by
  obtain ⟨blank, tabs, code, rfl, hblank, hhead⟩ := exists_lines rest lined
  have hline := toLine_lines hblank hhead tabs pos
  by_cases hspace : code.head? = some ' '
  · simp only [lineToken, toLine, hline, Cursor.next?, hspace, if_true] at h
    cases h
  have hcode := startsCode_of_head hhead hspace
  refine ⟨blank, tabs, code, rfl, hblank, hcode, ?_⟩
  by_contra hdeep
  have h1 : ¬ tabs = indent := by omega
  have h2 : ¬ tabs < indent := by omega
  have h3 : ¬ tabs = indent + 1 := by omega
  simp only [lineToken, toLine_code hblank hcode, Lexer.pos, Nat.add_sub_cancel_left, h1, h2, h3,
    if_false] at h
  cases h

/-- The spaces at the start of a text. -/
theorem exists_spaces (rest : List Char) :
    ∃ spaces more, rest = replicate spaces ' ' ++ more ∧ more.head? ≠ some ' ' := by
  refine ⟨(rest.takeWhile (· = ' ')).length, rest.dropWhile (· = ' '), ?_, ?_⟩
  · rw [← eq_replicate_of_mem fun c hc => by simpa using mem_takeWhile_imp hc,
      takeWhile_append_dropWhile]
  · intro heq
    have hstops := stops_dropWhile (· = ' ') rest
    rw [Stops, heq] at hstops
    cases hstops

theorem gives_of_lineWord {rest : List Char} (lined : Lined rest) {pos indent : Nat}
    (h : lineWord ⟨⟨rest, pos, 0⟩, indent, 0, true⟩ = (.ok lexed, l)) :
    Gives ⟨⟨rest, pos, 0⟩, indent, 0, true⟩ lexed l := by
  -- behind a gap there is a line break
  have atBreak : ∀ gap behind, Gap gap → rest = gap ++ '\n' :: behind →
      Gives ⟨⟨rest, pos, 0⟩, indent, 0, true⟩ lexed l := by
    rintro gap behind hgap rfl
    rw [lineWord_break hgap] at h
    rw [append_cons] at lined
    obtain ⟨blank, tabs, code, rfl, hblank, hcode, hdepth⟩ := lineToken_eq_ok lined.of_append h
    rw [lineToken_lines hblank hcode hdepth] at h
    cases h
    exact .lineBreak hgap hblank hcode hdepth
  obtain ⟨spaces, more, rfl, hspace⟩ := exists_spaces rest
  have hmore : Lined more := lined.of_append
  cases more with
  | nil =>
    -- spaces end no line, so there are none
    obtain rfl : spaces = 0 := by
      rcases lined with hnil | hlast
      · simpa using hnil
      · by_contra hpos
        simp [getLast?_replicate, hpos] at hlast
    cases indent with
    | zero =>
      cases h
      exact .eof
    | succ indent =>
      cases h
      exact .close
  | cons c behind =>
    by_cases hnewline : c = '\n'
    · subst hnewline
      cases spaces with
      | zero => exact atBreak [] behind .none rfl
      | succ n =>
        -- spaces before the end of a line are refused
        have hfirst : (replicate (n + 1) ' ' ++ '\n' :: behind).head? = some ' ' := rfl
        have hnext : ('\n' :: behind).head? = some '\n' := rfl
        simp only [lineWord, mend, Cursor.next?, Nat.add_zero,
          skipWhile_spaces (n + 1) pos hspace, hfirst, hnext, and_self, if_true] at h
        cases h
    by_cases hbar : c = '|'
    · subst hbar
      obtain ⟨text, behind', rfl, htext⟩ := eq_append_cons_of_mem (mem_of_lined_cons hmore (by decide))
      exact atBreak (replicate spaces ' ' ++ '|' :: text) behind' (.comment htext) (by simp)
    have hne : (c :: behind).head? ≠ some '\n' := fun heq => hnewline (Option.some.inj heq)
    have hne' : (c :: behind).head? ≠ some '|' := fun heq => hbar (Option.some.inj heq)
    simp only [lineWord, mend, Cursor.next?, Nat.add_zero,
      skipWhile_spaces spaces pos hspace, hne, hne', and_false, if_false] at h
    split at h
    · next token cursor hread =>
      cases h
      obtain ⟨w, hw, hword, hcursor⟩ := readWord_eq_ok hread
      rw [hcursor, hw]
      exact .word hword
    · cases h

/-- On a text whose lines are ended the lexer makes the moves of `Gives` and no others. -/
theorem nextToken_eq_ok_iff (clean : l.Clean) :
    l.nextToken = (.ok lexed, l') ↔ l.Gives lexed l' := by
  refine ⟨fun h => ?_, nextToken_of_gives⟩
  obtain ⟨⟨rest, pos, torn⟩, indent, owed, started⟩ := l
  obtain ⟨rfl, lined⟩ : torn = 0 ∧ Lined rest := clean
  have afterStart : ∀ {rest : List Char} {pos : Nat}, Lined rest →
      startedToken ⟨⟨rest, pos, 0⟩, indent, owed, true⟩ = (.ok lexed, l') →
      Gives ⟨⟨rest, pos, 0⟩, indent, owed, true⟩ lexed l' := by
    intro rest pos lined h
    cases owed with
    | zero => exact gives_of_lineWord lined h
    | succ owed =>
      cases h
      exact .owed
  cases started with
  | true => exact afterStart lined h
  | false =>
    obtain ⟨blank, tabs, code, rfl, hblank, hhead⟩ := exists_lines rest lined
    have hline := toLine_lines hblank hhead tabs pos
    by_cases hspace : code.head? = some ' '
    · simp only [nextToken, toLine, mend, Nat.add_zero, hline, Cursor.next?, hspace, if_true,
        Bool.false_eq_true, if_false] at h
      cases h
    have hcode := startsCode_of_head hhead hspace
    have hdepth : pos + byteLength blank = pos + byteLength blank + tabs ↔ tabs = 0 := by omega
    simp only [nextToken, mend, Nat.add_zero, toLine_code hblank hcode, Lexer.pos,
      Bool.false_eq_true, if_false, hdepth] at h
    by_cases htabs : tabs = 0
    · -- the first line is not indented
      subst htabs
      exact .start hblank hcode (afterStart lined.of_append h)
    · rw [if_neg htabs] at h
      cases h

end Lexer

end ClassLang
