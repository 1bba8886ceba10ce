import ClassLang.Proofs.TokenStream

/-!
# The lines of a text

A line of a text is given by what stands before it, which is empty or ends a line. `OnLine` says
that an offset stands on such a line, and `Lexer.Placed` that a lexer does: its depth is the number
of tabs that the line begins with. Words and quote text do not leave their line, so that both of
their ends stand on it (`Gives.word_onLine`), and every move leads to a line of the text again
(`Gives.placed`). The line number of an offset and the text of its line come from `OnLine`.
-/

set_option autoImplicit false

namespace ClassLang

open List

/-! ## Line numbers -/

variable {pos : Nat} {source : String} {token : Token} {before done w more blank : List Char}
  {indent owed : Nat}

namespace LineIndex

theorem startsAfter_append (pos : Nat) (cs ds : List Char) :
    startsAfter pos (cs ++ ds) = startsAfter pos cs ++ startsAfter (pos + byteLength cs) ds := by
  induction cs generalizing pos with
  | nil => rfl
  | cons c cs ih =>
    rw [cons_append, startsAfter, startsAfter, byteLength_cons, ← Nat.add_assoc]
    split
    · rw [ih, cons_append]
    · exact ih _

theorem length_startsAfter (pos : Nat) (cs : List Char) :
    (startsAfter pos cs).length = cs.count '\n' := by
  induction cs generalizing pos with
  | nil => rfl
  | cons c cs ih =>
    rw [startsAfter, count_cons]
    by_cases hc : c = '\n'
    · simp [hc, ih]
    · simp [hc, ih]

/-- A line starts behind the character before it and not behind the end of the text. -/
theorem bounds_of_mem_startsAfter {start : Nat} {cs : List Char} (h : start ∈ startsAfter pos cs) :
    pos < start ∧ start ≤ pos + byteLength cs := by
  induction cs generalizing pos with
  | nil => cases h
  | cons c cs ih =>
    have hsize : 0 < c.utf8Size := c.utf8Size_pos
    rw [startsAfter] at h
    rw [byteLength_cons]
    split at h
    · rcases mem_cons.1 h with rfl | h
      · omega
      · have hbounds := ih h
        omega
    · have hbounds := ih h
      omega

/-- The lines that an offset has reached, of which none starts in `rest`. -/
theorem takeWhile_starts {rest : List Char} (hle : byteLength before ≤ pos)
    (hrest : rest = [] ∨ pos = byteLength before) :
    (0 :: startsAfter 0 (before ++ rest)).takeWhile (· ≤ pos) = 0 :: startsAfter 0 before := by
  have hstop : (startsAfter (0 + byteLength before) rest).takeWhile
      (fun start => decide (start ≤ pos)) = [] := by
    rw [takeWhile_eq_nil_iff]
    intro hlength hle
    have hbounds := bounds_of_mem_startsAfter (get_mem _ ⟨0, hlength⟩)
    have hle' := of_decide_eq_true hle
    rcases hrest with rfl | rfl
    · cases hlength
    · omega
  rw [startsAfter_append, ← cons_append, takeWhile_append_of_pos, hstop, append_nil]
  intro start hstart
  rcases mem_cons.1 hstart with rfl | hstart
  · exact decide_eq_true (Nat.zero_le _)
  · have hbounds := bounds_of_mem_startsAfter hstart
    exact decide_eq_true (by omega)

/-- The line number of an offset counts the newlines before it. -/
theorem line_ofText {rest : List Char} (h : source.toList = before ++ rest) :
    (ofText source).line (byteLength before) = before.count '\n' + 1 := by
  have hreached := @takeWhile_starts _ before rest (Nat.le_refl _) (.inr rfl)
  rw [← h] at hreached
  rw [line, lineColumn, ofText, hreached, length_cons, length_startsAfter]

end LineIndex

/-- The text of a source line by line, without the newlines. -/
def linesOf (source : String) : List (List Char) := source.toList.splitOn '\n'

/-- The line on which an offset stands. -/
def lineAt (source : String) (pos : Nat) : List Char :=
  (linesOf source).getD ((LineIndex.ofText source).line pos - 1) []

theorem length_splitOn_newline (cs : List Char) :
    (cs.splitOn '\n').length = cs.count '\n' + 1 := by
  induction cs with
  | nil => rfl
  | cons c cs ih =>
    rw [splitOn_cons_eq_if_modifyHead, count_cons]
    by_cases hc : c = '\n'
    · simp [hc, ih]
    · simp [hc, ih]

theorem head?_splitOn_newline (cs : List Char) :
    (cs.splitOn '\n').head? = some (cs.takeWhile (· ≠ '\n')) := by
  induction cs with
  | nil => rfl
  | cons c cs ih =>
    rw [splitOn_cons_eq_if_modifyHead]
    by_cases hc : c = '\n'
    · simp [hc]
    · simp [hc, ih, head?_modifyHead]

/-- What stands before a line is empty or ends in a newline. -/
theorem Lined.eq_nil_or (h : Lined done) : done = [] ∨ ∃ before, done = before ++ ['\n'] := by
  rcases h with h | h
  · exact .inl h
  · obtain ⟨before, hbefore⟩ := getLast?_eq_some_iff.1 h
    exact .inr ⟨before, hbefore⟩

/-- The lines behind `done` are those of the text behind it. -/
theorem drop_splitOn (hdone : Lined done) (rest : List Char) :
    ((done ++ rest).splitOn '\n').drop (done.count '\n') = rest.splitOn '\n' := by
  rcases hdone.eq_nil_or with rfl | ⟨before, rfl⟩
  · simp
  have hcount : (before ++ ['\n']).count '\n' = (before.splitOn '\n').length := by
    simp [length_splitOn_newline]
  rw [hcount, append_assoc, singleton_append, splitOn_append_cons_self,
    drop_left]

/-! ## Offsets on a line -/

/-- The offset stands on the line of `text` that begins behind `done`, before the end of the text. -/
def OnLine (text done : List Char) (pos : Nat) : Prop :=
  Lined done ∧ ∃ part rest, text = done ++ (part ++ rest) ∧ rest ≠ [] ∧ '\n' ∉ part ∧
    pos = byteLength done + byteLength part

/-- Both ends stand on the line. -/
def Span.OnLine (text done : List Char) (span : Span) : Prop :=
  ClassLang.OnLine text done span.start ∧ ClassLang.OnLine text done span.stop

theorem Span.OnLine.cover {text : List Char} {a b : Span} (ha : a.OnLine text done)
    (hb : b.OnLine text done) : (a.cover b).OnLine text done := by
  constructor
  · change ClassLang.OnLine text done (min a.start b.start)
    rw [Nat.min_def]
    split
    · exact ha.1
    · exact hb.1
  · change ClassLang.OnLine text done (max a.stop b.stop)
    rw [Nat.max_def]
    split
    · exact hb.2
    · exact ha.2

theorem takeWhile_line_append (cs : List Char) :
    (cs ++ ['\n']).takeWhile (· ≠ '\n') = cs.takeWhile (· ≠ '\n') := by
  induction cs with
  | nil => rfl
  | cons c cs ih => simp only [cons_append, takeWhile_cons, ih]

/-- An offset before the end of a text also stands in the source from which it comes. -/
theorem exists_source_rest {rest : List Char} (h : Lexer.normalized source = before ++ rest)
    (hrest : rest ≠ []) : ∃ rest', source.toList = before ++ rest' ∧
      rest'.takeWhile (· ≠ '\n') = rest.takeWhile (· ≠ '\n') := by
  unfold Lexer.normalized at h
  split at h
  · exact ⟨rest, h, rfl⟩
  -- the newline that was added is the last character of the rest
  obtain ⟨init, last, rfl⟩ := eq_nil_or_concat rest |>.resolve_left hrest
  rw [concat_eq_append, ← append_assoc] at h
  obtain ⟨hsource, hlast⟩ := append_inj' h rfl
  obtain rfl : '\n' = last := by simpa using hlast
  refine ⟨init, hsource, ?_⟩
  rw [concat_eq_append, takeWhile_line_append]

theorem OnLine.line_eq (h : OnLine (Lexer.normalized source) done pos) :
    (LineIndex.ofText source).line pos = done.count '\n' + 1 := by
  obtain ⟨-, part, rest, htext, hrest, hpart, rfl⟩ := h
  rw [← append_assoc] at htext
  obtain ⟨rest', hsource, -⟩ := exists_source_rest htext hrest
  rw [← byteLength_append, LineIndex.line_ofText hsource, count_append,
    count_eq_zero.2 hpart, Nat.add_zero]

/-- The line on which an offset stands is the text behind `done` up to the next newline. -/
theorem OnLine.lineAt_eq {behind : List Char} (h : OnLine (Lexer.normalized source) done pos)
    (htext : Lexer.normalized source = done ++ behind) :
    lineAt source pos = behind.takeWhile (· ≠ '\n') := by
  have hbehind : behind ≠ [] := by
    obtain ⟨-, part, rest, htext', hrest, -, -⟩ := h
    have heq := append_cancel_left (htext.symm.trans htext')
    rw [heq]
    simp [hrest]
  obtain ⟨rest, hsource, hline⟩ := exists_source_rest htext hbehind
  rw [lineAt, h.line_eq, Nat.add_sub_cancel, linesOf, hsource, getD_eq_getElem?_getD,
    ← head?_drop, drop_splitOn h.1, head?_splitOn_newline, hline, Option.getD_some]

/-! ## Words stay on their line -/

theorem QuoteText.newline_notMem {t : List Char} (h : QuoteText w t) : '\n' ∉ w := by
  induction h with
  | nil => exact not_mem_nil
  | plain hc _ ih =>
    simp only [mem_cons, not_mem_nil, or_false, not_or] at hc ⊢
    exact ⟨Ne.symm hc.2.2.1, ih⟩
  | @escape c meant w t hc _ ih =>
    have hnewline : '\n' ≠ c := by
      rintro rfl
      cases hc
    simp only [mem_cons, not_or]
    exact ⟨by decide, hnewline, ih⟩

theorem newline_notMem_of_class {p : Char → Bool} (hw : ∀ c ∈ w, p c = true) (hp : p '\n' = false) :
    '\n' ∉ w := by
  intro hmem
  rw [hw _ hmem] at hp
  cases hp

theorem NumberText.newline_notMem {first : Char} {tail : List Char} {value : Literal}
    (h : NumberText (first :: tail) value more) : '\n' ∉ tail := by
  generalize hw : first :: tail = w at h
  cases h with
  | int hdigits _ _ _ =>
    cases hw
    exact newline_notMem_of_class hdigits rfl
  | float hdigits hfraction _ _ _ =>
    cases hw
    simp only [mem_append, mem_cons, not_or]
    exact ⟨newline_notMem_of_class hdigits rfl, by decide, newline_notMem_of_class hfraction rfl⟩

theorem WordText.newline_notMem (h : WordText w token more) : '\n' ∉ w := by
  -- the first character is none that passes between words, the others are of the word's class
  have hfirst : ∀ {first : Char} {tail : List Char}, w = first :: tail → '\n' ∉ tail →
      '\n' ∉ w := by
    rintro first tail rfl htail
    obtain ⟨first', tail', heq, hgap⟩ := h.exists_cons
    cases heq
    have hne : '\n' ≠ first := by
      rintro rfl
      exact hgap (by decide)
    simp [hne, htail]
  cases h with
  | punctuation _ => exact hfirst rfl not_mem_nil
  | dotDot => decide
  | dot _ => decide
  | text h | quoteStart h => exact hfirst rfl (by simp [h.newline_notMem])
  | number _ h => exact hfirst rfl h.newline_notMem
  | name _ htail _ | typeName _ htail _ | operator _ htail _ _ =>
    exact hfirst rfl (newline_notMem_of_class htail rfl)

/-- A token that stands for the break of a line. -/
def Token.isBreak : Token → Bool
  | .newline => true
  | .indent => true
  | .dedent => true
  | _ => false

theorem Token.isBreak_keyword {text : String} {other : Token} (h : other.isBreak = false) :
    ((Token.keyword? text).getD other).isBreak = false := by
  cases hword : Token.keyword? text with
  | none => exact h
  | some token =>
    unfold Token.keyword? at hword
    split at hword <;> cases hword <;> rfl

theorem WordText.isBreak_eq_false (h : WordText w token more) : token.isBreak = false := by
  cases h with
  | punctuation h =>
    unfold punctuation? at h
    split at h <;> cases h <;> rfl
  | name _ _ _ | operator _ _ _ _ => exact Token.isBreak_keyword rfl
  | _ => rfl

theorem Token.keyword_ne_eof {text : String} {other : Token} (h : other ≠ .eof) :
    (Token.keyword? text).getD other ≠ .eof := by
  cases hword : Token.keyword? text with
  | none => exact h
  | some token =>
    unfold Token.keyword? at hword
    split at hword <;> cases hword <;> exact Token.noConfusion

theorem WordText.ne_eof (h : WordText w token more) : token ≠ .eof := by
  cases h with
  | punctuation h =>
    unfold punctuation? at h
    split at h <;> cases h <;> exact Token.noConfusion
  | name _ _ _ | operator _ _ _ _ => exact Token.keyword_ne_eof Token.noConfusion
  | _ => exact Token.noConfusion

theorem Lexer.isBreak_breakToken (depth indent : Nat) :
    (breakToken depth indent).isBreak = true := by
  unfold breakToken
  split
  · rfl
  · split <;> rfl

/-- A text of whole lines does not end within a line. -/
theorem rest_ne_nil_of_lined {part rest : List Char} (h : Lined (before ++ (part ++ rest)))
    (hpart : '\n' ∉ part) (hne : part ≠ []) : rest ≠ [] := by
  rintro rfl
  rw [append_nil] at h
  rcases h.of_append with hnil | hlast
  · exact hne hnil
  · exact hpart (mem_of_getLast? hlast)

/-! ## Where the lexer stands -/

theorem BlankLines.lined (h : BlankLines blank) : Lined blank := by
  induction h with
  | nil => exact .inl rfl
  | @line tabs comment rest _ _ ih =>
    rcases ih with rfl | hlast
    · exact .inr (by simp)
    · refine .inr ?_
      rw [← append_assoc, getLast?_append, getLast?_cons, hlast]
      simp

/-- The lexer stands in `text`: at its start, or on the line that begins behind `done`. The tabs of
that line are the depth, and dedents are owed only before its code. -/
inductive Lexer.Placed (text : List Char) : List Char → Lexer → Prop where
  | start : Placed text [] ⟨⟨text, 0, 0⟩, 0, 0, false⟩
  | line {done part rest : List Char} {pos indent owed : Nat}
      (htext : text = done ++ (replicate indent '\t' ++ (part ++ rest))) (hdone : Lined done)
      (hpart : '\n' ∉ part) (hcode : StartsCode (part ++ rest)) (howed : owed ≠ 0 → part = [])
      (hpos : pos = byteLength done + indent + byteLength part) :
      Placed text done ⟨⟨rest, pos, 0⟩, indent, owed, true⟩

namespace Lexer

variable {text : List Char} {l l' : Lexer} {lexed : Lexed}

theorem placed_ofText (source : String) : Placed (normalized source) [] (ofText source) := .start

/-- Blank lines at the start of a text are lines before the first one with code. -/
theorem placed_start {code : List Char} (hblank : BlankLines blank) (hcode : StartsCode code)
    (pos : Nat) (hpos : pos = byteLength blank) :
    Placed (blank ++ code) blank ⟨⟨code, pos, 0⟩, 0, 0, true⟩ :=
  .line rfl hblank.lined not_mem_nil hcode (fun _ => rfl) (by simp [hpos])

/-- Reading on within the line. -/
theorem Placed.forth (h : Placed text done ⟨⟨w ++ more, pos, 0⟩, indent, 0, true⟩) (hw : '\n' ∉ w) :
    Placed text done ⟨⟨more, pos + byteLength w, 0⟩, indent, 0, true⟩ := by
  cases h with
  | @line _ part _ _ _ _ htext hdone hpart hcode _ hpos =>
    have hforth : text = done ++ (replicate indent '\t' ++ ((part ++ w) ++ more)) := by
      rw [htext, append_assoc]
    refine .line hforth hdone ?_ ?_ (fun hne => absurd rfl hne) ?_
    · simp [hpart, hw]
    · rwa [append_assoc]
    · rw [hpos, byteLength_append]
      omega

/-- The place of the lexer as an offset of its line. -/
theorem Placed.onLine {rest : List Char} (h : Placed text done ⟨⟨rest, pos, 0⟩, indent, owed, true⟩)
    (hrest : rest ≠ []) : OnLine text done pos := by
  cases h with
  | @line _ part _ _ _ _ htext hdone hpart _ _ hpos =>
    refine ⟨hdone, replicate indent '\t' ++ part, rest, ?_, hrest, ?_, ?_⟩
    · rw [htext, append_assoc]
    · simp [hpart]
    · rw [hpos, byteLength_append, byteLength_replicate utf8Size_tab]
      omega

theorem Placed.lined_rest (h : l.Placed text done) (hlined : Lined text) :
    Lined l.cursor.rest := by
  cases h with
  | start => exact hlined
  | line htext _ _ _ _ _ =>
    rw [htext] at hlined
    exact hlined.of_append.of_append.of_append

theorem Placed.clean (h : l.Placed text done) (hlined : Lined text) : l.Clean := by
  refine ⟨?_, h.lined_rest hlined⟩
  cases h <;> rfl

/-- At the end of a text of whole lines no line is open. -/
theorem Placed.indent_eq_zero (hlined : Lined text)
    (h : Placed text done ⟨⟨[], pos, 0⟩, indent, owed, true⟩) : indent = 0 := by
  cases h with
  | line htext _ hpart _ _ _ =>
    by_contra hindent
    rw [htext, ← append_assoc (replicate indent '\t')] at hlined
    refine rest_ne_nil_of_lined hlined ?_ ?_ rfl
    · simp [hpart]
    · simp [hindent]

/-- Behind a line break the lexer stands on a later line, before its code. -/
theorem Placed.lineBreak {gap code : List Char} {tabs pos : Nat} (h : Placed text done
      ⟨⟨gap ++ '\n' :: (blank ++ (replicate tabs '\t' ++ code)), pos, 0⟩, indent, 0, true⟩)
    (hblank : BlankLines blank) (hcode : StartsCode code) :
    ∃ done', text = done' ++ (replicate tabs '\t' ++ code) ∧
      Placed text done'
        ⟨⟨code, pos + byteLength gap + 1 + byteLength blank + tabs, 0⟩, tabs, owed, true⟩ ∧
      done.length < done'.length := by
  cases h with
  | @line _ part _ _ _ _ htext hdone hpart _ _ hpos =>
    have hnext : text = (done ++ (replicate indent '\t' ++ (part ++ (gap ++ '\n' :: blank))))
        ++ (replicate tabs '\t' ++ ([] ++ code)) := by
      rw [htext]
      simp
    refine ⟨_, hnext, .line hnext ?_ not_mem_nil hcode (fun _ => rfl) ?_, ?_⟩
    · refine .inr ?_
      rcases hblank.lined with rfl | hlast
      · simp
      · simp [getLast?_append, getLast?_cons, hlast]
    · rw [hpos]
      simp only [byteLength_append, byteLength_cons, byteLength_replicate utf8Size_tab,
        utf8Size_newline, byteLength_nil]
      omega
    · simp only [length_append, length_cons, length_replicate]
      omega

/-- Every move leads to a line of the text. -/
theorem Gives.placed (h : l.Gives lexed l') (hlined : Lined text) (placed : l.Placed text done) :
    ∃ done', l'.Placed text done' := by
  induction h generalizing done with
  | owed =>
    cases placed with
    | line htext hdone hpart hcode howed hpos =>
      exact ⟨done, .line htext hdone hpart hcode (fun _ => howed (Nat.succ_ne_zero _)) hpos⟩
  | @word spaces pos indent w more token h =>
    have hspaces : '\n' ∉ replicate spaces ' ' := by simp
    have hforth := (placed.forth hspaces).forth h.newline_notMem
    rw [byteLength_replicate utf8Size_space] at hforth
    exact ⟨done, hforth⟩
  | lineBreak hgap hblank hcode hdepth =>
    obtain ⟨done', -, hplaced, -⟩ := placed.lineBreak hblank hcode
    exact ⟨done', hplaced⟩
  | close => exact absurd (placed.indent_eq_zero hlined) (Nat.succ_ne_zero _)
  | eof => exact ⟨done, placed⟩
  | start hblank hcode _ ih =>
    cases placed with
    | start => exact ih (placed_start hblank hcode _ (Nat.zero_add _))

/-- A token that breaks no line is a word on the line where the lexer stands, or on the first one. -/
theorem Gives.exists_word (h : l.Gives lexed l') (placed : l.Placed text done)
    (hbreak : lexed.token.isBreak = false) (hne : lexed.token ≠ .eof) :
    ∃ done' spaces pos w more, (l.started = true → done' = done) ∧ l.owed = 0 ∧
      Placed text done' ⟨⟨replicate spaces ' ' ++ (w ++ more), pos, 0⟩, l.indent, 0, true⟩ ∧
      WordText w lexed.token more ∧ lexed.span = ⟨pos + spaces, pos + spaces + byteLength w⟩ ∧
      l' = ⟨⟨more, pos + spaces + byteLength w, 0⟩, l.indent, 0, true⟩ := by
  induction h generalizing done with
  | owed => cases hbreak
  | word h => exact ⟨done, _, _, _, _, fun _ => rfl, rfl, placed, h, rfl, rfl⟩
  | lineBreak =>
    rw [isBreak_breakToken] at hbreak
    cases hbreak
  | close => cases hbreak
  | eof => exact absurd rfl hne
  | start hblank hcode _ ih =>
    cases placed with
    | start =>
      obtain ⟨done', spaces, pos, w, more, -, howed, hplaced, hw, hspan, hl⟩ :=
        ih (placed_start hblank hcode _ (Nat.zero_add _)) hbreak hne
      exact ⟨done', spaces, pos, w, more, fun h => absurd h Bool.false_ne_true, howed, hplaced,
        hw, hspan, hl⟩

/-- A word stands on one line, with both of its ends. -/
theorem Placed.word_onLine {spaces : Nat} (hlined : Lined text)
    (h : Placed text done ⟨⟨replicate spaces ' ' ++ (w ++ more), pos, 0⟩, indent, 0, true⟩)
    (hw : WordText w token more) :
    OnLine text done (pos + spaces) ∧ OnLine text done (pos + spaces + byteLength w) ∧
      Placed text done ⟨⟨more, pos + spaces + byteLength w, 0⟩, indent, 0, true⟩ := by
  have hspaces : '\n' ∉ replicate spaces ' ' := by simp
  have hstart := h.forth hspaces
  rw [byteLength_replicate utf8Size_space] at hstart
  have hstop := hstart.forth hw.newline_notMem
  obtain ⟨first, tail, hcons, -⟩ := hw.exists_cons
  have hwne : w ≠ [] := by simp [hcons]
  have hmore : more ≠ [] :=
    @rest_ne_nil_of_lined [] w more (hstart.lined_rest hlined) hw.newline_notMem hwne
  exact ⟨hstart.onLine (by simp [hwne]), hstop.onLine hmore, hstop⟩

/-- The lexer stands within the line that begins behind `done`. -/
structure Within (text done : List Char) (l : Lexer) : Prop where
  placed : l.Placed text done
  owed : l.owed = 0
  started : l.started = true

/-- A word within a line stands on it and does not leave it. -/
theorem Within.word (h : l.Within text done) (hlined : Lined text)
    (hnext : l.nextToken = (.ok lexed, l')) (hbreak : lexed.token.isBreak = false)
    (hne : lexed.token ≠ .eof) :
    lexed.span.OnLine text done ∧ l'.Within text done ∧ l'.indent = l.indent := by
  have hgives := (nextToken_eq_ok_iff (h.placed.clean hlined)).1 hnext
  obtain ⟨done', spaces, pos, w, more, hdone, -, hplaced, hw, hspan, hl⟩ :=
    hgives.exists_word h.placed hbreak hne
  obtain rfl := hdone h.started
  obtain ⟨hstart, hstop, hbehind⟩ := hplaced.word_onLine hlined hw
  rw [hspan, hl]
  exact ⟨⟨hstart, hstop⟩, ⟨hbehind, rfl, rfl⟩, rfl⟩

/-- So does quote text. -/
theorem Within.quotePart {part : QuotePart} (h : l.Within text done) (hlined : Lined text)
    (hpart : l.nextQuotePart = (.ok part, l')) :
    OnLine text done l.pos ∧ OnLine text done l'.pos ∧ l'.Within text done ∧
      l'.indent = l.indent := by
  have hclean := h.placed.clean hlined
  obtain ⟨w, t, hw, hrest, -, hl⟩ := (nextQuotePart_eq_ok_iff hclean).1 hpart
  have hline := h.placed
  obtain ⟨⟨rest, pos, torn⟩, indent, owed, started⟩ := l
  obtain rfl : owed = 0 := h.owed
  obtain rfl : started = true := h.started
  obtain rfl : torn = 0 := hclean.1
  have hend : quoteEnd part.isEnd ≠ '\n' ∧ (quoteEnd part.isEnd).utf8Size = 1 := by
    cases part.isEnd <;> decide
  dsimp only at hrest hline
  rw [hrest, append_cons] at hline
  have hpiece : '\n' ∉ w ++ [quoteEnd part.isEnd] := by
    simp [hw.newline_notMem, Ne.symm hend.1]
  have hmore : l'.cursor.rest ≠ [] :=
    @rest_ne_nil_of_lined [] _ _ (hline.lined_rest hlined) hpiece (by simp)
  have hforth := hline.forth hpiece
  rw [byteLength_append, byteLength_cons, hend.2, byteLength_nil, ← Nat.add_assoc] at hforth
  have hstart : OnLine text done pos := hline.onLine (by simp)
  rw [hl]
  exact ⟨hstart, hforth.onLine hmore, ⟨hforth, rfl, rfl⟩, rfl⟩

/-- A break within a line leads to a later line of the text. -/
theorem Within.exists_break (h : l.Within text done) (hlined : Lined text)
    (hnext : l.nextToken = (.ok lexed, l')) (hbreak : lexed.token.isBreak = true) :
    ∃ done' gap blank tabs code,
      l.cursor.rest = gap ++ '\n' :: (blank ++ (replicate tabs '\t' ++ code)) ∧ Gap gap ∧
      BlankLines blank ∧ StartsCode code ∧ lexed.token = breakToken tabs l.indent ∧
      text = done' ++ (replicate tabs '\t' ++ code) ∧ l'.Placed text done' ∧
      done.length < done'.length ∧ l'.cursor.rest = code ∧ l'.indent = tabs ∧
      l'.owed = l.indent - tabs - 1 ∧ l'.started = true := by
  have hgives := (nextToken_eq_ok_iff (h.placed.clean hlined)).1 hnext
  obtain ⟨placed, howed, hstarted⟩ := h
  cases hgives with
  | owed => exact absurd howed (Nat.succ_ne_zero _)
  | word hw =>
    rw [hw.isBreak_eq_false] at hbreak
    cases hbreak
  | lineBreak hgap hblank hcode hdepth =>
    obtain ⟨done', htext, hplaced, hlength⟩ := placed.lineBreak hblank hcode
    exact ⟨done', _, _, _, _, rfl, hgap, hblank, hcode, rfl, htext, hplaced, hlength, rfl, rfl,
      rfl, rfl⟩
  | close => exact absurd (placed.indent_eq_zero hlined) (Nat.succ_ne_zero _)
  | eof => cases hbreak
  | start => cases hstarted

end Lexer

/-! ## Where a reader stands -/

/-- The reader stands in `text`. Behind a brace no dedent is owed. -/
structure Reader.Placed (text done : List Char) (r : Reader) : Prop where
  lexer : r.lexer.Placed text done
  behindBrace : ∀ holes, r.mode = .text holes → r.lexer.owed = 0 ∧ r.lexer.started = true

namespace Reader

variable {text : List Char} {r r' : Reader} {lexed : Lexed} {ts : List Lexed}

theorem placed_ofText (source : String) : (ofText source).Placed (Lexer.normalized source) [] :=
  ⟨Lexer.placed_ofText source, fun _ h => Mode.noConfusion h⟩

/-- Behind a brace the lexer is within a line. -/
theorem Placed.within {l : Lexer} {holes : Nat} (placed : Placed text done ⟨l, .text holes⟩) :
    l.Within text done :=
  ⟨placed.lexer, (placed.behindBrace holes rfl).1, (placed.behindBrace holes rfl).2⟩

theorem Step.placed (h : r.Step lexed r') (hlined : Lined text) (placed : r.Placed text done) :
    ∃ done', r'.Placed text done' := by
  cases h with
  | word hnext hne =>
    have hgives := (Lexer.nextToken_eq_ok_iff (placed.lexer.clean hlined)).1 hnext
    obtain ⟨done', hplaced⟩ := hgives.placed hlined placed.lexer
    refine ⟨done', hplaced, ?_⟩
    intro holes' hmode
    -- a brace is a word, and behind a word nothing is owed
    have hbrace := Mode.eq_rightBrace_of_behind hmode
    obtain ⟨_, _, _, _, _, -, -, -, -, -, hl⟩ :=
      hgives.exists_word placed.lexer (by rw [hbrace]; rfl) hne
    rw [hl]
    exact ⟨rfl, rfl⟩
  | text hpart =>
    obtain ⟨-, -, hwithin, -⟩ := placed.within.quotePart hlined hpart
    refine ⟨done, hwithin.placed, ?_⟩
    intro holes' hmode
    cases hmode

/-- A run from the start of a text stays in it. -/
theorem Reads.placed (h : r.Reads ts r') (hlined : Lined text) (placed : r.Placed text done) :
    ∃ done', r'.Placed text done' := by
  induction h generalizing done with
  | nil => exact ⟨done, placed⟩
  | cons first _ ih =>
    obtain ⟨done', placed'⟩ := first.placed hlined placed
    exact ih placed'

end Reader

end ClassLang
