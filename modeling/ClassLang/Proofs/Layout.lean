import ClassLang.Proofs.TextLines

/-!
# Indentation tokens and the layout of a text

The depth of a lexer is the depth of its line and the dedents that it still owes. Each indent raises
it by one and each dedent lowers it by one, whatever else is read in between, so that the indents
and dedents of a run say how its depth has changed (`Reader.Reads.depth_eq`). At a word nothing is
owed, and the depth is the number of tabs of its line. The main statement is
`tokens_mirror_layout`.
-/

set_option autoImplicit false

namespace ClassLang

/-- The tabs at the start of a line. -/
def leadingTabs (line : List Char) : Nat := (line.takeWhile (· = '\t')).length

/-- The number of indents among these tokens. -/
def indents (ts : List Lexed) : Nat := (ts.map Lexed.token).count .indent

/-- The number of dedents among these tokens. -/
def dedents (ts : List Lexed) : Nat := (ts.map Lexed.token).count .dedent

@[simp] theorem indents_nil : indents [] = 0 := rfl

@[simp] theorem dedents_nil : dedents [] = 0 := rfl

@[simp] theorem indents_cons (lexed : Lexed) (ts : List Lexed) :
    indents (lexed :: ts) = indents ts + if lexed.token = .indent then 1 else 0 := by
  simp [indents, List.count_cons]

@[simp] theorem dedents_cons (lexed : Lexed) (ts : List Lexed) :
    dedents (lexed :: ts) = dedents ts + if lexed.token = .dedent then 1 else 0 := by
  simp [dedents, List.count_cons]

/-! ## Depth -/

namespace Lexer

variable {text done : List Char} {l l' : Lexer} {lexed : Lexed}

/-- The depth of the line and the dedents that are still to come. -/
def depth (l : Lexer) : Nat := l.indent + l.owed

/-- A token changes the depth by what it stands for. -/
theorem Gives.depth_eq (h : l.Gives lexed l') :
    l.depth + indents [lexed] = l'.depth + dedents [lexed] := by
  induction h with
  | owed =>
    simp only [depth, indents_cons, dedents_cons, indents_nil, dedents_nil, reduceCtorEq, if_false,
      if_true]
    omega
  | word h =>
    have hbreak := h.isBreak_eq_false
    have hindent : ∀ {token : Token}, token.isBreak = false → token ≠ .indent ∧ token ≠ .dedent := by
      rintro token h
      constructor <;> rintro rfl <;> cases h
    simp [depth, hindent hbreak]
  | @lineBreak _ _ _ tabs _ indent _ _ _ hdepth =>
    simp only [depth, indents_cons, dedents_cons, indents_nil, dedents_nil, breakToken]
    rcases Nat.lt_trichotomy tabs indent with h | h | h
    · have hne : tabs ≠ indent := by omega
      simp only [hne, h, if_false, if_true, reduceCtorEq]
      omega
    · simp [h]
    · have hne : tabs ≠ indent := by omega
      have hlt : ¬ tabs < indent := by omega
      simp only [hne, hlt, if_false, if_true, reduceCtorEq]
      omega
  | close => simp [depth]
  | eof => rfl
  | start _ _ _ ih => exact ih

/-- Behind the break of a line there is code. -/
theorem Gives.startsCode (h : l.Gives lexed l') (placed : l.Placed text done)
    (hlined : Lined text) (hbreak : lexed.token.isBreak = true) : StartsCode l'.cursor.rest := by
  induction h generalizing done with
  | owed =>
    cases placed with
    | line _ _ _ hcode howed _ =>
      rw [howed (Nat.succ_ne_zero _)] at hcode
      exact hcode
  | word h =>
    rw [h.isBreak_eq_false] at hbreak
    cases hbreak
  | lineBreak _ _ hcode _ => exact hcode
  | close => exact absurd (placed.indent_eq_zero hlined) (Nat.succ_ne_zero _)
  | eof => cases hbreak
  | start hblank hcode _ ih =>
    cases placed with
    | start => exact ih (placed_start hblank hcode _ (Nat.zero_add _)) hbreak

/-- Where code follows, the only breaks are dedents that are owed. -/
theorem Gives.owed_of_startsCode (h : l.Gives lexed l') (placed : l.Placed text done)
    (hlined : Lined text) (hstart : l.started = true → StartsCode l.cursor.rest)
    (hbreak : lexed.token.isBreak = true) : lexed.token = .dedent ∧ l.owed ≠ 0 := by
  induction h generalizing done with
  | owed => exact ⟨rfl, Nat.succ_ne_zero _⟩
  | word h =>
    rw [h.isBreak_eq_false] at hbreak
    cases hbreak
  | @lineBreak gap blank code tabs _ _ hgap _ _ _ =>
    -- a line break begins with a character that is no code
    have hcode := hstart rfl
    cases hgap with
    | none => exact absurd rfl (hcode.head_ne (by decide : '\n' ∈ gapChars))
    | @comment spaces text _ =>
      cases spaces with
      | zero => exact absurd rfl (hcode.head_ne (by decide : '|' ∈ gapChars))
      | succ spaces => exact absurd rfl (hcode.head_ne (by decide : ' ' ∈ gapChars))
  | close => exact absurd (placed.indent_eq_zero hlined) (Nat.succ_ne_zero _)
  | eof => cases hbreak
  | start hblank hcode _ ih =>
    cases placed with
    | start => exact ih (placed_start hblank hcode _ (Nat.zero_add _)) (fun _ => hcode) hbreak

theorem Gives.owed_eq_zero (h : l.Gives lexed l') (hindent : lexed.token = .indent) :
    l'.owed = 0 := by
  induction h with
  | word _ => rfl
  | @lineBreak _ _ _ tabs _ indent _ _ _ _ =>
    dsimp only [breakToken] at hindent ⊢
    split at hindent
    · cases hindent
    · split at hindent
      · cases hindent
      · omega
  | start _ _ _ ih => exact ih hindent
  | owed | close | eof => cases hindent

/-- The tabs of a line are the depth of the lexer on it. -/
theorem Placed.leadingTabs_eq {behind : List Char} (h : l.Placed text done)
    (hstarted : l.started = true) (hbehind : text = done ++ behind) :
    leadingTabs (behind.takeWhile (· ≠ '\n')) = l.indent := by
  cases h with
  | start => cases hstarted
  | @line _ part rest _ indent _ htext _ _ hcode _ _ =>
    rw [List.append_cancel_left (hbehind.symm.trans htext)]
    have htabs : ∀ c ∈ List.replicate indent '\t', decide (c ≠ '\n') = true := by
      intro c hc
      rw [List.eq_of_mem_replicate hc]
      rfl
    -- the code behind the tabs does not begin with one
    have hstops : Stops (· = '\t') ((part ++ rest).takeWhile (· ≠ '\n')) := by
      generalize part ++ rest = code at hcode
      cases code with
      | nil => rfl
      | cons c code =>
        have hc : c ≠ '\t' := fun heq => hcode c rfl (by rw [heq]; decide)
        rw [List.takeWhile_cons]
        split
        · simp [Stops, hc]
        · rfl
    rw [leadingTabs, List.takeWhile_append_of_pos htabs, takeWhile_run (fun c hc => by
      simp [List.eq_of_mem_replicate hc]) hstops, List.length_replicate]

end Lexer

/-! ## Runs -/

namespace Reader

variable {source : String} {text done : List Char} {r r' : Reader} {lexed : Lexed}
  {ts : List Lexed}

theorem Step.depth_eq (h : r.Step lexed r') (hlined : Lined text) (placed : r.Placed text done) :
    r.lexer.depth + indents [lexed] = r'.lexer.depth + dedents [lexed] := by
  cases h with
  | word hnext _ =>
    exact ((Lexer.nextToken_eq_ok_iff (placed.lexer.clean hlined)).1 hnext).depth_eq
  | @text l l' part holes hpart =>
    obtain ⟨-, -, hwithin, hindent⟩ := placed.within.quotePart hlined hpart
    simp [Lexer.depth, hindent, hwithin.owed, placed.within.owed]

/-- The indents and dedents of a run say how the depth has changed. -/
theorem Reads.depth_eq (h : r.Reads ts r') (hlined : Lined text) (placed : r.Placed text done) :
    r.lexer.depth + indents ts = r'.lexer.depth + dedents ts := by
  induction h generalizing done with
  | nil => rfl
  | cons first _ ih =>
    have hfirst := first.depth_eq hlined placed
    obtain ⟨done', placed'⟩ := first.placed hlined placed
    have hothers := ih placed'
    simp only [indents_cons, dedents_cons, indents_nil, dedents_nil] at hfirst ⊢
    omega

/-- At a token that breaks no line the depth is the number of tabs of its line. -/
theorem Step.depth_eq_leadingTabs (h : r.Step lexed r')
    (placed : r.Placed (Lexer.normalized source) done) (hbreak : lexed.token.isBreak = false) :
    r.lexer.depth = leadingTabs (lineAt source lexed.span.start) := by
  have hlined := lined_normalized source
  -- the line on which the token starts, and a lexer on it
  suffices hline : ∃ (done' : List Char) (l : Lexer),
      OnLine (Lexer.normalized source) done' lexed.span.start ∧ l.Placed (Lexer.normalized source) done' ∧
      l.started = true ∧ l.indent = r.lexer.depth by
    obtain ⟨done', l, honLine, hplaced, hstarted, hindent⟩ := hline
    obtain ⟨-, part, rest, htext, -⟩ := id honLine
    rw [honLine.lineAt_eq htext, hplaced.leadingTabs_eq hstarted htext, hindent]
  cases h with
  | word hnext hne =>
    have hgives := (Lexer.nextToken_eq_ok_iff (placed.lexer.clean hlined)).1 hnext
    obtain ⟨done', spaces, pos, w, more, -, howed, hplaced, hw, hspan, -⟩ :=
      hgives.exists_word placed.lexer hbreak hne
    rw [hspan]
    refine ⟨done', _, (hplaced.word_onLine hlined hw).1, hplaced, rfl, ?_⟩
    rw [Lexer.depth, howed, Nat.add_zero]
  | @text l l' part holes hpart =>
    obtain ⟨honLine, -, -, -⟩ := placed.within.quotePart hlined hpart
    refine ⟨done, l, honLine, placed.lexer, placed.within.started, ?_⟩
    rw [Lexer.depth, placed.within.owed, Nat.add_zero]

/-- Where a run may break a line: nowhere before its first word, and behind a break only by a dedent
that is owed. -/
def AtCode (r : Reader) : Prop := r.lexer.started = true → StartsCode r.lexer.cursor.rest

theorem Step.atCode (h : r.Step lexed r') (hlined : Lined text) (placed : r.Placed text done)
    (hbreak : lexed.token.isBreak = true) : r'.AtCode := by
  intro _
  cases h with
  | word hnext _ =>
    have hgives := (Lexer.nextToken_eq_ok_iff (placed.lexer.clean hlined)).1 hnext
    exact hgives.startsCode placed.lexer hlined hbreak
  | text _ => cases hbreak

theorem Step.owed_of_atCode (h : r.Step lexed r') (hlined : Lined text)
    (placed : r.Placed text done) (hcode : r.AtCode) (hbreak : lexed.token.isBreak = true) :
    lexed.token = .dedent ∧ r.lexer.owed ≠ 0 := by
  cases h with
  | word hnext _ =>
    have hgives := (Lexer.nextToken_eq_ok_iff (placed.lexer.clean hlined)).1 hnext
    exact hgives.owed_of_startsCode placed.lexer hlined hcode hbreak
  | text _ => cases hbreak

theorem Step.owed_eq_zero (h : r.Step lexed r') (hlined : Lined text) (placed : r.Placed text done)
    (hindent : lexed.token = .indent) : r'.lexer.owed = 0 := by
  cases h with
  | word hnext _ =>
    exact ((Lexer.nextToken_eq_ok_iff (placed.lexer.clean hlined)).1 hnext).owed_eq_zero hindent
  | text _ => cases hindent

/-- At the end of a text the depth is back to zero. -/
theorem Ends.depth_eq_zero (h : r.Ends) (hlined : Lined text) (placed : r.Placed text done) :
    r.lexer.depth = 0 := by
  obtain ⟨holes, lexed, l, -, hnext, heof⟩ := h
  have hgives := (Lexer.nextToken_eq_ok_iff (placed.lexer.clean hlined)).1 hnext
  have hzero : ∀ {l l' : Lexer} {lexed : Lexed}, l.Gives lexed l' → lexed.token = .eof →
      l.depth = 0 := by
    intro l l' lexed h heof
    induction h with
    | word h => exact absurd heof h.ne_eof
    | lineBreak => exact absurd heof (Lexer.breakToken_ne_eof _ _)
    | eof => rfl
    | start _ _ _ ih => exact ih heof
    | owed => cases heof
    | close => cases heof
  exact hzero hgives heof

/-- An indent stands alone between two tokens that break no line. -/
theorem Reads.indent_between {before after : List Lexed}
    (h : r.Reads (before ++ lexed :: after) r') (hends : r'.Ends) (hlined : Lined text)
    (placed : r.Placed text done) (hcode : r.AtCode) (hindent : lexed.token = .indent) :
    ∃ before' previous next after', before = before' ++ [previous] ∧ after = next :: after' ∧
      previous.token.isBreak = false ∧ next.token.isBreak = false := by
  have hbreak : lexed.token.isBreak = true := by rw [hindent]; rfl
  obtain ⟨m, hbefore, hrest⟩ := h.split
  obtain ⟨doneₘ, placedₘ⟩ := hbefore.placed hlined placed
  cases hrest with
  | @cons _ m' _ _ _ first others =>
  obtain ⟨done', placed'⟩ := first.placed hlined placedₘ
  -- behind an indent there is code and nothing is owed
  have hcode' : m'.AtCode := first.atCode hlined placedₘ hbreak
  have howed : m'.lexer.owed = 0 := first.owed_eq_zero hlined placedₘ hindent
  have hprevious : ∃ before' previous, before = before' ++ [previous] ∧
      previous.token.isBreak = false := by
    rcases List.eq_nil_or_concat before with rfl | ⟨before', previous, rfl⟩
    · -- the run does not begin with a break
      cases hbefore
      have hdedent := (first.owed_of_atCode hlined placedₘ hcode hbreak).1
      rw [hindent] at hdedent
      cases hdedent
    rw [List.concat_eq_append] at hbefore ⊢
    refine ⟨before', previous, rfl, ?_⟩
    by_contra hprevious
    obtain ⟨k, hbefore', hlast⟩ := hbefore.split
    obtain ⟨doneₖ, placedₖ⟩ := hbefore'.placed hlined placed
    cases hlast with
    | cons last others =>
      cases others
      have hatCode := last.atCode hlined placedₖ (by simpa using hprevious)
      have hdedent := (first.owed_of_atCode hlined placedₘ hatCode hbreak).1
      rw [hindent] at hdedent
      cases hdedent
  have hnext : ∃ next after', after = next :: after' ∧ next.token.isBreak = false := by
    cases others with
    | nil =>
      -- an indent that nothing closes leaves the text deeper than it ends
      have hdepth := first.depth_eq hlined placedₘ
      have hend := hends.depth_eq_zero hlined placed'
      simp [hindent] at hdepth
      omega
    | @cons _ _ _ next after' second _ =>
      refine ⟨next, after', rfl, ?_⟩
      by_contra hnext
      exact (second.owed_of_atCode hlined placed' hcode' (by simpa using hnext)).2 howed
  obtain ⟨before', previous, hbefore', hprevious⟩ := hprevious
  obtain ⟨next, after', hafter', hnext⟩ := hnext
  exact ⟨before', previous, next, after', hbefore', hafter', hprevious, hnext⟩

end Reader

/-- The indentation tokens mirror the layout of the text. At every other token the indents so far,
less the dedents so far, are the tabs of its line; there are never more dedents than indents; an
indent stands alone between two tokens that break no line, so that each step up is by one; and in
the end there are as many dedents as indents. -/
theorem tokens_mirror_layout {source : String} {ts : List Lexed} (h : tokens source = .ok ts) :
    (∀ before lexed after, ts = before ++ lexed :: after → lexed.token.isBreak = false →
      (indents before : Int) - dedents before = leadingTabs (lineAt source lexed.span.start)) ∧
    (∀ before after, ts = before ++ after → 0 ≤ (indents before : Int) - dedents before) ∧
    (∀ before lexed after, ts = before ++ lexed :: after → lexed.token = .indent →
      ∃ before' previous next after', before = before' ++ [previous] ∧ after = next :: after' ∧
        previous.token.isBreak = false ∧ next.token.isBreak = false) ∧
    indents ts = dedents ts := by
  obtain ⟨r, hreads, hends⟩ := tokens_eq_ok_iff.1 h
  have hlined := lined_normalized source
  have hplaced := Reader.placed_ofText source
  have hzero : (Reader.ofText source).lexer.depth = 0 := rfl
  -- every place in the listing is reached by a run
  refine ⟨?_, ?_, ?_, ?_⟩
  · rintro before lexed after rfl hbreak
    obtain ⟨m, hbefore, hrest⟩ := hreads.split
    obtain ⟨done, hplacedₘ⟩ := hbefore.placed hlined hplaced
    have hdepth := hbefore.depth_eq hlined hplaced
    cases hrest with
    | cons first _ =>
      rw [← first.depth_eq_leadingTabs hplacedₘ hbreak]
      omega
  · rintro before after rfl
    obtain ⟨m, hbefore, -⟩ := hreads.split
    have hdepth := hbefore.depth_eq hlined hplaced
    omega
  · rintro before lexed after rfl hindent
    exact hreads.indent_between hends hlined hplaced (fun h => absurd h Bool.false_ne_true) hindent
  · obtain ⟨done, hplaced'⟩ := hreads.placed hlined hplaced
    have hdepth := hreads.depth_eq hlined hplaced
    rw [hends.depth_eq_zero hlined hplaced'] at hdepth
    omega

/-- A quote whose hole goes on one level deeper, with a blank line and a comment behind it. -/
def brokenHole : String := "a\n\tb \"x\x7bc\n\t\td\x7dy\"\n\n| note\ne"

theorem tokens_mirror_layout_brokenHole :
    ∃ before lexed after, tokens brokenHole = .ok (before ++ lexed :: after) ∧
      lexed = ⟨.quotePart "y" true, ⟨14, 16⟩⟩ ∧
      (indents before : Int) - dedents before = leadingTabs (lineAt brokenHole 14) ∧
      leadingTabs (lineAt brokenHole 14) = 2 ∧
      indents (before ++ lexed :: after) = dedents (before ++ lexed :: after) := by
  have hlist : tokens brokenHole = .ok ([⟨.name "a", ⟨0, 1⟩⟩, ⟨.indent, ⟨2, 3⟩⟩,
      ⟨.name "b", ⟨3, 4⟩⟩, ⟨.quoteStart "x", ⟨5, 8⟩⟩, ⟨.name "c", ⟨8, 9⟩⟩, ⟨.indent, ⟨10, 12⟩⟩,
      ⟨.name "d", ⟨12, 13⟩⟩, ⟨.rightBrace, ⟨13, 14⟩⟩] ++ ⟨.quotePart "y" true, ⟨14, 16⟩⟩ ::
      [⟨.dedent, ⟨25, 25⟩⟩, ⟨.dedent, ⟨25, 25⟩⟩, ⟨.name "e", ⟨25, 26⟩⟩, ⟨.newline, ⟨27, 27⟩⟩]) := by
    decide +kernel
  obtain ⟨htabs, -, -, htotal⟩ := tokens_mirror_layout hlist
  exact ⟨_, _, _, hlist, rfl, htabs _ _ _ rfl rfl, by decide +kernel, htotal⟩

end ClassLang
