import ClassLang.Proofs.ShortestDigits
import ClassLang.Proofs.Spelling
import ClassLang.Proofs.TextLines

/-!
# Literals that are read back

What a literal is written as, against what that text is read as. Quote text has an inverse pair of
escapes (`quoteText_readBack`), and a backslash, which has no escape of its own, never occurs in it.
An integer is read back from its digits. A floating-point number is read back exactly if it is
written in positions (`literal_readBack_iff`): an exponent is no part of a number in a program, and
neither are the words for infinity and for what is not a number. That digits in positions give the
same bits again rests on `positiveText_cases` and `nearestMagnitude_eq`.
-/

set_option autoImplicit false

namespace ClassLang

open List Number

/-! ## Quote text -/

/-- Escaped text is read as it was meant, from wherever the reader stands before it. -/
theorem Lexer.nextQuotePart_escapedText {t : String} (ht : IsQuoteText t) (isEnd : Bool)
    (r : List Char) (pos indent owed : Nat) (started : Bool) :
    nextQuotePart ⟨⟨(Typed.escapedText t).toList ++ quoteEnd isEnd :: r, pos, 0⟩, indent, owed,
        started⟩ =
      (.ok ⟨t, isEnd⟩,
        ⟨⟨r, pos + byteLength (Typed.escapedText t).toList + 1, 0⟩, indent, owed, started⟩) := by
  have hread : readQuotePart
      (Cursor.mend ⟨(Typed.escapedText t).toList ++ quoteEnd isEnd :: r, pos, 0⟩) =
      (.ok ⟨t, isEnd⟩, ⟨r, pos + byteLength (Typed.escapedText t).toList + 1, 0⟩) :=
    quoteFrom_eq_ok_iff.2
      ⟨_, t.toList, quoteText_escapedText ht, rfl, String.ofList_toList.symm, rfl⟩
  unfold nextQuotePart
  rw [hread]

theorem Lexer.isQuoteText_of_nextQuotePart {l : Lexer} {part : QuotePart}
    (h : l.nextQuotePart.1 = .ok part) : IsQuoteText part.text := by
  have hread : readQuotePart l.cursor.mend = (.ok part, (readQuotePart l.cursor.mend).2) :=
    Prod.ext h rfl
  obtain ⟨w, cs, hcs, -, htext, -⟩ := quoteFrom_eq_ok_iff.1 hread
  exact htext ▸ hcs.isQuoteText

/-- **Quote text is read back.** The texts of quotes are those without a backslash, and each of them
is read back from its escaped form, whatever follows the quote or the brace that ends it. -/
theorem quoteText_readBack (t : String) :
    ((∃ (l : Lexer) (isEnd : Bool), l.nextQuotePart.1 = .ok ⟨t, isEnd⟩) ↔ '\\' ∉ t.toList) ∧
      ('\\' ∉ t.toList → ∀ (isEnd : Bool) (r : List Char) (pos indent owed : Nat) (started : Bool),
        Lexer.nextQuotePart ⟨⟨(Typed.escapedText t).toList ++ quoteEnd isEnd :: r, pos, 0⟩,
            indent, owed, started⟩ =
          (.ok ⟨t, isEnd⟩,
            ⟨⟨r, pos + byteLength (Typed.escapedText t).toList + 1, 0⟩, indent, owed, started⟩)) := by
  refine ⟨⟨?_, ?_⟩, Lexer.nextQuotePart_escapedText⟩
  · rintro ⟨l, isEnd, h⟩
    exact Lexer.isQuoteText_of_nextQuotePart h
  · intro ht
    exact ⟨_, true, congrArg Prod.fst (Lexer.nextQuotePart_escapedText ht true [] 0 0 0 true)⟩

/-- A letter of several bytes, a line break, braces and a quote. -/
def mixedText : String := "é\n\x7b\"\x7d"

/-- The text with all kinds of characters, before the brace of a hole. -/
theorem quoteText_readBack_mixed :
    '\\' ∉ mixedText.toList ∧
      Lexer.nextQuotePart
          ⟨⟨(Typed.escapedText mixedText).toList ++ '{' :: "x\x7d".toList, 3, 0⟩, 1, 0, true⟩ =
        (.ok ⟨mixedText, false⟩, ⟨⟨"x\x7d".toList, 13, 0⟩, 1, 0, true⟩) := by
  have hplain : '\\' ∉ mixedText.toList := by decide
  have hbytes : byteLength (Typed.escapedText mixedText).toList = 9 := by decide
  have hread := (quoteText_readBack mixedText).2 hplain false "x\x7d".toList 3 1 0 true
  rw [hbytes] at hread
  exact ⟨hplain, hread⟩

/-! ## Texts of one word -/

/-- A text that is one word. -/
theorem map_tokens_word {source : String} {token : Token} (plain : token.isPlain = true)
    (h : ∀ more, Follows ['\n'] more → WordText source.toList token more) :
    map Lexed.token <$> tokens source = .ok [token, .newline] := by
  have hspells : Spells ['\n'] source.toList [token] := .word plain h (follows_some _ _)
  have hline := (h ['\n'] ⟨'\n', [], rfl, mem_cons_self⟩).newline_notMem
  exact map_tokens_eq_ok_iff.2 (hspells.takes_ofText mem_cons_self hline)

/-- Within a line a token that is no line break is a word behind spaces. -/
theorem Lexer.gives_word {cs : List Char} {pos indent : Nat} {lexed : Lexed} {l : Lexer}
    (h : (inLine cs pos indent).Gives lexed l) (hbreak : lexed.token.isBreak = false)
    (hne : lexed.token ≠ .eof) : ∃ spaces w more, cs = replicate spaces ' ' ++ (w ++ more) ∧
      WordText w lexed.token more ∧ l = inLine more (pos + spaces + byteLength w) indent := by
  unfold inLine at h
  cases h with
  | @word spaces _ _ w more _ hword => exact ⟨spaces, w, more, rfl, hword, rfl⟩
  | lineBreak =>
    rw [isBreak_breakToken] at hbreak
    cases hbreak
  | close => cases hbreak
  | eof => exact absurd rfl hne

/-- Within a line a line break stands behind its end or before a comment. -/
theorem Lexer.gives_newline {cs : List Char} {pos indent : Nat} {span : Span} {l : Lexer}
    (h : (inLine cs pos indent).Gives ⟨.newline, span⟩ l) :
    ∃ gap more, Gap gap ∧ cs = gap ++ '\n' :: more := by
  unfold inLine at h
  generalize hlexed : (⟨.newline, span⟩ : Lexed) = lexed at h
  cases h with
  | word hword =>
    obtain ⟨rfl, -⟩ := Lexed.mk.inj hlexed
    cases hword.isBreak_eq_false
  | @lineBreak gap blank code tabs _ _ hgap =>
    exact ⟨gap, blank ++ (replicate tabs '\t' ++ code), hgap, rfl⟩
  | close => cases hlexed
  | eof => cases hlexed

theorem Gap.head_mem {gap : List Char} (h : Gap gap) (more : List Char) :
    ∃ c rest, gap ++ '\n' :: more = c :: rest ∧ c ∈ gapChars := by
  cases h with
  | none => exact ⟨'\n', more, rfl, by decide⟩
  | @comment spaces text _ =>
    cases spaces with
    | zero => exact ⟨'|', _, rfl, by decide⟩
    | succ spaces => exact ⟨' ', _, rfl, by decide⟩

theorem Token.keyword?_ne_literal {text : String} {value : Literal} :
    Token.keyword? text ≠ some (.literal value) := by
  intro h
  unfold Token.keyword? at h
  split at h <;> cases h

/-- The characters of a word that is read as a float. -/
theorem WordText.float_chars {w more : List Char} {x : Binary64}
    (h : WordText w (.literal (.float x)) more) : ∀ c ∈ w, c.isDigit = true ∨ c ∈ ['-', '.'] := by
  have hother : ∀ {text : String} {other : Token}, other ≠ .literal (.float x) →
      Token.literal (.float x) ≠ (Token.keyword? text).getD other := by
    intro text other hne heq
    cases hword : Token.keyword? text with
    | none =>
      rw [hword] at heq
      exact hne heq.symm
    | some token =>
      rw [hword] at heq
      exact Token.keyword?_ne_literal (hword.trans (congrArg some heq.symm))
  generalize htoken : Token.literal (.float x) = token at h
  cases h with
  | punctuation h =>
    subst htoken
    unfold punctuation? at h
    split at h <;> cases h
  | dotDot | dot | text | quoteStart | typeName => cases htoken
  | name | operator => exact absurd htoken (hother (by simp))
  | @number first tail _ value hfirst hnumber =>
    cases htoken
    generalize hw : first :: tail = w at hnumber
    cases hnumber with
    | @float first' digits fraction _ _ hdigits hfraction =>
      cases hw
      intro c hc
      rcases mem_cons.1 hc with rfl | hc
      · rcases hfirst with hfirst | ⟨rfl, -⟩
        · exact .inl hfirst
        · exact .inr (by decide)
      rcases mem_append.1 hc with hc | hc
      · exact .inl (hdigits c hc)
      · rcases mem_cons.1 hc with rfl | hc
        · exact .inr (by decide)
        · exact .inl (hfraction c hc)

/-- A text with a letter before its first gap is not one float. -/
theorem not_float_of_letter {source : String} {before after : List Char} {c : Char}
    (htext : source.toList = before ++ c :: after) (hbefore : ∀ d ∈ before, d ∉ gapChars)
    (hgap : c ∉ gapChars) (hnumber : ¬ (c.isDigit = true ∨ c ∈ ['-', '.'])) (x : Binary64) :
    map Lexed.token <$> tokens source ≠ .ok [.literal (.float x), .newline] := by
  intro h
  obtain ⟨r, htakes, -⟩ := map_tokens_eq_ok_iff.1 h
  obtain ⟨rest, hnormal⟩ : ∃ rest, Lexer.normalized source = before ++ c :: rest := by
    unfold Lexer.normalized
    split
    · exact ⟨after, htext⟩
    · exact ⟨after ++ ['\n'], by rw [htext, append_assoc, cons_append]⟩
  have hstarts : StartsCode (Lexer.normalized source) := by
    rw [hnormal]
    intro d hd
    cases before with
    | nil => exact Option.some.inj hd ▸ hgap
    | cons first others => exact hbefore d (Option.some.inj hd ▸ mem_cons_self)
  have hclean : (Lexer.inLine (Lexer.normalized source) 0 0).Clean := ⟨rfl, lined_normalized source⟩
  -- the float is a word, and behind it the line ends
  have hline := htakes.of_nextToken (Lexer.nextToken_ofText hstarts).symm
  obtain ⟨l, ⟨span, hfirst⟩, -, hothers⟩ := hline.first
  obtain ⟨l', ⟨span', hsecond⟩, -, -⟩ := hothers.first
  have hgives := (Lexer.nextToken_eq_ok_iff hclean).1 hfirst
  have hclean' := hgives.clean hclean
  obtain ⟨spaces, w, more, hcs, hword, rfl⟩ := Lexer.gives_word hgives rfl (by simp)
  obtain ⟨gap, lines, hends, hmore⟩ :=
    Lexer.gives_newline ((Lexer.nextToken_eq_ok_iff hclean').1 hsecond)
  obtain ⟨d, tail, hhead, hd⟩ := hends.head_mem lines
  have hpassed : c ∉ replicate spaces ' ' ++ w := by
    intro hc
    rcases mem_append.1 hc with hc | hc
    · exact hgap (eq_of_mem_replicate hc ▸ by decide)
    · exact hnumber (hword.float_chars c hc)
  rw [hnormal, hmore, hhead, ← append_assoc] at hcs
  rcases append_eq_append_iff.1 hcs with ⟨left, hleft, hright⟩ | ⟨left, hleft, hright⟩
  · cases left with
    | nil => exact hgap ((cons.inj hright).1 ▸ hd)
    | cons first others =>
      obtain ⟨rfl, -⟩ := cons.inj hright
      exact hpassed (hleft ▸ by simp)
  · cases left with
    | nil => exact hgap ((cons.inj hright).1 ▸ hd)
    | cons first others =>
      obtain ⟨rfl, -⟩ := cons.inj hright
      exact hbefore d (hleft ▸ by simp) hd

/-! ## Numbers -/

namespace Number

theorem isDigit_of_isDigit {c : Char} (h : c.isDigit = true) : isDigit c = true := by
  rw [isDigit, digitValue?_of_isDigit h]
  rfl

/-- Digits with a point among them are read as all the digits, of which some count below one. -/
theorem readDecimal?_point {whole fraction : List Char} (hwhole : IsDigits whole)
    (hfraction : IsDigits fraction) :
    readDecimal? (whole ++ '.' :: fraction) =
      some ⟨Nat.ofDigitChars 10 (whole ++ fraction) 0, -fraction.length⟩ := by
  have hrun : ∀ d ∈ whole, isDigit d = true := fun d hd => isDigit_of_isDigit (hwhole.2 d hd)
  have hrun' : ∀ d ∈ fraction, isDigit d = true := fun d hd => isDigit_of_isDigit (hfraction.2 d hd)
  have hpoint : Stops isDigit ('.' :: fraction) := by rfl
  have hstop : Stops isDigit ([] : List Char) := rfl
  have hdigits : ∀ d ∈ whole ++ fraction, d.isDigit = true := by
    intro d hd
    exact (mem_append.1 hd).elim (hwhole.2 d) (hfraction.2 d)
  have htake := takeWhile_run hrun' hstop
  have hdrop := dropWhile_run hrun' hstop
  rw [append_nil] at htake hdrop
  unfold readDecimal?
  rw [takeWhile_run hrun hpoint, dropWhile_run hrun hpoint]
  change ((digitsValue? (whole ++ fraction.takeWhile isDigit)).bind fun digits =>
    (readExponent? (fraction.dropWhile isDigit)).map fun exponent =>
      (⟨digits, exponent - (fraction.takeWhile isDigit).length⟩ : Decimal)) = _
  rw [htake, hdrop, digitsValue?, if_neg (by simp [hwhole.1]), digitsValueFrom?_digits hdigits]
  simp [readExponent?]

variable {x : Binary64}

/-- Digits of the usual sizes that round to a number give its bits. -/
theorem magnitudeOfDecimal_eq (pos : 0 < x.magnitude) (finite : x.magnitude < Binary64.infinityBits)
    {d : Decimal} (h : x.Rounds d.value) (hlow : floatStyle.positionalFrom ≤ Int.log 10 d.value + 1)
    (hhigh : Int.log 10 d.value + 1 ≤ floatStyle.positionalTo) :
    magnitudeOfDecimal d.digits d.exponent = x.magnitude := by
  have hvalue := h.pos pos
  have hdigits : d.digits ≠ 0 := by
    intro hzero
    rw [Decimal.value, hzero, Nat.cast_zero, zero_mul] at hvalue
    exact lt_irrefl _ hvalue
  have hsize := length_toDigits_add (Nat.pos_of_ne_zero hdigits)
  -- they are far from where the size alone tells the result
  have hfrom : floatStyle.positionalFrom = -3 := rfl
  have hto : floatStyle.positionalTo = 16 := rfl
  unfold magnitudeOfDecimal
  dsimp only
  rw [hsize, if_neg (by omega), if_neg (by omega)]
  refine nearestMagnitude_eq pos finite ?_
  rwa [Fraction.value_ofDecimal]

end Number

namespace Binary64

open Number (IsDigits)

variable (x : Binary64)

/-- A finite number of a size that is written in positions. -/
def Positional : Prop :=
  x.magnitude < infinityBits ∧ (x.magnitude = 0 ∨ 1 / 10 ^ 4 ≤ x.size ∧ x.size < 10 ^ 16)

instance : Decidable x.Positional :=
  inferInstanceAs (Decidable (x.magnitude < infinityBits ∧
    (x.magnitude = 0 ∨ 1 / 10 ^ 4 ≤ x.size ∧ x.size < 10 ^ 16)))

variable {x}

/-- The sign and the other bits make up the number. -/
theorem ofMagnitude_magnitude : ofMagnitude x.isNegative x.magnitude = x := by
  obtain ⟨bits⟩ := x
  have hlt : bits.toNat < 2 ^ 64 := bits.toNat_lt
  have hbits : (if (⟨bits⟩ : Binary64).isNegative then Nat.pow 2 63 + magnitude ⟨bits⟩
      else magnitude ⟨bits⟩) = bits.toNat := by
    unfold isNegative magnitude
    simp only [Nat.pow_eq, decide_eq_true_eq]
    split <;> omega
  unfold ofMagnitude
  rw [hbits, UInt64.ofNat_toNat]

/-- What stands behind the sign of a number. -/
def body (x : Binary64) : List Char :=
  if x.isInfinite then ['i', 'n', 'f']
  else if x.magnitude = 0 then ['0', '.', '0']
  else positiveText floatStyle x

theorem toList_text (h : x.isNaN = false) :
    x.text.toList = (if x.isNegative then ['-'] else []) ++ x.body := by
  unfold text
  rw [if_neg (by simp [h]), String.toList_ofList]
  rfl

/-- A number of the usual sizes has digits before and behind the point, which give its bits. -/
theorem Positional.body_eq (h : x.Positional) : ∃ whole fraction, x.body = whole ++ '.' :: fraction ∧
    IsDigits whole ∧ IsDigits fraction ∧
    readMagnitude? (whole ++ '.' :: fraction) = some x.magnitude := by
  obtain ⟨finite, hsize⟩ := h
  have hfinite : x.isInfinite = false := by
    rw [isInfinite, decide_eq_false_iff_not]
    omega
  unfold body
  rw [hfinite, if_neg Bool.false_ne_true]
  by_cases hzero : x.magnitude = 0
  · refine ⟨['0'], ['0'], if_pos hzero, ⟨by simp, by simp⟩, ⟨by simp, by simp⟩, ?_⟩
    rw [hzero]
    rfl
  rw [if_neg hzero]
  have pos := Nat.pos_of_ne_zero hzero
  have hrange := hsize.resolve_left hzero
  rcases positiveText_cases pos finite with
    ⟨-, -, whole, fraction, htext, hwhole, hfraction, hvalue⟩ | ⟨hnot, -⟩
  · refine ⟨whole, fraction, htext, hwhole, hfraction, ?_⟩
    obtain ⟨hfrom, hto⟩ := (inStyle_iff pos finite).2 hrange
    have hrounds := (shortestDecimal_spec pos).1
    rw [← hvalue] at hfrom hto hrounds
    have hmagnitude := magnitudeOfDecimal_eq pos finite
      (d := ⟨Nat.ofDigitChars 10 (whole ++ fraction) 0, -fraction.length⟩) hrounds hfrom hto
    unfold readMagnitude?
    rw [readDecimal?_point hwhole hfraction]
    exact congrArg some hmagnitude
  · exact absurd hrange hnot

/-- The text of a number of the usual sizes is read as the number, unless more digits follow. -/
theorem Positional.wordText (h : x.Positional) {more : List Char} (hstops : Stops Char.isDigit more) :
    WordText x.text.toList (.literal (.float x)) more := by
  obtain ⟨whole, fraction, hbody, hwhole, hfraction, hread⟩ := h.body_eq
  have hnan : x.isNaN = false := by
    rw [isNaN, decide_eq_false_iff_not]
    have := h.1
    omega
  obtain ⟨first, digits, rfl⟩ := exists_cons_of_ne_nil hwhole.1
  have hfirst : first.isDigit = true := hwhole.2 first mem_cons_self
  rw [toList_text hnan, hbody]
  cases hsign : x.isNegative with
  | true =>
    have hvalue : readBinary64? ('-' :: (first :: digits ++ '.' :: fraction)) = some x := by
      rw [readBinary64?, hread, Option.map_some, ← hsign, ofMagnitude_magnitude]
    exact .number (.inr ⟨rfl, hfirst⟩) (.float hwhole.2 hfraction.2 hfraction.1 hstops hvalue)
  | false =>
    have hvalue : readBinary64? (first :: (digits ++ '.' :: fraction)) = some x := by
      rw [readBinary64?, ← cons_append, hread, Option.map_some, ← hsign,
        ofMagnitude_magnitude]
      · rintro rest heq
        obtain ⟨rfl, -⟩ := cons.inj heq
        cases hfirst
      · rintro rest heq
        obtain ⟨rfl, -⟩ := cons.inj heq
        cases hfirst
    exact .number (.inl hfirst) (.float (fun d hd => hwhole.2 d (mem_cons_of_mem _ hd))
      hfraction.2 hfraction.1 hstops hvalue)

theorem exponentText_eq {w : List Char} (hw : IsDigits w) (magnitude : ℤ) :
    ∃ before after, exponentText w magnitude = before ++ 'e' :: after ∧
      ∀ d ∈ before, d ∉ gapChars := by
  have hdigit : ∀ d ∈ w, d ∉ gapChars := fun d hd => not_mem_of_class (hw.2 d hd) (by decide)
  unfold exponentText
  dsimp only
  refine ⟨_, _, by rw [append_assoc]; rfl, ?_⟩
  intro d hd
  rcases mem_append.1 hd with hd | hd
  · exact hdigit d (mem_of_mem_take hd)
  split at hd
  · cases hd
  · rcases mem_cons.1 hd with rfl | hd
    · decide
    · exact hdigit d (mem_of_mem_drop hd)

/-- A text that is no number of the usual sizes shows a letter, before which there is no gap. -/
theorem exists_letter (h : ¬ x.Positional) : ∃ before c after, x.text.toList = before ++ c :: after ∧
    (∀ d ∈ before, d ∉ gapChars) ∧ c ∈ ['N', 'i', 'e'] := by
  by_cases hnan : x.isNaN = true
  · refine ⟨[], 'N', ['a', 'N'], ?_, by simp, by decide⟩
    rw [text, if_pos hnan]
    rfl
  rw [toList_text (Bool.eq_false_iff.2 hnan)]
  have hsign : ∀ d ∈ if x.isNegative then ['-'] else [], d ∉ gapChars := by
    split <;> simp [gapChars]
  -- it is enough to find the letter behind the sign
  suffices hbody : ∃ before c after, x.body = before ++ c :: after ∧
      (∀ d ∈ before, d ∉ gapChars) ∧ c ∈ ['N', 'i', 'e'] by
    obtain ⟨before, c, after, hbody, hbefore, hc⟩ := hbody
    refine ⟨_ ++ before, c, after, by rw [hbody, append_assoc], ?_, hc⟩
    intro d hd
    exact (mem_append.1 hd).elim (hsign d) (hbefore d)
  unfold body
  split
  · exact ⟨[], 'i', ['n', 'f'], rfl, by simp, by decide⟩
  · next hinfinite =>
    rw [isNaN, decide_eq_true_eq] at hnan
    rw [isInfinite, decide_eq_true_eq] at hinfinite
    have finite : x.magnitude < infinityBits := by omega
    have hzero : x.magnitude ≠ 0 := fun hzero => h ⟨finite, .inl hzero⟩
    rw [if_neg hzero]
    rcases positiveText_cases (Nat.pos_of_ne_zero hzero) finite with
      ⟨hlow, hhigh, -⟩ | ⟨-, w, magnitude, htext, hw⟩
    · exact absurd ⟨finite, .inr ⟨hlow, hhigh⟩⟩ h
    · obtain ⟨before, after, heq, hbefore⟩ := exponentText_eq hw magnitude
      exact ⟨before, 'e', after, htext.trans heq, hbefore, by decide⟩

end Binary64

/-! ## Literals -/

theorem int_readBack (n : Int64) :
    map Lexed.token <$> tokens (Typed.literalSource (.int n)) =
      .ok [.literal (.int n), .newline] := by
  obtain ⟨first, digits, htext, hdigits, hfirst, hvalue⟩ := intText_cases n
  refine map_tokens_word rfl ?_
  intro more hmore
  rw [Typed.literalSource, htext]
  refine .number hfirst (.int hdigits (hmore.stops (by decide)) ?_ hvalue)
  rintro rest rfl
  obtain ⟨c, rest', heq, hc⟩ := hmore
  cases heq
  exact absurd hc (by decide)

theorem float_readBack_iff (x : Binary64) :
    map Lexed.token <$> tokens (Typed.literalSource (.float x)) =
      .ok [.literal (.float x), .newline] ↔ x.Positional := by
  constructor
  · intro h
    by_contra hnot
    obtain ⟨before, c, after, htext, hbefore, hc⟩ := Binary64.exists_letter hnot
    have hgap : ∀ c ∈ ['N', 'i', 'e'], c ∉ gapChars := by simp [gapChars]
    have hnumber : ∀ c ∈ ['N', 'i', 'e'], ¬ (c.isDigit = true ∨ c ∈ ['-', '.']) := by
      simp only [forall_mem_cons]
      exact ⟨by decide, by decide, by decide, forall_mem_nil _⟩
    exact not_float_of_letter htext hbefore (hgap c hc) (hnumber c hc) x h
  · intro h
    exact map_tokens_word rfl fun more hmore => h.wordText (hmore.stops (by decide))

theorem str_readBack_iff (text : String) :
    map Lexed.token <$> tokens (Typed.literalSource (.str text)) =
      .ok [.literal (.str text), .newline] ↔ IsQuoteText text := by
  constructor
  · intro h
    -- no token of a text has a backslash in it
    obtain ⟨r, ⟨ts, hreads, htokens⟩, -⟩ := map_tokens_eq_ok_iff.1 h
    have hmem : Token.literal (.str text) ∈ ts.map Lexed.token := by simp [htokens]
    obtain ⟨lexed, hlexed, htoken⟩ := mem_map.1 hmem
    have hspelled := hreads.spelled (Lexer.clean_ofText _) lexed hlexed
    rw [htoken] at hspelled
    exact hspelled
  · intro h
    have hsource : (Typed.literalSource (.str text)).toList =
        '"' :: ((Typed.escapedText text).toList ++ ['"']) := by simp [Typed.literalSource]
    refine map_tokens_word rfl ?_
    intro more _
    rw [hsource]
    exact wordText_text h more

/-- The literals that are read back: numbers that are written in digits and a point, and texts that
can stand in a quote. -/
def Literal.IsReadBack : Literal → Prop
  | .int _ => True
  | .float x => x.Positional
  | .str text => IsQuoteText text

/-- **Literals are read back.** What a literal is written as is read as this literal alone, exactly
for all integers, for the floating-point numbers that are written in positions, and for the texts
without a backslash. -/
theorem literal_readBack_iff (value : Literal) :
    List.map Lexed.token <$> tokens (Typed.literalSource value) = .ok [.literal value, .newline] ↔
      value.IsReadBack := by
  cases value with
  | int n => exact iff_of_true (int_readBack n) trivial
  | float x => exact float_readBack_iff x
  | str text => exact str_readBack_iff text

/-- A text with more than sixteen digits before the point is read as a number whose own text is
read as something else. -/
theorem power_not_readBack :
    let x : Binary64 := ⟨0x4341C37937E08000⟩
    List.map Lexed.token <$> tokens "10000000000000000.0" = .ok [.literal (.float x), .newline] ∧
      Typed.literalSource (.float x) = "1e16" ∧
      List.map Lexed.token <$> tokens (Typed.literalSource (.float x)) =
        .ok [.literal (.int 1), .name "e16", .newline] ∧ ¬ x.Positional := by
  decide +kernel

end ClassLang
