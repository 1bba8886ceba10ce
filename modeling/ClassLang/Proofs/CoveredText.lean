import ClassLang.Proofs.TokenStream
import Mathlib.Data.List.Chain
import Mathlib.Data.Nat.Digits.Defs

/-!
# The lexer loses no text

Every character of a text belongs to a token or to what may be passed over. `Token.WrittenAs` says
which text a token is written as, and `Between` what may stand between two tokens: spaces, or the
comment at the end of a line, its end, and lines without code. One move of the lexer passes over
such a text and takes such a word (`Lexer.Gives.covers`), so a run of it lays the whole text out in
this way (`Laid`).

The main statement is `tokens_cover_text`.
-/

set_option autoImplicit false

namespace ClassLang

open List

/-! ## Words of tokens -/

/-- The number that a run of decimal digits stands for. -/
def decimal (digits : List Char) : Nat :=
  Nat.ofDigits 10 (digits.reverse.map fun d => d.toNat - '0'.toNat)

/-- The text is the decimal form of a number, with a minus sign for negative ones. -/
def DecimalText (word : List Char) (value : Int) : Prop :=
  ∃ digits, digits ≠ [] ∧ (∀ d ∈ digits, d.isDigit = true) ∧
    (word = digits ∧ value = decimal digits ∨ word = '-' :: digits ∧ value = -decimal digits)

/-- The text that a token is written as. Names, operators, keywords and punctuation are written as
they are shown, integers as decimal numbers, quotes with their escapes between marks, and the tokens
of line breaks as the tabs of the line. -/
def Token.WrittenAs (token : Token) (word : List Char) : Prop :=
  match token with
  | .literal (.int value) => DecimalText word value.toInt
  | .literal (.float value) => Number.readBinary64? word = some value
  | .literal (.str text) => ∃ w, word = '"' :: (w ++ ['"']) ∧ QuoteText w text.toList
  | .quoteStart text => ∃ w, word = '"' :: (w ++ ['{']) ∧ QuoteText w text.toList
  | .quotePart text isEnd => ∃ w, word = w ++ [quoteEnd isEnd] ∧ QuoteText w text.toList
  | .newline | .indent | .dedent => ∃ tabs, word = List.replicate tabs '\t'
  | .eof => False
  | other => word = other.text.toList

theorem decimal_concat (digits : List Char) (d : Char) :
    decimal (digits ++ [d]) = decimal digits * 10 + (d.toNat - '0'.toNat) := by
  rw [decimal, reverse_append, reverse_singleton, singleton_append, map_cons,
    Nat.ofDigits_cons, decimal]
  omega

theorem decimal_of_digitsValueFrom? {digits before : List Char} {n : Nat}
    (h : Number.digitsValueFrom? (decimal before) digits = some n) :
    n = decimal (before ++ digits) := by
  induction digits generalizing before with
  | nil =>
    rw [append_nil]
    exact (Option.some.inj h).symm
  | cons d digits ih =>
    obtain ⟨value, hvalue, h⟩ := Option.bind_eq_some_iff.1 h
    rw [Number.digitValue?] at hvalue
    split at hvalue
    · cases hvalue
      rw [← decimal_concat] at h
      rw [ih h, append_assoc, singleton_append]
    · cases hvalue

theorem decimal_of_digitsValue? {digits : List Char} {n : Nat}
    (h : Number.digitsValue? digits = some n) : digits ≠ [] ∧ n = decimal digits := by
  rw [Number.digitsValue?] at h
  split at h
  · cases h
  · next hempty =>
    refine ⟨fun hnil => hempty (by rw [hnil]; rfl), ?_⟩
    exact @decimal_of_digitsValueFrom? digits [] n h

theorem toInt_of_int64Of? {value : Int} {i : Int64} (h : Number.int64Of? value = some i) :
    i.toInt = value := by
  rw [Number.int64Of?] at h
  split at h
  · next hrange =>
    cases h
    have hmin : Int64.minValue.toInt = -2 ^ 63 := rfl
    have hmax : Int64.maxValue.toInt = 2 ^ 63 - 1 := rfl
    exact Int64.toInt_ofInt_of_le (by omega) (by omega)
  · cases h

/-- An integer literal is the decimal value of its text. -/
theorem decimalText_of_readInt64? {first : Char} {digits : List Char} {value : Int64}
    (hfirst : first.isDigit = true ∨ first = '-' ∧ digits.head?.any Char.isDigit = true)
    (hdigits : ∀ d ∈ digits, d.isDigit = true)
    (h : Number.readInt64? (first :: digits) = some value) :
    DecimalText (first :: digits) value.toInt := by
  rcases hfirst with hfirst | ⟨rfl, -⟩
  · have hall : ∀ d ∈ first :: digits, d.isDigit = true := forall_mem_cons.2 ⟨hfirst, hdigits⟩
    rw [Number.readInt64?] at h
    · obtain ⟨n, hn, h⟩ := Option.bind_eq_some_iff.1 h
      obtain ⟨hne, rfl⟩ := decimal_of_digitsValue? hn
      exact ⟨_, hne, hall, Or.inl ⟨rfl, toInt_of_int64Of? h⟩⟩
    -- a word that begins with a digit is none with a sign
    · rintro digits' heq
      obtain ⟨rfl, -⟩ := List.cons.inj heq
      cases hfirst
    · rintro digits' heq
      obtain ⟨rfl, -⟩ := List.cons.inj heq
      cases hfirst
  · rw [Number.readInt64?] at h
    obtain ⟨n, hn, h⟩ := Option.bind_eq_some_iff.1 h
    obtain ⟨hne, rfl⟩ := decimal_of_digitsValue? hn
    exact ⟨_, hne, hdigits, Or.inr ⟨rfl, toInt_of_int64Of? h⟩⟩

theorem writtenAs_of_keyword? {text : String} {token : Token}
    (h : Token.keyword? text = some token) : token.WrittenAs text.toList := by
  unfold Token.keyword? at h
  split at h <;> cases h <;> rfl

theorem writtenAs_of_punctuation? {c : Char} {token : Token} (h : punctuation? c = some token) :
    token.WrittenAs [c] := by
  unfold punctuation? at h
  split at h <;> cases h <;> rfl

/-- A word stands for the token that it is read as. -/
theorem WordText.writtenAs {w more : List Char} {token : Token} (h : WordText w token more) :
    token.WrittenAs w := by
  cases h with
  | punctuation h => exact writtenAs_of_punctuation? h
  | dotDot => exact (rfl : ['.', '.'] = "..".toList)
  | dot _ => exact (rfl : ['.'] = ".".toList)
  | @text w t _ h | @quoteStart w t _ h => exact ⟨w, rfl, by rwa [String.toList_ofList]⟩
  | number hfirst h =>
    generalize hw : _ :: _ = word at h
    cases h with
    | int hdigits _ _ hvalue =>
      cases hw
      exact decimalText_of_readInt64? hfirst hdigits hvalue
    | float _ _ _ _ hvalue => exact hvalue
  | @name first tail _ _ _ _ | @operator first tail _ _ _ _ _ =>
    cases hkeyword : Token.keyword? (String.ofList (first :: tail)) with
    | some token =>
      have hwritten := writtenAs_of_keyword? hkeyword
      rwa [String.toList_ofList] at hwritten
    | none => exact String.toList_ofList.symm
  | typeName _ _ _ => exact String.toList_ofList.symm

/-! ## What stands between tokens -/

/-- What may stand between two tokens: spaces, or the comment behind the last word of a line, the
end of the line and lines without code. -/
inductive Between : List Char → Prop where
  | spaces (n : Nat) : Between (List.replicate n ' ')
  | lines {gap blank : List Char} (hgap : Gap gap) (hblank : BlankLines blank) :
      Between (gap ++ '\n' :: blank)

theorem between_nil : Between [] := .spaces 0

/-- Nothing is passed over where code begins. -/
theorem Between.eq_nil {passed more : List Char} (h : Between passed)
    (hcode : StartsCode (passed ++ more)) : passed = [] := by
  cases h with
  | spaces n =>
    cases n with
    | zero => rfl
    | succ n => exact absurd (by decide) (hcode ' ' rfl)
  | lines hgap hblank =>
    cases hgap with
    | none => exact absurd (by decide) (hcode '\n' rfl)
    | @comment spaces text _ =>
      cases spaces with
      | zero => exact absurd (by decide) (hcode '|' rfl)
      | succ n => exact absurd (by decide) (hcode ' ' rfl)

theorem writtenAs_breakToken (tabs indent : Nat) :
    (Lexer.breakToken tabs indent).WrittenAs (List.replicate tabs '\t') := by
  unfold Lexer.breakToken
  split
  · exact ⟨tabs, rfl⟩
  · split <;> exact ⟨tabs, rfl⟩

/-! ## Moves of the lexer -/

namespace Lexer

/-- From one place to another the lexer passes over a text and takes the word of a token. -/
structure Covers (l : Lexer) (lexed : Lexed) (l' : Lexer) (passed word : List Char) : Prop where
  text : l.cursor.rest = passed ++ (word ++ l'.cursor.rest)
  between : Between passed
  written : lexed.token.WrittenAs word
  span : lexed.span = ⟨l.pos + byteLength passed, l.pos + byteLength passed + byteLength word⟩
  pos : l'.pos = l.pos + byteLength passed + byteLength word
  started : l'.started = true

/-- **One move.** Where the depth of the first line is known, a token has its word behind something
that may be passed over. -/
theorem Gives.covers {l l' : Lexer} {lexed : Lexed} (h : l.Gives lexed l')
    (started : l.started = true) (hne : lexed.token ≠ .eof) :
    ∃ passed word, l.Covers lexed l' passed word := by
  cases h with
  -- an end of a block that is owed has no text of its own, nor has one at the end of the text
  | owed | close => exact ⟨[], [], rfl, between_nil, ⟨0, rfl⟩, rfl, rfl, rfl⟩
  | @word spaces pos indent w more token h =>
    refine ⟨List.replicate spaces ' ', w, rfl, .spaces spaces, h.writtenAs, ?_, ?_, rfl⟩
    · rw [byteLength_replicate utf8Size_space]
      rfl
    · rw [byteLength_replicate utf8Size_space]
      rfl
  | @lineBreak gap blank code tabs pos indent hgap hblank hcode hdepth =>
    have hlength : pos + byteLength (gap ++ '\n' :: blank) =
        pos + byteLength gap + 1 + byteLength blank := by
      rw [byteLength_append, byteLength_cons, utf8Size_newline]
      omega
    refine ⟨gap ++ '\n' :: blank, List.replicate tabs '\t', ?_, .lines hgap hblank,
      writtenAs_breakToken tabs indent, ?_, ?_, rfl⟩
    · rw [append_assoc, cons_append]
    · change _ = Span.mk (pos + _) (pos + _ + _)
      rw [hlength, byteLength_replicate utf8Size_tab]
    · change _ = pos + _ + _
      rw [hlength, byteLength_replicate utf8Size_tab]
      rfl
  | eof => exact absurd rfl hne
  | start _ _ _ => cases started

/-- Quote text goes on right behind the brace that closes a hole. -/
theorem covers_of_nextQuotePart {l l' : Lexer} {part : QuotePart} (clean : l.Clean)
    (started : l.started = true) (h : l.nextQuotePart = (.ok part, l')) :
    ∃ passed word, l.Covers ⟨.quotePart part.text part.isEnd, ⟨l.pos, l'.pos⟩⟩ l' passed word := by
  obtain ⟨w, t, hw, hrest, htext, hl⟩ := (nextQuotePart_eq_ok_iff clean).1 h
  have hend : (quoteEnd part.isEnd).utf8Size = 1 := by cases part.isEnd <;> rfl
  have hpos : l'.pos = l.pos + byteLength (w ++ [quoteEnd part.isEnd]) := by
    rw [byteLength_append, byteLength_cons, hend, hl]
    rfl
  refine ⟨[], w ++ [quoteEnd part.isEnd], ?_, between_nil, ⟨w, rfl, ?_⟩, ?_, hpos, ?_⟩
  · rw [hrest, append_assoc]
    rfl
  · rw [htext, String.toList_ofList]
    exact hw
  · change Span.mk l.pos l'.pos = Span.mk l.pos (l.pos + _)
    rw [hpos]
  · rw [hl]
    exact started

/-- Only where the text is at its end is there no more token. -/
theorem Gives.rest_eq_nil {l l' : Lexer} {lexed : Lexed} (h : l.Gives lexed l')
    (heof : lexed.token = .eof) (started : l.started = true) : l.cursor.rest = [] := by
  cases h with
  | owed => cases heof
  | word h =>
    dsimp only at heof
    subst heof
    exact h.writtenAs.elim
  | lineBreak _ _ _ _ => exact absurd heof (breakToken_ne_eof _ _)
  | close => rfl
  | eof => rfl
  | start _ _ _ => cases started

end Lexer

/-! ## Whole texts -/

/-- The text from `pos` on is made of the words of these tokens, at their places, and of what may
stand between them. -/
inductive Laid : Nat → List Char → List Lexed → Prop where
  | done {pos} : Laid pos [] []
  | token {pos passed word more} {token : Token} {ts}
      (between : Between passed) (written : token.WrittenAs word)
      (rest : Laid (pos + byteLength passed + byteLength word) more ts) :
      Laid pos (passed ++ (word ++ more)) (⟨token, ⟨pos + byteLength passed,
        pos + byteLength passed + byteLength word⟩⟩ :: ts)

theorem Reader.Step.covers {r r' : Reader} {lexed : Lexed} (h : r.Step lexed r')
    (clean : r.lexer.Clean) (started : r.lexer.started = true) :
    ∃ passed word, r.lexer.Covers lexed r'.lexer passed word := by
  cases h with
  | word hnext hne => exact ((Lexer.nextToken_eq_ok_iff clean).1 hnext).covers started hne
  | text hpart => exact Lexer.covers_of_nextQuotePart clean started hpart

/-- **A whole run** lays the text out; the induction is on the run. -/
theorem Reader.Reads.laid {r r' : Reader} {ts : List Lexed} (h : r.Reads ts r')
    (clean : r.lexer.Clean) (started : r.lexer.started = true) (ends : r'.Ends) :
    Laid r.lexer.pos r.lexer.cursor.rest ts := by
  induction h with
  | nil =>
    obtain ⟨holes, lexed, l, -, hnext, heof⟩ := ends
    rw [((Lexer.nextToken_eq_ok_iff clean).1 hnext).rest_eq_nil heof started]
    exact .done
  | @cons r m r' lexed ts first _ ih =>
    obtain ⟨passed, word, hcovers⟩ := first.covers clean started
    have hrest := ih (first.clean clean) hcovers.started ends
    rw [hcovers.pos] at hrest
    obtain ⟨token, span⟩ := lexed
    obtain rfl : span = _ := hcovers.span
    rw [hcovers.text]
    exact .token hcovers.between hcovers.written hrest

/-- The text begins with lines without code. -/
theorem laid_of_tokens {source : String} {ts : List Lexed} (h : tokens source = .ok ts) :
    ∃ blank code, Lexer.normalized source = blank ++ code ∧ BlankLines blank ∧ StartsCode code ∧
      Laid (byteLength blank) code ts := by
  obtain ⟨r, reads, ends⟩ := tokens_eq_ok_iff.1 h
  have clean := Lexer.clean_ofText source
  -- the first move passes over the lines without code, and is then one from behind them
  have opened : ∀ {lexed l}, (Lexer.ofText source).nextToken = (.ok lexed, l) → ∃ blank code,
      Lexer.normalized source = blank ++ code ∧ BlankLines blank ∧ StartsCode code ∧
        Lexer.Gives ⟨⟨code, byteLength blank, 0⟩, 0, 0, true⟩ lexed l := by
    intro lexed l hnext
    have hgives := (Lexer.nextToken_eq_ok_iff clean).1 hnext
    rw [Lexer.ofText] at hgives
    generalize htext : Lexer.normalized source = text at hgives
    cases hgives with
    | @start blank code pos indent owed lexed l hblank hcode h =>
      rw [Nat.zero_add] at h
      exact ⟨blank, code, rfl, hblank, hcode, h⟩
  cases reads with
  | nil =>
    obtain ⟨holes, lexed, l, -, hnext, heof⟩ := ends
    obtain ⟨blank, code, htext, hblank, hcode, hgives⟩ := opened hnext
    obtain rfl : code = [] := hgives.rest_eq_nil heof rfl
    exact ⟨blank, [], htext, hblank, hcode, .done⟩
  | cons first others =>
    cases first with
    | word hnext hne =>
      obtain ⟨blank, code, htext, hblank, hcode, hgives⟩ := opened hnext
      have clean' : Lexer.Clean ⟨⟨code, byteLength blank, 0⟩, 0, 0, true⟩ := by
        have hlined := lined_normalized source
        rw [htext] at hlined
        exact ⟨rfl, hlined.of_append⟩
      refine ⟨blank, code, htext, hblank, hcode, ?_⟩
      -- so the whole run is also one from behind those lines
      have hnext := Lexer.nextToken_of_gives hgives
      exact Reader.Reads.laid (.cons (.word hnext hne) others) clean' rfl ends

/-! ## Places in a text -/

/-- The characters stand in the text at this place, whose ends are between characters. -/
def TextAt (text : List Char) (span : Span) (cs : List Char) : Prop :=
  ∃ before after, text = before ++ (cs ++ after) ∧ byteLength before = span.start ∧
    byteLength before + byteLength cs = span.stop

/-- Between the two tokens stands only what may stand there. -/
def Adjoin (text : List Char) (a b : Lexed) : Prop :=
  ∃ passed, TextAt text ⟨a.span.stop, b.span.start⟩ passed ∧ Between passed

section Laid

variable {pos : Nat} {before rest : List Char} {ts : List Lexed}

/-- Every token has its word at its place. -/
theorem Laid.words (h : Laid pos rest ts) (hpos : byteLength before = pos) :
    ∀ lexed ∈ ts, ∃ word, TextAt (before ++ rest) lexed.span word ∧ lexed.token.WrittenAs word := by
  induction h generalizing before with
  | done => exact fun _ hmem => absurd hmem not_mem_nil
  | @token pos passed word more token ts between written _ ih =>
    have htext : before ++ (passed ++ (word ++ more)) = (before ++ passed) ++ (word ++ more) :=
      (append_assoc _ _ _).symm
    refine forall_mem_cons.2 ⟨⟨word, ⟨before ++ passed, more, htext, ?_, ?_⟩, written⟩, ?_⟩
    · rw [byteLength_append, hpos]
    · rw [byteLength_append, hpos]
    · rw [htext, ← append_assoc]
      refine ih ?_
      rw [byteLength_append, byteLength_append, hpos]

/-- Each token adjoins the next one, and the first one what ends at `pos`. -/
theorem Laid.chain (h : Laid pos rest ts) (hpos : byteLength before = pos) (first : Lexed)
    (hfirst : first.span.stop = pos) : (first :: ts).IsChain (Adjoin (before ++ rest)) := by
  induction h generalizing before first with
  | done => exact .singleton first
  | @token pos passed word more token ts between written _ ih =>
    have hlength : byteLength (before ++ (passed ++ word)) =
        pos + byteLength passed + byteLength word := by
      rw [byteLength_append, byteLength_append, hpos, Nat.add_assoc]
    have hrest := ih hlength ⟨token, ⟨pos + byteLength passed, _⟩⟩ rfl
    rw [append_assoc, append_assoc] at hrest
    refine .cons_cons ⟨passed, ⟨before, word ++ more, rfl, ?_, ?_⟩, between⟩ hrest
    · rw [hpos, hfirst]
    · rw [hpos]

theorem Laid.pos_le (h : Laid pos rest ts) : ∀ lexed ∈ ts, pos ≤ lexed.span.start := by
  induction h with
  | done => exact fun _ hmem => absurd hmem not_mem_nil
  | token _ _ _ ih =>
    refine forall_mem_cons.2 ⟨Nat.le_add_right _ _, fun lexed hmem => ?_⟩
    have hle := ih lexed hmem
    omega

/-- The tokens are in order and do not overlap. -/
theorem Laid.pairwise (h : Laid pos rest ts) :
    ts.Pairwise fun a b => a.span.stop ≤ b.span.start := by
  induction h with
  | done => exact .nil
  | token _ _ rest ih => exact .cons (fun lexed hmem => rest.pos_le lexed hmem) ih

/-- Nothing stands behind the last token. -/
theorem Laid.last (h : Laid pos rest ts) :
    (ts.getLast?.map (·.span.stop)).getD pos = pos + byteLength rest := by
  induction h with
  | done => rfl
  | @token pos passed word more token ts _ _ _ ih =>
    rw [byteLength_append, byteLength_append, ← Nat.add_assoc, ← Nat.add_assoc, ← ih]
    cases ts with
    | nil => rfl
    | cons lexed ts => rfl

/-- The first token begins where code begins. -/
theorem Laid.first (h : Laid pos rest ts) (hcode : StartsCode rest) :
    (ts.head?.map (·.span.start)).getD (pos + byteLength rest) = pos := by
  cases h with
  | done => rfl
  | token between _ _ =>
    rw [between.eq_nil hcode]
    rfl

end Laid

/-- **The lexer loses no text.** Take the tokens of a text. They are in order and do not overlap.
Each stands in the text, between characters, as it is written: names, operators, keywords and
punctuation as they are shown, integers as decimal numbers. Lines without code stand before the
first token, only what may stand between tokens stands between each token and the next, and nothing
stands behind the last. -/
theorem tokens_cover_text {source : String} {ts : List Lexed} (h : tokens source = .ok ts) :
    (ts.Pairwise fun a b => a.span.stop ≤ b.span.start) ∧
      (∀ lexed ∈ ts, ∃ word, TextAt (Lexer.normalized source) lexed.span word ∧
        lexed.token.WrittenAs word) ∧
      (∃ blank, BlankLines blank ∧ TextAt (Lexer.normalized source)
        ⟨0, (ts.head?.map (·.span.start)).getD (byteLength (Lexer.normalized source))⟩ blank) ∧
      ts.IsChain (Adjoin (Lexer.normalized source)) ∧
      ∀ last ∈ ts.getLast?, last.span.stop = byteLength (Lexer.normalized source) := by
  obtain ⟨blank, code, htext, hblank, hcode, laid⟩ := laid_of_tokens h
  rw [htext]
  refine ⟨laid.pairwise, laid.words rfl, ⟨blank, hblank, [], code, rfl, rfl, ?_⟩, ?_, ?_⟩
  · rw [byteLength_append, laid.first hcode]
    exact Nat.zero_add _
  · -- the chain begins at an empty token where code begins, which is not one of the text
    exact (laid.chain rfl ⟨.eof, .emptyAt (byteLength blank)⟩ rfl).tail
  · intro last hlast
    have hstop := laid.last
    rw [hlast] at hstop
    rw [byteLength_append]
    exact hstop

/-- A text with lines without code at its start, between its lines and at its end, a comment behind
a word, and a quote with a hole. -/
def coveredText : String :=
  "\n\t| π\nfun Int x()  | one\n\n\t\t\n\ty = -07\n\t\"a\\n\x7by\x7d\"\n|end\n"

def coveredTokens : List Lexed := [
  ⟨.funWord, ⟨7, 10⟩⟩, ⟨.typeName "Int", ⟨11, 14⟩⟩, ⟨.name "x", ⟨15, 16⟩⟩, ⟨.leftParen, ⟨16, 17⟩⟩,
  ⟨.rightParen, ⟨17, 18⟩⟩, ⟨.indent, ⟨30, 31⟩⟩, ⟨.name "y", ⟨31, 32⟩⟩, ⟨.equals, ⟨33, 34⟩⟩,
  ⟨.literal (.int (-7)), ⟨35, 38⟩⟩, ⟨.newline, ⟨39, 40⟩⟩, ⟨.quoteStart "a\n", ⟨40, 45⟩⟩,
  ⟨.name "y", ⟨45, 46⟩⟩, ⟨.rightBrace, ⟨46, 47⟩⟩, ⟨.quotePart "" true, ⟨47, 48⟩⟩,
  ⟨.dedent, ⟨54, 54⟩⟩]

/-- Its tokens adjoin each other, and the number among them is the decimal value of its text. -/
theorem tokens_cover_coveredText :
    tokens coveredText = .ok coveredTokens ∧
      coveredTokens.IsChain (Adjoin (Lexer.normalized coveredText)) ∧
      ∃ word, TextAt (Lexer.normalized coveredText) ⟨35, 38⟩ word ∧ DecimalText word (-7) := by
  have htokens : tokens coveredText = .ok coveredTokens := by decide +kernel
  obtain ⟨-, hwords, -, hchain, -⟩ := tokens_cover_text htokens
  refine ⟨htokens, hchain, ?_⟩
  exact hwords ⟨.literal (.int (-7)), ⟨35, 38⟩⟩ (by decide +kernel)

end ClassLang
