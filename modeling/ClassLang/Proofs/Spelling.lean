import ClassLang.Proofs.Grammar
import ClassLang.Proofs.TokenStream
import ClassLang.Typed.Source

/-!
# Texts that are read as given tokens

A token that comes from a text has a text of its own that is read as this token: a name is one that
can be written (`IsName`), an operator is no word of the language, quote text has no backslash.
`Spells ends w tokens` says that `w` is read as `tokens` wherever it stands in a line, if one of the
characters `ends` follows. The lemmas put such texts together: behind each other, with a space
between them, in parentheses, and as the holes of a quote. Such a text can also be all that is read
(`Spells.takes_ofText`).
-/

set_option autoImplicit false

namespace ClassLang

open List Lexer Number

/-! ## Words that can be written -/

/-- A lower-case letter, then letters and digits, and no word of the language. -/
def IsName (text : String) : Prop :=
  ∃ first tail, text = String.ofList (first :: tail) ∧ first.isLower = true ∧
    (∀ c ∈ tail, c.isAlphanum = true) ∧ Token.keyword? text = none

/-- An upper-case letter, then letters and digits. -/
def IsTypeName (text : String) : Prop :=
  ∃ first tail, text = String.ofList (first :: tail) ∧ first.isUpper = true ∧
    ∀ c ∈ tail, c.isAlphanum = true

/-- Operator characters that have no meaning of their own. -/
def IsOperator (text : String) : Prop :=
  ∃ first tail, text = String.ofList (first :: tail) ∧ isOperatorChar first = true ∧
    (∀ c ∈ tail, isOperatorChar c = true) ∧ Token.keyword? text = none

/-- No quote can hold a backslash. -/
def IsQuoteText (text : String) : Prop := '\\' ∉ text.toList

/-- The texts of a token are such as can be written. -/
def Token.Spelled : Token → Prop
  | .name text => IsName text
  | .typeName text => IsTypeName text
  | .operator text => IsOperator text
  | .literal (.str text) => IsQuoteText text
  | .quoteStart text => IsQuoteText text
  | .quotePart text _ => IsQuoteText text
  | _ => True

theorem QuoteText.isQuoteText {w t : List Char} (h : QuoteText w t) :
    IsQuoteText (String.ofList t) := by
  rw [IsQuoteText, String.toList_ofList]
  induction h with
  | nil => exact not_mem_nil
  | plain hc _ ih =>
    simp only [mem_cons, not_mem_nil, or_false, not_or] at hc ⊢
    exact ⟨Ne.symm hc.2.2.2, ih⟩
  | @escape c meant _ _ hc _ ih =>
    rw [mem_cons, not_or]
    refine ⟨?_, ih⟩
    rintro rfl
    unfold escaped? at hc
    split at hc <;> cases hc

variable {text source : String} {token : Token} {t : List Char} {c : Char}

theorem Token.spelled_keyword {other : Token} (h : Token.keyword? text = none → other.Spelled) :
    ((Token.keyword? text).getD other).Spelled := by
  cases hword : Token.keyword? text with
  | none => exact h hword
  | some token =>
    unfold Token.keyword? at hword
    split at hword <;> cases hword <;> trivial

theorem NumberText.not_str {w more : List Char} {value : Literal} (h : NumberText w value more) :
    (Token.literal value).Spelled := by
  cases h <;> trivial

theorem WordText.spelled {w more : List Char} (h : WordText w token more) : token.Spelled := by
  cases h with
  | punctuation h =>
    unfold punctuation? at h
    split at h <;> cases h <;> trivial
  | dotDot => trivial
  | dot _ => trivial
  | text h => exact h.isQuoteText
  | quoteStart h => exact h.isQuoteText
  | number _ h => exact h.not_str
  | name hfirst htail _ | operator hfirst htail _ _ =>
    exact Token.spelled_keyword fun hword => ⟨_, _, rfl, hfirst, htail, hword⟩
  | typeName hfirst htail _ => exact ⟨_, _, rfl, hfirst, htail⟩

/-- All tokens of a run have texts that can be written. -/
theorem Reader.Reads.spelled {r r' : Reader} {ts : List Lexed} (h : r.Reads ts r')
    (clean : r.lexer.Clean) : ∀ lexed ∈ ts, lexed.token.Spelled := by
  refine h.forall_tokens WordText.spelled QuoteText.isQuoteText ?_ clean
  simp [Token.Spelled]

/-! ## Texts and their tokens -/

/-- A lexer within a line. -/
def Lexer.inLine (rest : List Char) (pos indent : Nat) : Lexer := ⟨⟨rest, pos, 0⟩, indent, 0, true⟩

/-- The text goes on with one of these characters. -/
def Follows (ends : List Char) (more : List Char) : Prop := ∃ c rest, more = c :: rest ∧ c ∈ ends

/-- The text is read as these tokens wherever it stands in a line, if one of `ends` follows. -/
structure Spells (ends w : List Char) (tokens : List Token) : Prop where
  starts : ∃ first tail, w = first :: tail ∧ first ∉ gapChars
  reads : ∀ more, Follows ends more → ∀ spaces pos indent,
    (inLine (replicate spaces ' ' ++ (w ++ more)) pos indent).Passes tokens
      (inLine more (pos + spaces + byteLength w) indent)

theorem Follows.mono {ends ends' more : List Char} (hends : ends ⊆ ends') (h : Follows ends more) :
    Follows ends' more := by
  obtain ⟨c, rest, rfl, hc⟩ := h
  exact ⟨c, rest, rfl, hends hc⟩

namespace Spells

variable {ends ends' w w' : List Char} {tokens tokens' : List Token}

theorem mono (h : Spells ends w tokens) (hends : ends' ⊆ ends) : Spells ends' w tokens :=
  ⟨h.starts, fun more hmore => h.reads more (hmore.mono hends)⟩

theorem startsCode (h : Spells ends w tokens) (more : List Char) : StartsCode (w ++ more) := by
  obtain ⟨first, tail, rfl, hfirst⟩ := h.starts
  intro c hc
  obtain rfl : first = c := by simpa using hc
  exact hfirst

/-- One word. -/
theorem word {token : Token} (plain : token.isPlain = true)
    (h : ∀ more, Follows ends more → WordText w token more) (hsome : ∃ more, Follows ends more) :
    Spells ends w [token] := by
  refine ⟨?_, ?_⟩
  · obtain ⟨more, hmore⟩ := hsome
    exact (h more hmore).exists_cons
  · intro more hmore spaces pos indent
    have hgives : (inLine (replicate spaces ' ' ++ (w ++ more)) pos indent).Gives _ _ :=
      .word (h more hmore)
    exact Hands.passes ⟨_, nextToken_of_gives hgives⟩ plain

/-- One text behind another, with any number of spaces between them. -/
theorem behind (h : Spells ends w tokens) (h' : Spells ends' w' tokens') (spaces : Nat)
    (hfollows : ∀ more, Follows ends (replicate spaces ' ' ++ (w' ++ more))) :
    Spells ends' (w ++ (replicate spaces ' ' ++ w')) (tokens ++ tokens') := by
  obtain ⟨first, tail, hw, hfirst⟩ := h.starts
  refine ⟨⟨first, _, by rw [hw, cons_append], hfirst⟩, ?_⟩
  intro more hmore before pos indent
  have hleft := h.reads _ (hfollows more) before pos indent
  have hright := h'.reads more hmore spaces (pos + before + byteLength w) indent
  have hpos : pos + before + byteLength (w ++ (replicate spaces ' ' ++ w')) =
      pos + before + byteLength w + spaces + byteLength w' := by
    simp only [byteLength_append, byteLength_replicate utf8Size_space, Nat.add_assoc]
  rw [hpos, append_assoc, append_assoc]
  exact hleft.append hright

theorem append (h : Spells ends w tokens) (h' : Spells ends' w' tokens')
    (hfollows : ∀ c ∈ w'.head?, c ∈ ends) : Spells ends' (w ++ w') (tokens ++ tokens') := by
  obtain ⟨first, tail, rfl, -⟩ := h'.starts
  exact h.behind h' 0 fun more => ⟨first, tail ++ more, rfl, hfollows first rfl⟩

theorem space (h : Spells ends w tokens) (h' : Spells ends' w' tokens') (hspace : ' ' ∈ ends) :
    Spells ends' (w ++ ' ' :: w') (tokens ++ tokens') :=
  h.behind h' 1 fun more => ⟨' ', w' ++ more, rfl, hspace⟩

end Spells

/-! ## Single words -/

/-- The characters that follow a line, a call or an argument. -/
def lineEnds : List Char := [' ', ')', '}', '\n']

theorem follows_some (c : Char) (ends : List Char) : ∃ more, Follows (c :: ends) more :=
  ⟨[c], c, [], rfl, mem_cons_self⟩

/-- A run of letters and digits ends before each of `ends`. -/
theorem Follows.stops {p : Char → Bool} {ends more : List Char} (h : Follows ends more)
    (hends : ends.any p = false) : Stops p more := by
  obtain ⟨c, rest, rfl, hc⟩ := h
  rw [Stops, head?_cons, Option.any_some]
  exact Bool.eq_false_iff.2 fun hp => not_mem_of_class hp hends hc

theorem spells_punctuation (h : punctuation? c = some token) (plain : token.isPlain = true)
    (d : Char) (ends : List Char) : Spells (d :: ends) [c] [token] :=
  .word plain (fun _ _ => .punctuation h) (follows_some d ends)

theorem spells_name (h : IsName text) : Spells ('.' :: lineEnds) text.toList [.name text] := by
  obtain ⟨first, tail, rfl, hfirst, htail, hword⟩ := h
  rw [String.toList_ofList]
  refine .word rfl ?_ (follows_some _ _)
  intro more hmore
  have hstops : Stops Char.isAlphanum more := hmore.stops (by decide)
  have hname := WordText.name hfirst htail hstops
  rwa [hword] at hname

theorem spells_typeName (h : IsTypeName text) : Spells ['.'] text.toList [.typeName text] := by
  obtain ⟨first, tail, rfl, hfirst, htail⟩ := h
  rw [String.toList_ofList]
  refine .word rfl ?_ (follows_some _ _)
  intro more hmore
  exact .typeName hfirst htail (hmore.stops (by decide))

/-- A run of operator characters before a space is one word. -/
theorem spells_operatorChars {first : Char} {tail : List Char} (plain : token.isPlain = true)
    (hfirst : isOperatorChar first = true) (htail : ∀ c ∈ tail, isOperatorChar c = true)
    (hword : (Token.keyword? (String.ofList (first :: tail))).getD
      (.operator (String.ofList (first :: tail))) = token) :
    Spells [' '] (first :: tail) [token] := by
  refine .word plain ?_ (follows_some _ _)
  intro more hmore
  have hminus : first = '-' → Stops Char.isDigit (tail ++ more) := by
    intro _
    cases tail with
    | nil => exact hmore.stops (by decide)
    | cons c tail =>
      obtain ⟨hdigit, -, -⟩ := classes_of_operatorChar (htail c mem_cons_self)
      simpa [Stops] using hdigit
  have hoperator := WordText.operator hfirst htail (hmore.stops (by decide)) hminus
  rwa [hword] at hoperator

theorem spells_operator (h : IsOperator text) : Spells [' '] text.toList [.operator text] := by
  obtain ⟨first, tail, rfl, hfirst, htail, hword⟩ := h
  rw [String.toList_ofList]
  refine spells_operatorChars rfl hfirst htail ?_
  rw [hword]
  rfl

theorem spells_equals : Spells [' '] ['='] [.equals] :=
  spells_operatorChars rfl (by decide) (by simp) (by decide)

/-- A name behind a dot. -/
theorem spells_member {name : String} (h : IsName name) :
    Spells ('.' :: lineEnds) ('.' :: name.toList) [.dot, .name name] := by
  have hname := spells_name h
  obtain ⟨first, tail, htext, hfirst, -, -⟩ := h
  have hdot : Spells [first] ['.'] [.dot] := by
    refine .word rfl ?_ (follows_some _ _)
    rintro more ⟨d, rest, rfl, hd⟩
    obtain rfl := mem_singleton.1 hd
    refine .dot ?_
    intro heq
    cases heq
    cases hfirst
  have hlist : name.toList = first :: tail := by rw [htext, String.toList_ofList]
  have hfollows : ∀ c ∈ name.toList.head?, c ∈ [first] := by simp [hlist]
  exact hdot.append hname hfollows

theorem Spells.paren {ends w : List Char} {tokens : List Token} (h : Spells ends w tokens)
    (hends : ')' ∈ ends) (d : Char) (others : List Char) :
    Spells (d :: others) ('(' :: (w ++ [')'])) (.leftParen :: (tokens ++ [.rightParen])) := by
  obtain ⟨first, tail, hw, -⟩ := id h.starts
  have hopen : Spells [first] ['('] [.leftParen] := spells_punctuation rfl rfl first []
  have hclose : Spells (d :: others) [')'] [.rightParen] := spells_punctuation rfl rfl d others
  refine hopen.append (h.append hclose ?_) ?_
  · simpa using hends
  · simp [hw]

/-! ## Literals -/

theorem digitValue?_of_isDigit (h : c.isDigit = true) :
    digitValue? c = some (c.toNat - '0'.toNat) := by
  unfold digitValue?
  rw [if_pos]
  simpa [Char.isDigit, Char.le_def] using h

theorem digitsValueFrom?_digits {digits : List Char} (h : ∀ d ∈ digits, d.isDigit = true)
    (acc : Nat) : digitsValueFrom? acc digits = some (Nat.ofDigitChars 10 digits acc) := by
  induction digits generalizing acc with
  | nil => rfl
  | cons d digits ih =>
    obtain ⟨hd, hrest⟩ := forall_mem_cons.1 h
    rw [digitsValueFrom?, digitValue?_of_isDigit hd, Option.bind_some, ih hrest,
      Nat.ofDigitChars_cons, Nat.mul_comm]

theorem digitsValue?_toDigits (n : Nat) : digitsValue? (Nat.toDigits 10 n) = some n := by
  have hdigits : ∀ d ∈ Nat.toDigits 10 n, d.isDigit = true :=
    fun _ hd => Nat.isDigit_of_mem_toDigits (by decide) (by decide) hd
  unfold digitsValue?
  rw [if_neg (by simp), digitsValueFrom?_digits hdigits,
    Nat.ofDigitChars_ten_toDigits]

theorem int64Of?_toInt (value : Int64) : int64Of? value.toInt = some value := by
  unfold int64Of?
  rw [if_pos ⟨Int64.minValue_le_toInt value, Int64.toInt_le value⟩, Int64.ofInt_toInt]

/-- An integer is written as digits, behind a minus sign if it is negative, and read back. -/
theorem intText_cases (value : Int64) : ∃ first digits,
    (intText value.toInt).toList = first :: digits ∧
      (∀ d ∈ digits, d.isDigit = true) ∧
      (first.isDigit = true ∨ first = '-' ∧ digits.head?.any Char.isDigit = true) ∧
      readInt64? (first :: digits) = some value := by
  have hdigits : ∀ n, ∀ d ∈ Nat.toDigits 10 n, d.isDigit = true :=
    fun _ _ hd => Nat.isDigit_of_mem_toDigits (by decide) (by decide) hd
  have hvalue := int64Of?_toInt value
  unfold intText
  rw [Int.toString_eq_repr]
  cases hint : value.toInt with
  | ofNat n =>
    rw [hint] at hvalue
    have htext : (Int.repr (.ofNat n)).toList = Nat.toDigits 10 n := Nat.toList_repr
    obtain ⟨first, digits, hcons⟩ :=
      exists_cons_of_ne_nil (Nat.toDigits_ne_nil (n := n) (b := 10))
    have hfirst : first.isDigit = true := hdigits n first (by rw [hcons]; exact mem_cons_self)
    refine ⟨first, digits, htext.trans hcons, ?_, .inl hfirst, ?_⟩
    · intro d hd
      exact hdigits n d (by rw [hcons]; exact mem_cons_of_mem _ hd)
    · rw [readInt64?, ← hcons, digitsValue?_toDigits]
      · exact hvalue
      · rintro digits heq
        obtain ⟨rfl, -⟩ := cons.inj heq
        cases hfirst
      · rintro digits heq
        obtain ⟨rfl, -⟩ := cons.inj heq
        cases hfirst
  | negSucc n =>
    rw [hint] at hvalue
    have htext : (Int.repr (.negSucc n)).toList = '-' :: Nat.toDigits 10 (n + 1) := by
      change ("-" ++ (n + 1).repr).toList = _
      rw [String.toList_append, Nat.toList_repr]
      rfl
    obtain ⟨first, digits, hcons⟩ :=
      exists_cons_of_ne_nil (Nat.toDigits_ne_nil (n := n + 1) (b := 10))
    have hfirst : first.isDigit = true :=
      hdigits (n + 1) first (by rw [hcons]; exact mem_cons_self)
    refine ⟨'-', Nat.toDigits 10 (n + 1), htext, hdigits (n + 1), .inr ⟨rfl, ?_⟩, ?_⟩
    · rw [hcons]
      exact hfirst
    · have hneg : -((n + 1 : Nat) : Int) = .negSucc n := rfl
      rw [readInt64?, digitsValue?_toDigits, Option.bind_some, hneg, hvalue]

theorem spells_int (value : Int64) :
    Spells lineEnds (intText value.toInt).toList [.literal (.int value)] := by
  obtain ⟨first, digits, htext, hdigits, hfirst, hvalue⟩ := intText_cases value
  rw [htext]
  refine .word rfl ?_ (follows_some _ _)
  intro more hmore
  refine .number hfirst (.int hdigits (hmore.stops (by decide)) ?_ hvalue)
  -- no point follows, so the number is no fraction
  rintro rest rfl
  obtain ⟨c, rest', heq, hc⟩ := hmore
  cases heq
  exact absurd hc (by decide)

theorem quoteText_escapedChar (hc : c ≠ '\\') {w : List Char} (h : QuoteText w t) :
    QuoteText (Typed.escapedChar c ++ w) (c :: t) := by
  unfold Typed.escapedChar
  split
  · exact .escape rfl h
  · exact .escape rfl h
  · exact .escape rfl h
  · exact .escape rfl h
  · next hquote hbrace hnewline _ =>
    refine .plain ?_ h
    simp only [mem_cons, not_mem_nil, or_false, not_or]
    exact ⟨hquote, hbrace, hnewline, hc⟩

/-- Quote text with its escapes is read as it was meant. -/
theorem quoteText_escapedText (h : IsQuoteText text) :
    QuoteText (Typed.escapedText text).toList text.toList := by
  unfold IsQuoteText at h
  unfold Typed.escapedText
  rw [String.toList_ofList]
  generalize text.toList = cs at h
  induction cs with
  | nil => exact .nil
  | cons c cs ih =>
    rw [mem_cons, not_or] at h
    exact quoteText_escapedChar (Ne.symm h.1) (ih h.2)

theorem wordText_text (h : IsQuoteText text) (more : List Char) :
    WordText ('"' :: ((Typed.escapedText text).toList ++ ['"'])) (.literal (.str text)) more := by
  have hword : WordText _ (.literal (.str (String.ofList text.toList))) more :=
    .text (quoteText_escapedText h)
  rwa [String.ofList_toList] at hword

theorem spells_text (h : IsQuoteText text) (d : Char) (ends : List Char) :
    Spells (d :: ends) ('"' :: ((Typed.escapedText text).toList ++ ['"'])) [.literal (.str text)] :=
  .word rfl (fun more _ => wordText_text h more) (follows_some _ _)

/-! ## Quotes with holes -/

theorem nextQuotePart_inLine {w : List Char} (h : QuoteText w t) (isEnd : Bool) (more : List Char)
    (pos indent : Nat) : (inLine (w ++ quoteEnd isEnd :: more) pos indent).nextQuotePart =
      (.ok ⟨String.ofList t, isEnd⟩, .inLine more (pos + byteLength w + 1) indent) := by
  have hread : quoteFrom [] pos (w ++ quoteEnd isEnd :: more) =
      (.ok ⟨String.ofList t, isEnd⟩, ⟨more, pos + byteLength w + 1, 0⟩) :=
    quoteFrom_eq_ok_iff.2 ⟨w, t, h, rfl, rfl, rfl⟩
  unfold nextQuotePart readQuotePart
  exact congrArg (fun read : Reading QuotePart => (read.1, (⟨read.2, indent, 0, true⟩ : Lexer))) hread

/-- Behind the brace that opens a hole the text is read as these tokens, which close it and all
holes behind it and end the quote. -/
def SpellsHoles (w : List Char) (tokens : List Token) : Prop :=
  ∀ more pos indent holes,
    Reader.Takes ⟨.inLine (w ++ more) pos indent, .word (holes + 1)⟩ tokens
      ⟨.inLine more (pos + byteLength w) indent, .word holes⟩

/-- A hole up to the text behind it. -/
theorem Spells.hole {w : List Char} {tokens : List Token} (h : Spells lineEnds w tokens)
    (htext : IsQuoteText text) (isEnd : Bool) (more : List Char) (pos indent holes : Nat) :
    Reader.Takes
      ⟨.inLine (w ++ '}' :: ((Typed.escapedText text).toList ++ quoteEnd isEnd :: more)) pos indent,
        .word (holes + 1)⟩
      (tokens ++ [.rightBrace, .quotePart text isEnd])
      ⟨.inLine more (pos + byteLength w + 1 + byteLength (Typed.escapedText text).toList + 1) indent,
        .word (if isEnd then holes else holes + 1)⟩ := by
  have hinner := h.reads ('}' :: ((Typed.escapedText text).toList ++ quoteEnd isEnd :: more))
    ⟨'}', _, rfl, by decide⟩ 0 pos indent (holes + 1)
  have hgives : (inLine (replicate 0 ' ' ++
      (['}'] ++ ((Typed.escapedText text).toList ++ quoteEnd isEnd :: more)))
      (pos + byteLength w) indent).Gives _ _ := .word (.punctuation rfl)
  have hbrace := Reader.takes_of_hands ⟨_, nextToken_of_gives hgives⟩ (by decide) (holes + 1)
  have hpart := Reader.takes_of_quotePart (nextQuotePart_inLine (quoteText_escapedText htext) isEnd
    more (pos + byteLength w + 1) indent) holes
  rw [String.ofList_toList] at hpart
  exact hinner.append (hbrace.append hpart)

/-- The bytes of a hole and the text behind it, with the brace between them and the end. -/
theorem byteLength_hole (w text rest : List Char) (isEnd : Bool) :
    byteLength (w ++ '}' :: (text ++ quoteEnd isEnd :: rest)) =
      byteLength w + 1 + byteLength text + 1 + byteLength rest := by
  have hbrace : '}'.utf8Size = 1 := rfl
  have hend : (quoteEnd isEnd).utf8Size = 1 := by cases isEnd <;> rfl
  rw [byteLength_append, byteLength_cons, byteLength_append, byteLength_cons, hbrace, hend]
  omega

theorem SpellsHoles.last {w : List Char} {tokens : List Token} (h : Spells lineEnds w tokens)
    {text : String} (htext : IsQuoteText text) :
    SpellsHoles (w ++ '}' :: ((Typed.escapedText text).toList ++ [quoteEnd true]))
      (tokens ++ [.rightBrace, .quotePart text true]) := by
  intro more pos indent holes
  have hhole := h.hole htext true more pos indent holes
  rw [byteLength_hole, append_assoc, cons_append, append_assoc]
  simpa only [Nat.add_assoc, cons_append, nil_append, byteLength_nil, Nat.add_zero,
    if_true] using hhole

theorem SpellsHoles.more {w w' : List Char} {tokens tokens' : List Token}
    (h : Spells lineEnds w tokens) (htext : IsQuoteText text) (others : SpellsHoles w' tokens') :
    SpellsHoles (w ++ '}' :: ((Typed.escapedText text).toList ++ quoteEnd false :: w'))
      (tokens ++ .rightBrace :: .quotePart text false :: tokens') := by
  intro more pos indent holes
  have hhole := (h.hole htext false (w' ++ more) pos indent holes).append
    (others more _ indent holes)
  rw [byteLength_hole, append_assoc, cons_append, append_assoc]
  simpa only [Nat.add_assoc, append_assoc, cons_append, nil_append] using hhole

theorem SpellsHoles.quote {w : List Char} {tokens : List Token} (h : SpellsHoles w tokens)
    {text : String} (htext : IsQuoteText text) (ends : List Char) :
    Spells ends ('"' :: ((Typed.escapedText text).toList ++ '{' :: w))
      (.quoteStart text :: tokens) := by
  refine ⟨⟨'"', _, rfl, by decide⟩, ?_⟩
  intro more _ spaces pos indent holes
  have hword : WordText ('"' :: ((Typed.escapedText text).toList ++ ['{'])) (.quoteStart text)
      (w ++ more) := by
    have hstart : WordText _ (.quoteStart (String.ofList text.toList)) (w ++ more) :=
      .quoteStart (quoteText_escapedText htext)
    rwa [String.ofList_toList] at hstart
  have hgives : (Lexer.inLine (List.replicate spaces ' ' ++
      ('"' :: ((Typed.escapedText text).toList ++ ['{']) ++ (w ++ more))) pos indent).Gives _ _ :=
    .word hword
  have hstart := Reader.takes_of_hands ⟨_, nextToken_of_gives hgives⟩ (by simp) holes
  have hquote := hstart.append (h more _ indent holes)
  simpa [Nat.add_assoc, Nat.add_comm, Nat.add_left_comm] using hquote

/-! ## Texts of one line -/

/-- A text that begins with code is read like a line. -/
theorem Lexer.nextToken_ofText (h : StartsCode (normalized source)) :
    (ofText source).nextToken = (inLine (normalized source) 0 0).nextToken := by
  have hline := toLine_code .nil h 0 0 0 0 true
  rw [replicate_zero, nil_append, nil_append, byteLength_nil, Nat.add_zero] at hline
  unfold ofText inLine
  simp only [nextToken, Cursor.mend, Nat.add_zero, hline, pos, Bool.false_eq_true, if_false,
    if_true]

theorem Reader.Takes.of_nextToken {l l' : Lexer} {holes : Nat} {others : List Token} {r : Reader}
    (h : Takes ⟨l, .word holes⟩ (token :: others) r) (heq : l'.nextToken = l.nextToken) :
    Takes ⟨l', .word holes⟩ (token :: others) r := by
  obtain ⟨m, ⟨span, hnext⟩, hne, hothers⟩ := h.first
  exact (takes_of_hands ⟨span, heq.trans hnext⟩ hne holes).append hothers

theorem map_tokens_eq_ok_iff {kinds : List Token} :
    map Lexed.token <$> tokens source = .ok kinds ↔
      ∃ r, (Reader.ofText source).Takes kinds r ∧ r.Ends := by
  constructor
  · intro h
    cases hts : tokens source with
    | error e =>
      rw [hts] at h
      cases h
    | ok ts =>
      rw [hts] at h
      cases h
      obtain ⟨r, hreads, hends⟩ := tokens_eq_ok_iff.1 hts
      exact ⟨r, ⟨ts, hreads, rfl⟩, hends⟩
  · rintro ⟨r, ⟨ts, hreads, rfl⟩, hends⟩
    rw [tokens_eq_ok_iff.2 ⟨r, hreads, hends⟩]
    rfl

theorem normalized_of_notMem (h : '\n' ∉ source.toList) :
    normalized source = source.toList ++ ['\n'] := by
  unfold normalized
  rw [if_neg]
  exact fun hlast => h (mem_of_getLast? hlast)

/-- What is read as given tokens in a line is read as these tokens and a line break when it is the
whole text. -/
theorem Spells.takes_ofText {ends : List Char} {others : List Token}
    (h : Spells ends source.toList (token :: others)) (hends : '\n' ∈ ends)
    (hline : '\n' ∉ source.toList) :
    ∃ r, (Reader.ofText source).Takes (token :: others ++ [.newline]) r ∧ r.Ends := by
  have hreads := h.reads ['\n'] ⟨'\n', [], rfl, hends⟩ 0 0 0
  rw [replicate_zero, nil_append, ← normalized_of_notMem hline] at hreads
  have hbreak : (inLine ['\n'] (0 + 0 + byteLength source.toList) 0).Gives ⟨.newline, _⟩
      (.inLine [] _ 0) :=
    @Gives.lineBreak [] [] [] 0 _ 0 .none .nil (by simp [StartsCode]) (Nat.zero_le _)
  have hpass := hreads.append (Hands.passes ⟨_, nextToken_of_gives hbreak⟩ rfl)
  have hstarts : StartsCode (normalized source) := by
    rw [normalized_of_notMem hline]
    exact h.startsCode _
  exact ⟨_, (hpass 0).of_nextToken (nextToken_ofText hstarts), 0, _, _, rfl,
    nextToken_of_gives .eof, rfl⟩

end ClassLang
