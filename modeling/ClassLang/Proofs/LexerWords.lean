import ClassLang.Token.Lexer
import Mathlib.Data.List.TakeWhile

/-!
# The words of a line

The text that each token of a line stands for, stated apart from the functions that read it.
`QuoteText` is the text of a quote with its escapes, `NumberText` that of a number, and `WordText`
that of any token together with what may follow it. `readWord_word` and `readWord_eq_ok` say that
`readWord` reads exactly these, and `readWord_eq_placed` that a word which is no quote is read by
itself, wherever it stands.
-/

set_option autoImplicit false

namespace ClassLang

open List Cursor

/-! ## Runs of characters -/

/-- A text that does not go on with a character of the class `p`; likewise for tokens. -/
def Stops {α : Type} (p : α → Bool) (more : List α) : Prop := more.head?.any p = false

variable {c first : Char} {token : Token} {start : Nat} {rest tail more : List Char}

section Stops

variable {p : Char → Bool} {run : List Char}

theorem takeWhile_run (hrun : ∀ c ∈ run, p c = true) (stops : Stops p more) :
    (run ++ more).takeWhile p = run := by
  rw [takeWhile_append_of_pos hrun]
  cases more with
  | nil => simp
  | cons c rest => simp_all [Stops]

theorem dropWhile_run (hrun : ∀ c ∈ run, p c = true) (stops : Stops p more) :
    (run ++ more).dropWhile p = more := by
  rw [dropWhile_append_of_pos hrun]
  cases more with
  | nil => rfl
  | cons c rest => simp_all [Stops]

theorem stops_dropWhile (p : Char → Bool) (cs : List Char) : Stops p (cs.dropWhile p) := by
  unfold Stops
  cases h : cs.dropWhile p with
  | nil => rfl
  | cons c rest =>
    have hne : cs.dropWhile p ≠ [] := by simp [h]
    have hhead := head_dropWhile_not p hne
    simpa [h] using hhead

end Stops

/-! ## Text of quotes -/

/-- A text as it is written in a quote, and the text that it stands for. -/
inductive QuoteText : List Char → List Char → Prop where
  | nil : QuoteText [] []
  | plain {c : Char} {w t : List Char} (hc : c ∉ ['"', '{', '\n', '\\']) (rest : QuoteText w t) :
      QuoteText (c :: w) (c :: t)
  | escape {c meant : Char} {w t : List Char} (hc : escaped? c = some meant)
      (rest : QuoteText w t) : QuoteText ('\\' :: c :: w) (meant :: t)

/-- The character that ends a piece of quote text. -/
def quoteEnd (isEnd : Bool) : Char := if isEnd then '"' else '{'

theorem utf8Size_of_escaped {meant : Char} (h : escaped? c = some meant) : c.utf8Size = 1 := by
  unfold escaped? at h
  split at h <;> first | rfl | cases h

theorem quoteFrom_text {w t : List Char} (h : QuoteText w t) (done : List Char) (pos : Nat)
    (rest : List Char) :
    quoteFrom done pos (w ++ rest) = quoteFrom (t.reverse ++ done) (pos + byteLength w) rest := by
  induction h generalizing done pos with
  | nil => rfl
  | @plain c w t hc _ ih =>
    simp only [mem_cons, not_mem_nil, or_false, not_or] at hc
    obtain ⟨h1, h2, h3, h4⟩ := hc
    rw [cons_append, quoteFrom, ih]
    · simp [Nat.add_assoc]
    all_goals simp_all
  | @escape c meant w t hc _ ih =>
    rw [cons_append, cons_append, quoteFrom, hc]
    dsimp only
    rw [ih]
    have hslash : '\\'.utf8Size = 1 := rfl
    simp only [reverse_cons, append_assoc, cons_append, nil_append,
      byteLength_cons, utf8Size_of_escaped hc, hslash]
    congr 1
    omega

/-- Reading quote text succeeds on such a text with its end behind it, and on nothing else. -/
theorem quoteFrom_eq_ok_iff {done : List Char} {pos : Nat} {part : QuotePart} {c : Cursor} :
    quoteFrom done pos rest = (.ok part, c) ↔ ∃ w t, QuoteText w t ∧
      rest = w ++ quoteEnd part.isEnd :: c.rest ∧
      part.text = String.ofList (done.reverse ++ t) ∧
      c = ⟨c.rest, pos + byteLength w + 1, 0⟩ := by
  constructor
  · intro h
    fun_induction quoteFrom done pos rest with
    | case1 => cases h
    | case2 | case3 =>
      cases h
      exact ⟨[], [], .nil, rfl, by simp, by simp⟩
    | case4 => cases h
    | case5 => cases h
    | case6 done pos ch rest meant hmeant ih =>
      obtain ⟨w, t, hw, hrest, htext, hc⟩ := ih h
      refine ⟨'\\' :: ch :: w, meant :: t, .escape hmeant hw, ?_, ?_, ?_⟩
      · rw [hrest]
        rfl
      · simpa using htext
      · have hslash : '\\'.utf8Size = 1 := rfl
        rw [hc, byteLength_cons, byteLength_cons, utf8Size_of_escaped hmeant, hslash]
        congr 1
        omega
    | case7 => cases h
    | case8 done pos ch rest h1 h2 h3 h4 h5 ih =>
      obtain ⟨w, t, hw, hrest, htext, hc⟩ := ih h
      refine ⟨ch :: w, ch :: t, .plain ?_ hw, ?_, ?_, ?_⟩
      · -- a backslash is refused or starts an escape
        have hslash : ch ≠ '\\' := by
          rintro rfl
          cases rest with
          | nil => exact h4 rfl rfl
          | cons d rest => exact h5 d rest rfl rfl
        simp only [mem_cons, not_mem_nil, or_false, not_or]
        exact ⟨h1, h2, h3, hslash⟩
      · rw [hrest]
        rfl
      · simpa using htext
      · rw [hc, byteLength_cons]
        congr 1
        omega
  · rintro ⟨w, t, hw, hrest, htext, hc⟩
    rw [hrest, quoteFrom_text hw, hc]
    obtain ⟨text, isEnd⟩ := part
    dsimp only at htext ⊢
    rw [htext]
    cases isEnd with
    | true | false => simp [quoteEnd, quoteFrom]

/-! ## Words -/

/-- The text of a number, its value, and what follows it. A point behind an integer is a second
point's first one. -/
inductive NumberText : List Char → Literal → List Char → Prop where
  | int {first digits more value}
      (hdigits : ∀ d ∈ digits, d.isDigit = true) (stops : Stops Char.isDigit more)
      (point : ∀ rest, more = '.' :: rest → rest.head? = some '.')
      (hvalue : Number.readInt64? (first :: digits) = some value) :
      NumberText (first :: digits) (.int value) more
  | float {first digits fraction more value}
      (hdigits : ∀ d ∈ digits, d.isDigit = true) (hfraction : ∀ d ∈ fraction, d.isDigit = true)
      (some_digit : fraction ≠ []) (stops : Stops Char.isDigit more)
      (hvalue : Number.readBinary64? (first :: (digits ++ '.' :: fraction)) = some value) :
      NumberText (first :: (digits ++ '.' :: fraction)) (.float value) more

theorem numberLiteral_eq_ok {text : List Char} {value? : Option Literal} {c c' : Cursor}
    (h : numberLiteral start text value? c = (.ok token, c')) :
    ∃ value, value? = some value ∧ token = .literal value ∧ c' = c := by
  cases value? with
  | none => cases h
  | some value =>
    cases h
    exact ⟨value, rfl, rfl, rfl⟩

/-- A minus sign belongs to a number if a digit follows it, and that digit is read with it. -/
theorem NumberText.tail_digit {value : Literal} (h : NumberText (first :: tail) value more)
    (hdigit : (tail ++ more).head?.any Char.isDigit = true) :
    tail.head?.any Char.isDigit = true := by
  cases h with
  | int hdigits stops _ _ =>
    cases tail with
    | nil =>
      rw [nil_append, stops] at hdigit
      cases hdigit
    | cons d tail => exact hdigit
  | @float _ digits _ _ _ _ _ _ _ _ =>
    cases digits with
    | nil => exact hdigit
    | cons d digits => exact hdigit

theorem readNumber_eq_ok {c : Cursor}
    (h : readNumber start first ⟨rest, start + first.utf8Size, 0⟩ = (.ok token, c)) :
    ∃ w value, first :: rest = w ++ c.rest ∧ NumberText w value c.rest ∧
      token = .literal value ∧ c = ⟨c.rest, start + byteLength w, 0⟩ := by
  have hsplit : rest = rest.takeWhile Char.isDigit ++ rest.dropWhile Char.isDigit :=
    (takeWhile_append_dropWhile).symm
  have hdigits : ∀ d ∈ rest.takeWhile Char.isDigit, d.isDigit = true :=
    fun _ hd => mem_takeWhile_imp hd
  have hstops := stops_dropWhile Char.isDigit rest
  have whole : ∀ {value? : Option Int64},
      Number.readInt64? (first :: rest.takeWhile Char.isDigit) = value? →
      (∀ behind, rest.dropWhile Char.isDigit = '.' :: behind → behind.head? = some '.') →
      numberLiteral start (first :: rest.takeWhile Char.isDigit) (value?.map .int)
        ⟨rest.dropWhile Char.isDigit,
          start + first.utf8Size + byteLength (rest.takeWhile Char.isDigit), 0⟩ = (.ok token, c) →
      ∃ w value, first :: rest = w ++ c.rest ∧ NumberText w value c.rest ∧
        token = .literal value ∧ c = ⟨c.rest, start + byteLength w, 0⟩ := by
    intro value? hread point h
    obtain ⟨literal, hliteral, rfl, rfl⟩ := numberLiteral_eq_ok h
    obtain ⟨value, rfl, rfl⟩ := Option.map_eq_some_iff.1 hliteral
    refine ⟨first :: rest.takeWhile Char.isDigit, .int value, ?_,
      .int hdigits hstops point hread, rfl, ?_⟩
    · rw [cons_append, ← hsplit]
    · rw [byteLength_cons, ← Nat.add_assoc]
  unfold readNumber at h
  dsimp only [Cursor.takeWhile, Cursor.skipWhile] at h
  split at h
  · next behind hbehind =>
    split at h
    · next hpoint =>
      refine whole rfl ?_ h
      intro behind' heq
      rw [hbehind] at heq
      cases heq
      exact hpoint
    split at h
    · next hdigit =>
      obtain ⟨literal, hliteral, rfl, rfl⟩ := numberLiteral_eq_ok h
      obtain ⟨value, hvalue, rfl⟩ := Option.map_eq_some_iff.1 hliteral
      refine ⟨_, .float value, ?_, .float hdigits (fun _ hd => mem_takeWhile_imp hd) ?_
        (stops_dropWhile Char.isDigit behind) hvalue, rfl, ?_⟩
      · have hbehind' : behind = behind.takeWhile Char.isDigit ++ behind.dropWhile Char.isDigit :=
          (takeWhile_append_dropWhile).symm
        rw [hbehind] at hsplit
        rw [cons_append, append_assoc, cons_append, ← hbehind', ← hsplit]
      · cases behind with
        | nil => simp at hdigit
        | cons d behind =>
          have hd : d.isDigit = true := hdigit
          simp [hd]
      · have hpoint : '.'.utf8Size = 1 := rfl
        simp only [byteLength_append, byteLength_cons, hpoint]
        congr 1
        omega
    · cases h
  · next hpoint =>
    refine whole rfl ?_ h
    intro behind heq
    exact absurd heq (hpoint behind)

theorem readNumber_text {value : Literal} (h : NumberText (first :: tail) value more)
    (start : Nat) : readNumber start first ⟨tail ++ more, start + first.utf8Size, 0⟩ =
      (.ok (.literal value), ⟨more, start + byteLength (first :: tail), 0⟩) := by
  cases h with
  | int hdigits stops point hvalue =>
    unfold readNumber
    dsimp only [Cursor.takeWhile, Cursor.skipWhile]
    rw [takeWhile_run hdigits stops, dropWhile_run hdigits stops, hvalue]
    split
    · next behind =>
      rw [if_pos (point behind rfl)]
      simp [numberLiteral, Nat.add_assoc]
    · simp [numberLiteral, Nat.add_assoc]
  | float hdigits hfraction hsome stops hvalue =>
    obtain ⟨d, fraction', rfl⟩ := exists_cons_of_ne_nil hsome
    have hpoint : Stops Char.isDigit ('.' :: (d :: fraction' ++ more)) := rfl
    have hd : d.isDigit = true := hfraction d mem_cons_self
    have hne : ¬ (d :: (fraction' ++ more)).head? = some '.' := by
      intro heq
      cases heq
      cases hd
    unfold readNumber
    dsimp only [Cursor.takeWhile, Cursor.skipWhile]
    rw [append_assoc, cons_append, takeWhile_run hdigits hpoint,
      dropWhile_run hdigits hpoint]
    rw [cons_append]
    split
    · next behind hbehind =>
      obtain rfl := (cons.inj hbehind).2
      have hhead : (d :: (fraction' ++ more)).head?.any Char.isDigit = true := hd
      rw [if_neg hne, if_pos hhead, ← cons_append, takeWhile_run hfraction stops,
        dropWhile_run hfraction stops, cons_append, hvalue]
      have hsize : '.'.utf8Size = 1 := rfl
      simp only [Option.map_some, numberLiteral, byteLength_cons, byteLength_append, hsize]
      congr 2
      omega
    · next hother => exact absurd rfl (hother _)

/-- The text of a token within a line, the token, and what follows it. -/
inductive WordText : List Char → Token → List Char → Prop where
  | punctuation {c : Char} {token : Token} {more : List Char} (h : punctuation? c = some token) :
      WordText [c] token more
  | dotDot {more : List Char} : WordText ['.', '.'] .dotDot more
  | dot {more : List Char} (single : more.head? ≠ some '.') : WordText ['.'] .dot more
  | text {w t more : List Char} (h : QuoteText w t) :
      WordText ('"' :: (w ++ ['"'])) (.literal (.str (String.ofList t))) more
  | quoteStart {w t more : List Char} (h : QuoteText w t) :
      WordText ('"' :: (w ++ ['{'])) (.quoteStart (String.ofList t)) more
  | number {first : Char} {tail more : List Char} {value : Literal}
      (hfirst : first.isDigit = true ∨ first = '-' ∧ tail.head?.any Char.isDigit = true)
      (h : NumberText (first :: tail) value more) : WordText (first :: tail) (.literal value) more
  | name {first : Char} {tail more : List Char} (hfirst : first.isLower = true)
      (htail : ∀ c ∈ tail, c.isAlphanum = true) (stops : Stops Char.isAlphanum more) :
      WordText (first :: tail) ((Token.keyword? (String.ofList (first :: tail))).getD
        (.name (String.ofList (first :: tail)))) more
  | typeName {first : Char} {tail more : List Char} (hfirst : first.isUpper = true)
      (htail : ∀ c ∈ tail, c.isAlphanum = true) (stops : Stops Char.isAlphanum more) :
      WordText (first :: tail) (.typeName (String.ofList (first :: tail))) more
  | operator {first : Char} {tail more : List Char} (hfirst : isOperatorChar first = true)
      (htail : ∀ c ∈ tail, isOperatorChar c = true) (stops : Stops isOperatorChar more)
      (minus : first = '-' → Stops Char.isDigit (tail ++ more)) :
      WordText (first :: tail) ((Token.keyword? (String.ofList (first :: tail))).getD
        (.operator (String.ofList (first :: tail)))) more

/-- A character of a class is none of those that the class refuses. -/
theorem not_mem_of_class {p : Char → Bool} {cs : List Char} (hc : p c = true)
    (hcs : cs.any p = false) : c ∉ cs := by
  intro hmem
  rw [any_eq_true.2 ⟨c, hmem, hc⟩] at hcs
  cases hcs

/-- The characters that are tokens by themselves. -/
def punctuationChars : List Char := ['\\', ':', ',', '(', ')', '[', ']', '{', '}', '_']

theorem punctuation?_eq_none (h : c ∉ punctuationChars) : punctuation? c = none := by
  unfold punctuation?
  split <;> first | rfl | exact absurd (by decide) h

theorem mem_punctuationChars (h : punctuation? c = some token) : c ∈ punctuationChars := by
  by_contra hc
  rw [punctuation?_eq_none hc] at h
  cases h

/-- The characters that pass between words: they open a comment, break a line or part two words. -/
def gapChars : List Char := [' ', '|', '\n', '\t']

/-- A word begins with a character that passes between no words. -/
theorem WordText.exists_cons {w more : List Char} (h : WordText w token more) :
    ∃ first tail, w = first :: tail ∧ first ∉ gapChars := by
  cases h with
  | @punctuation c _ _ h =>
    have hclass : gapChars.any (fun d => decide (d ∈ punctuationChars)) = false := by decide
    exact ⟨c, [], rfl, not_mem_of_class (decide_eq_true (mem_punctuationChars h)) hclass⟩
  | dotDot | dot _ | text _ | quoteStart _ => exact ⟨_, _, rfl, by decide⟩
  | number hfirst _ =>
    refine ⟨_, _, rfl, ?_⟩
    rcases hfirst with hfirst | ⟨rfl, -⟩
    · exact not_mem_of_class hfirst (by decide)
    · decide
  | name hfirst _ _ | typeName hfirst _ _ | operator hfirst _ _ _ =>
    exact ⟨_, _, rfl, not_mem_of_class hfirst (by decide)⟩

/-- The classes that the first character of a name, a number or an operator belongs to. -/
theorem readWord_of_class {p : Char → Bool} (hfirst : p first = true)
    (hp : ('.' :: '"' :: punctuationChars).any p = false) (start : Nat) (c : Cursor) :
    readWord start first c =
      if first.isDigit || (first = '-' && c.next?.any Char.isDigit) then readNumber start first c
      else if first.isLower then
        let text := String.ofList (first :: c.takeWhile Char.isAlphanum)
        (.ok ((Token.keyword? text).getD (.name text)), c.skipWhile Char.isAlphanum)
      else if first.isUpper then
        (.ok (.typeName (String.ofList (first :: c.takeWhile Char.isAlphanum))),
          c.skipWhile Char.isAlphanum)
      else if isOperatorChar first then
        let text := String.ofList (first :: c.takeWhile isOperatorChar)
        (.ok ((Token.keyword? text).getD (.operator text)), c.skipWhile isOperatorChar)
      else
        .fail (.afterFirstByte first c.rest start) ⟨start, start + first.utf8Size⟩
          (.unrecognizedCharacter first) := by
  have hnone := not_mem_of_class hfirst hp
  simp only [mem_cons, not_or] at hnone
  unfold readWord
  rw [punctuation?_eq_none hnone.2.2]
  dsimp only
  rw [if_neg hnone.1, if_neg hnone.2.1]

theorem not_digit_of_lower (h : c.isLower = true) : c.isDigit = false := by
  change (decide ('a'.val ≤ c.val) && decide (c.val ≤ 'z'.val)) = true at h
  change (decide ('0'.val ≤ c.val) && decide (c.val ≤ '9'.val)) = false
  grind

theorem classes_of_upper (h : c.isUpper = true) : c.isDigit = false ∧ c.isLower = false := by
  change decide ('A'.val ≤ c.val ∧ c.val ≤ 'Z'.val) = true at h
  change (decide ('0'.val ≤ c.val) && decide (c.val ≤ '9'.val)) = false ∧
    (decide ('a'.val ≤ c.val) && decide (c.val ≤ 'z'.val)) = false
  grind

theorem isAlphanum_eq (c : Char) : c.isAlphanum = (c.isUpper || c.isLower || c.isDigit) :=
  rfl

theorem classes_of_operatorChar (h : isOperatorChar c = true) :
    c.isDigit = false ∧ c.isLower = false ∧ c.isUpper = false := by
  have hclasses : ['@', '+', '-', '*', '/', '^', '?', '<', '>', '='].all (fun d =>
      decide (d.isDigit = false ∧ d.isLower = false ∧ d.isUpper = false)) = true := by decide
  exact of_decide_eq_true (all_eq_true.1 hclasses c (of_decide_eq_true h))

theorem readWord_mark (start : Nat) (c : Cursor) : readWord start '"' c =
    ((readQuotePart c).1.map fun part =>
      if part.isEnd then .literal (.str part.text) else .quoteStart part.text,
      (readQuotePart c).2) := by
  unfold readWord
  rw [punctuation?_eq_none (by decide)]
  dsimp only
  rw [if_neg (by decide), if_pos rfl]
  rcases readQuotePart c with ⟨_ | _, _⟩ <;> rfl

theorem readWord_quote {w t : List Char} (h : QuoteText w t) (isEnd : Bool) (more : List Char)
    (start : Nat) : readWord start '"' ⟨w ++ [quoteEnd isEnd] ++ more, start + '"'.utf8Size, 0⟩ =
      (.ok (if isEnd then .literal (.str (String.ofList t)) else .quoteStart (String.ofList t)),
        ⟨more, start + byteLength ('"' :: (w ++ [quoteEnd isEnd])), 0⟩) := by
  have hread : readQuotePart ⟨w ++ [quoteEnd isEnd] ++ more, start + '"'.utf8Size, 0⟩ =
      (.ok ⟨String.ofList t, isEnd⟩, ⟨more, start + '"'.utf8Size + byteLength w + 1, 0⟩) :=
    quoteFrom_eq_ok_iff.2 ⟨w, t, h, append_assoc _ _ _, rfl, rfl⟩
  have hend : (quoteEnd isEnd).utf8Size = 1 := by cases isEnd <;> rfl
  rw [readWord_mark, hread]
  simp only [byteLength_cons, byteLength_append, byteLength_nil, hend]
  exact Prod.ext rfl (congrArg (mk more · 0) (by omega))

theorem readWord_word (h : WordText (first :: tail) token more) (start : Nat) :
    readWord start first ⟨tail ++ more, start + first.utf8Size, 0⟩ =
      (.ok token, ⟨more, start + byteLength (first :: tail), 0⟩) := by
  cases h with
  | punctuation h =>
    unfold readWord
    rw [h]
    simp
  | dotDot => rfl
  | dot single =>
    unfold readWord
    rw [punctuation?_eq_none (by decide)]
    dsimp only
    rw [if_pos rfl]
    split
    · next behind hbehind =>
      rw [nil_append] at hbehind
      rw [hbehind] at single
      exact absurd rfl single
    · simp
  | text h => exact readWord_quote h true more start
  | quoteStart h => exact readWord_quote h false more start
  | number hfirst h =>
    have hclass : (first.isDigit || decide (first = '-')) = true := by
      rcases hfirst with hfirst | ⟨hfirst, -⟩ <;> simp [hfirst]
    rw [readWord_of_class (p := fun c => c.isDigit || decide (c = '-')) hclass (by decide),
      if_pos, readNumber_text h]
    rcases hfirst with hfirst | ⟨hfirst, hdigit⟩
    · simp [hfirst]
    cases tail with
    | nil => cases hdigit
    | cons d tail =>
      have hd : d.isDigit = true := hdigit
      simp [hfirst, Cursor.next?, hd]
  | name hfirst htail stops =>
    have hminus : ¬ first = '-' := by
      rintro rfl
      cases hfirst
    rw [readWord_of_class hfirst (by decide),
      if_neg (by simp [not_digit_of_lower hfirst, hminus]), if_pos hfirst]
    simp [Cursor.takeWhile, Cursor.skipWhile, takeWhile_run htail stops,
      dropWhile_run htail stops, Nat.add_assoc]
  | typeName hfirst htail stops =>
    obtain ⟨hdigit, hlower⟩ := classes_of_upper hfirst
    have hminus : ¬ first = '-' := by
      rintro rfl
      cases hfirst
    rw [readWord_of_class hfirst (by decide), if_neg (by simp [hdigit, hminus]),
      if_neg (by simp [hlower]), if_pos hfirst]
    simp [Cursor.takeWhile, Cursor.skipWhile, takeWhile_run htail stops,
      dropWhile_run htail stops, Nat.add_assoc]
  | operator hfirst htail stops minus =>
    obtain ⟨hdigit, hlower, hupper⟩ := classes_of_operatorChar hfirst
    have hnumber : ¬ (first.isDigit || (decide (first = '-') &&
        (tail ++ more).head?.any Char.isDigit)) = true := by
      rw [hdigit, Bool.false_or, Bool.and_eq_true, decide_eq_true_eq]
      rintro ⟨hminus, hnext⟩
      rw [minus hminus] at hnext
      cases hnext
    rw [readWord_of_class hfirst (by decide), Cursor.next?, if_neg hnumber, if_neg (by simp [hlower]),
      if_neg (by simp [hupper]), if_pos hfirst]
    simp [Cursor.takeWhile, Cursor.skipWhile, takeWhile_run htail stops,
      dropWhile_run htail stops, Nat.add_assoc]

theorem readWord_eq_ok {c : Cursor}
    (h : readWord start first ⟨rest, start + first.utf8Size, 0⟩ = (.ok token, c)) :
    ∃ w, first :: rest = w ++ c.rest ∧ WordText w token c.rest ∧
      c = ⟨c.rest, start + byteLength w, 0⟩ := by
  unfold readWord at h
  split at h
  · next htoken =>
    cases h
    exact ⟨[first], rfl, .punctuation htoken, by simp⟩
  split at h
  · next hdot =>
    subst hdot
    have hsize : '.'.utf8Size = 1 := rfl
    split at h
    · next behind hbehind =>
      cases h
      dsimp only at hbehind
      subst hbehind
      exact ⟨['.', '.'], rfl, .dotDot, by simp [hsize]⟩
    · next hsingle =>
      cases h
      refine ⟨['.'], rfl, .dot ?_, by simp⟩
      intro heq
      obtain ⟨behind, rfl⟩ := head?_eq_some_iff.1 heq
      exact hsingle behind rfl
  split at h
  · next hquote =>
    subst hquote
    have hsize : '"'.utf8Size = 1 := rfl
    split at h
    · next part c' hpart =>
      cases h
      obtain ⟨w, t, hw, hrest, htext, hc⟩ := quoteFrom_eq_ok_iff.1 hpart
      dsimp only at hrest
      rw [reverse_nil, nil_append] at htext
      rw [htext]
      have hend : (quoteEnd part.isEnd).utf8Size = 1 := by cases part.isEnd <;> rfl
      refine ⟨'"' :: (w ++ [quoteEnd part.isEnd]), by rw [hrest]; simp, ?_, ?_⟩
      · cases part.isEnd with
        | true => exact .text hw
        | false => exact .quoteStart hw
      · rw [hc]
        simp [hsize, hend]
        omega
    · cases h
  split at h
  · next hnumber =>
    obtain ⟨w, value, hw, htext, rfl, hc⟩ := readNumber_eq_ok h
    obtain ⟨tail, rfl⟩ : ∃ tail, w = first :: tail := by
      cases htext with
      | int | float => exact ⟨_, by rw [(cons.inj hw).1]⟩
    refine ⟨_, hw, .number ?_ htext, hc⟩
    rw [Bool.or_eq_true, Bool.and_eq_true, decide_eq_true_eq] at hnumber
    refine hnumber.imp_right (And.imp_right fun hdigit => htext.tail_digit ?_)
    rwa [Cursor.next?, (cons.inj hw).2] at hdigit
  next hnotNumber =>
  -- names, type names and operators take all that belongs to their class
  have run : ∀ p : Char → Bool, first :: rest = first :: rest.takeWhile p ++ rest.dropWhile p :=
    fun p => by rw [cons_append, takeWhile_append_dropWhile]
  have behind : ∀ p : Char → Bool, start + first.utf8Size + byteLength (rest.takeWhile p) =
      start + byteLength (first :: rest.takeWhile p) :=
    fun p => by rw [byteLength_cons, Nat.add_assoc]
  split at h
  · next hlower =>
    cases h
    exact ⟨_, run _, .name hlower (fun _ hc => mem_takeWhile_imp hc) (stops_dropWhile _ _),
      by rw [← behind]; rfl⟩
  split at h
  · next hupper =>
    cases h
    exact ⟨_, run _, .typeName hupper (fun _ hc => mem_takeWhile_imp hc) (stops_dropWhile _ _),
      by rw [← behind]; rfl⟩
  split at h
  · next hoperator =>
    cases h
    refine ⟨_, run _, .operator hoperator (fun _ hc => mem_takeWhile_imp hc)
      (stops_dropWhile _ _) ?_, by rw [← behind]; rfl⟩
    rintro rfl
    dsimp only [Cursor.takeWhile, Cursor.skipWhile]
    rw [takeWhile_append_dropWhile]
    simpa [Stops, Cursor.next?] using hnotNumber
  · cases h

/-! ## Words by themselves -/

/-- The characters that can follow the first one of a word that is no quote. -/
def isWordChar (c : Char) : Bool := c.isAlphanum || isOperatorChar c || c = '.'

/-- The cursor further on in a text, and with more text behind. -/
def Cursor.placed (before : Nat) (more : List Char) (c : Cursor) : Cursor :=
  ⟨c.rest ++ more, before + c.pos, c.torn⟩

def Reading.placed {α : Type} (before : Nat) (more : List Char) (r : Reading α) : Reading α :=
  (r.1.mapError fun e => ⟨⟨before + e.span.start, before + e.span.stop⟩, e.fault⟩,
    r.2.placed before more)

section Placed

variable (hmore : Stops isWordChar more) (before : Nat)

include hmore

/-- A run of characters that belong to a word does not leave it. -/
theorem Cursor.span_placed {p : Char → Bool} (hp : ∀ c, p c = true → isWordChar c = true)
    (c : Cursor) : (c.placed before more).takeWhile p = c.takeWhile p ∧
      (c.placed before more).skipWhile p = (c.skipWhile p).placed before more ∧
      (c.placed before more).next?.any p = c.next?.any p := by
  have hstop : Stops p more := by
    cases more with
    | nil => rfl
    | cons c more => exact Bool.eq_false_iff.2 fun h => ne_true_of_eq_false hmore (hp c h)
  have hspan : (c.rest ++ more).takeWhile p = c.rest.takeWhile p ∧
      (c.rest ++ more).dropWhile p = c.rest.dropWhile p ++ more := by
    induction c.rest with
    | nil => exact ⟨takeWhile_run (by simp) hstop, dropWhile_run (by simp) hstop⟩
    | cons c rest ih =>
      rw [cons_append, takeWhile_cons, takeWhile_cons, dropWhile_cons, dropWhile_cons, ih.1, ih.2]
      split <;> exact ⟨rfl, rfl⟩
  refine ⟨hspan.1, ?_, ?_⟩
  · rw [skipWhile, placed, hspan.1, hspan.2, Nat.add_assoc]
    rfl
  · obtain ⟨_ | ⟨c, rest⟩, pos, torn⟩ := c
    · exact hstop
    · rfl

theorem head?_placed (rest : List Char) : (rest ++ more).head? = some '.' ↔ rest.head? = some '.' := by
  cases rest with
  | nil =>
    refine iff_of_false (fun h => ?_) (by simp)
    rw [nil_append] at h
    rw [Stops, h] at hmore
    cases hmore
  | cons c rest => rfl

theorem readNumber_placed (start : Nat) (first : Char) (c : Cursor) :
    readNumber (before + start) first (c.placed before more) =
      (readNumber start first c).placed before more := by
  have hliteral : ∀ {text value?} {c : Cursor},
      numberLiteral (before + start) text value? (c.placed before more) =
        (numberLiteral start text value? c).placed before more := by
    intro text value? c
    cases value? <;> rfl
  have hdigit : ∀ c : Char, c.isDigit = true → isWordChar c = true := by
    intro c hc
    simp [isWordChar, isAlphanum_eq, hc]
  obtain ⟨htake, hdrop, -⟩ := c.span_placed hmore before hdigit
  unfold readNumber
  rw [htake, hdrop]
  dsimp only
  generalize c.skipWhile Char.isDigit = behind
  obtain ⟨left, pos, torn⟩ := behind
  by_cases hpoint : left.head? = some '.'
  · obtain ⟨rest, rfl⟩ := head?_eq_some_iff.1 hpoint
    change (if (rest ++ more).head? = some '.' then _ else _) =
      Reading.placed before more (if rest.head? = some '.' then _ else _)
    by_cases hrange : rest.head? = some '.'
    · rw [if_pos hrange, if_pos ((head?_placed hmore rest).2 hrange)]
      exact hliteral
    obtain ⟨htake, hdrop, hany⟩ := span_placed hmore before hdigit ⟨rest, pos + 1, 0⟩
    rw [if_neg hrange, if_neg (mt (head?_placed hmore rest).1 hrange)]
    change (if (placed before more ⟨rest, pos + 1, 0⟩).next?.any Char.isDigit then _ else _) =
      Reading.placed before more (if Cursor.next? ⟨rest, pos + 1, 0⟩ |>.any Char.isDigit then _ else _)
    rw [hany]
    split
    · rw [← hliteral, ← hdrop, ← htake]
      rfl
    · rfl
  · have hpoint' := mt (head?_placed hmore left).1 hpoint
    split
    · next heq => exact absurd (congrArg head? heq) hpoint'
    · split
      · next heq => exact absurd (congrArg head? heq) hpoint
      · exact hliteral

/-- A word that is no quote is read by itself, wherever it stands and whatever follows it. -/
theorem readWord_placed (hquote : first ≠ '"') (start : Nat) (c : Cursor) :
    readWord (before + start) first (c.placed before more) =
      (readWord start first c).placed before more := by
  have hname := c.span_placed hmore before (p := Char.isAlphanum) fun c hc => by
    simp [isWordChar, hc]
  have hoperator := c.span_placed hmore before (p := isOperatorChar) fun c hc => by
    simp [isWordChar, hc]
  have hdigit := c.span_placed hmore before (p := Char.isDigit) fun c hc => by
    simp [isWordChar, isAlphanum_eq, hc]
  unfold readWord
  rw [hname.1, hname.2.1, hoperator.1, hoperator.2.1, hdigit.2.2]
  cases punctuation? first with
  | some token => rfl
  | none =>
    dsimp only
    split_ifs
    · obtain ⟨rest, pos, torn⟩ := c
      by_cases hdots : rest.head? = some '.'
      · obtain ⟨rest, rfl⟩ := head?_eq_some_iff.1 hdots
        rfl
      have hdots' := mt (head?_placed hmore rest).1 hdots
      split
      · next heq => exact absurd (congrArg List.head? heq) hdots'
      · split
        · next heq => exact absurd (congrArg List.head? heq) hdots
        · rfl
    · exact readNumber_placed hmore ..
    · rfl
    · rfl
    · rfl
    · rw [Nat.add_assoc]
      rfl

end Placed

theorem readWord_eq_placed (hquote : first ≠ '"') (pos : Nat) (text : List Char) :
    readWord pos first ⟨text, pos + first.utf8Size, 0⟩ =
      (readWord 0 first ⟨text.takeWhile isWordChar, first.utf8Size, 0⟩).placed pos
        (text.dropWhile isWordChar) := by
  have hread := readWord_placed (stops_dropWhile isWordChar text) pos hquote 0
    ⟨text.takeWhile isWordChar, first.utf8Size, 0⟩
  rw [placed, takeWhile_append_dropWhile] at hread
  exact hread

end ClassLang
