import ClassLang.Proofs.ReadingEnds

/-!
# Reading byte by byte

A text is stored in bytes, and a reader that goes on byte by byte could stop inside a character, where
nothing can be cut out of the text. `Lexer.cutToken` and `Lexer.cutQuotePart` read the bytes of a text
in this way, and give nothing at all if they cut inside a character. They agree with the lexer in every
call until the first that fails, and in that one too (`cut_agrees`): all that the lexer looks for is
one byte long, and the bytes of other characters are none of that (`charBytes_cases`).
-/

set_option autoImplicit false

namespace ClassLang

open List

/-! ## Bytes -/

/-- How a byte is read: as the character that it is by itself, or as one that means nothing. -/
def byteChar (b : UInt8) : Char := if b.toNat < 128 then .ofUInt8 b else '\x7f'

def charBytes (c : Char) : List Char := (String.utf8EncodeChar c).map byteChar

/-- The bytes of a text. -/
def bytes (text : List Char) : List Char := text.flatMap charBytes

/-- The character is longer than a byte. -/
def Wide (c : Char) : Prop := 128 ≤ c.toNat

instance : DecidablePred Wide := fun _ => Nat.decLe _ _

theorem length_charBytes (c : Char) : (charBytes c).length = c.utf8Size := by
  rw [charBytes, length_map, String.length_utf8EncodeChar]

/-- A character is one byte, or several that mean nothing. -/
theorem charBytes_cases (c : Char) : (¬Wide c ∧ c.utf8Size = 1 ∧ charBytes c = [c]) ∨
    Wide c ∧ charBytes c = replicate c.utf8Size '\x7f' := by
  by_cases hone : c.val.toNat ≤ 127
  · have hbyte : charBytes c = [c] := by
      have hmod : c.val.toNat % 256 = c.val.toNat := Nat.mod_eq_of_lt (by omega)
      rw [charBytes, String.utf8EncodeChar, if_pos hone, map_singleton, byteChar, if_pos]
      · exact congrArg (fun d => [d]) (Char.ext (UInt32.toNat.inj hmod))
      · exact hmod.trans_lt (Nat.lt_succ_of_le hone)
    exact Or.inl ⟨Nat.not_lt_of_le hone, by rw [← length_charBytes, hbyte]; rfl, hbyte⟩
  refine Or.inr ⟨Nat.lt_of_not_le hone, eq_replicate_iff.2 ⟨length_charBytes c, ?_⟩⟩
  have hhigh : ∀ b ∈ String.utf8EncodeChar c, 128 ≤ b.toNat := by
    rw [String.utf8EncodeChar, if_neg hone]
    generalize c.val.toNat = v
    have hmod : ∀ n, 128 ≤ n → n < 256 → 128 ≤ (UInt8.ofNat n).toNat := by
      intro n hle hlt
      exact hle.trans_eq (Nat.mod_eq_of_lt hlt).symm
    split_ifs <;> intro b hb <;> simp only [mem_cons, not_mem_nil, or_false] at hb <;>
      rcases hb with rfl | rfl | rfl | rfl <;> exact hmod _ (by omega) (by omega)
  intro d hd
  obtain ⟨b, hb, rfl⟩ := mem_map.1 hd
  rw [byteChar, if_neg (Nat.not_lt.2 (hhigh b hb))]

theorem bytes_cons (c : Char) (text : List Char) : bytes (c :: text) = charBytes c ++ bytes text := rfl

theorem bytes_append (text text' : List Char) : bytes (text ++ text') = bytes text ++ bytes text' :=
  flatMap_append

variable {c a : Char} {p : Char → Bool} {text : List Char}

theorem bytes_narrow (h : ¬Wide c) (text : List Char) : bytes (c :: text) = c :: bytes text := by
  rcases charBytes_cases c with ⟨-, -, hone⟩ | ⟨hc, -⟩
  · rw [bytes_cons, hone, singleton_append]
  · exact absurd hc h

theorem bytes_wide (h : Wide c) (text : List Char) :
    bytes (c :: text) = replicate c.utf8Size '\x7f' ++ bytes text := by
  rcases charBytes_cases c with ⟨hc, -⟩ | ⟨-, hbytes⟩
  · exact absurd h hc
  · rw [bytes_cons, hbytes]

/-- The first byte of a character is the character itself, or means nothing. -/
theorem exists_bytes_cons (c : Char) (text : List Char) :
    ∃ b more, bytes (c :: text) = b :: more ∧ (b = c ∨ Wide c ∧ b = '\x7f') := by
  by_cases hc : Wide c
  · obtain ⟨n, hn⟩ := Nat.exists_eq_succ_of_ne_zero c.utf8Size_pos.ne'
    exact ⟨'\x7f', _, by rw [bytes_wide hc, hn]; rfl, Or.inr ⟨hc, rfl⟩⟩
  · exact ⟨c, _, bytes_narrow hc text, Or.inl rfl⟩

theorem length_bytes (text : List Char) : (bytes text).length = byteLength text := by
  induction text with
  | nil => rfl
  | cons c text ih => rw [bytes_cons, length_append, length_charBytes, ih, byteLength_cons]

/-- Every byte counts one. -/
theorem byteLength_of_subset {part : List Char} (h : part ⊆ bytes text) :
    byteLength part = part.length := by
  refine byteLength_eq_length fun b hb => ?_
  obtain ⟨c, -, hmem⟩ := mem_flatMap.1 (h hb)
  rcases charBytes_cases c with ⟨-, hsize, hone⟩ | ⟨-, hbytes⟩
  · rw [hone, mem_singleton] at hmem
    exact hmem ▸ hsize
  · rw [hbytes] at hmem
    rw [eq_of_mem_replicate hmem]
    rfl

theorem byteLength_bytes (text : List Char) : byteLength (bytes text) = byteLength text := by
  rw [byteLength_of_subset (Subset.refl _), length_bytes]

/-- What no wide character is, or all are, is in the bytes where it is in the text. -/
theorem span_bytes (hp : ∀ c, Wide c → p c = p '\x7f') (text : List Char) :
    (bytes text).takeWhile p = bytes (text.takeWhile p) ∧
      (bytes text).dropWhile p = bytes (text.dropWhile p) := by
  induction text with
  | nil => exact ⟨rfl, rfl⟩
  | cons c text ih =>
    rcases charBytes_cases c with ⟨hc, -⟩ | ⟨hc, -⟩
    · rw [bytes_narrow hc, takeWhile_cons, takeWhile_cons, dropWhile_cons,
        dropWhile_cons]
      split
      · rw [bytes_narrow hc, ih.1]
        exact ⟨rfl, ih.2⟩
      · exact ⟨rfl, (bytes_narrow hc text).symm⟩
    rw [bytes_wide hc, takeWhile_cons, dropWhile_cons, hp c hc]
    split
    · next hall =>
        have hall : ∀ d ∈ replicate c.utf8Size '\x7f', p d = true := by
          intro d hd
          rw [eq_of_mem_replicate hd, hall]
        rw [takeWhile_append_of_pos hall, dropWhile_append_of_pos hall, bytes_wide hc, ih.1]
        exact ⟨rfl, ih.2⟩
    · next hnone =>
        obtain ⟨n, hn⟩ := Nat.exists_eq_succ_of_ne_zero c.utf8Size_pos.ne'
        rw [bytes_wide hc, hn, replicate_succ, cons_append,
          takeWhile_cons_of_neg hnone, dropWhile_cons_of_neg hnone]
        exact ⟨rfl, rfl⟩

theorem head?_bytes (ha : ¬Wide a ∧ a ≠ '\x7f') (text : List Char) :
    (bytes text).head? = some a ↔ text.head? = some a := by
  cases text with
  | nil => rfl
  | cons c text =>
    obtain ⟨b, more, hbytes, rfl | ⟨hc, rfl⟩⟩ := exists_bytes_cons c text
    · rw [hbytes]
      rfl
    · rw [hbytes, head?_cons, head?_cons, Option.some_inj, Option.some_inj]
      exact iff_of_false ha.2.symm (fun h => ha.1 (h ▸ hc))

theorem bytes_eq_self {word : List Char} (h : ∀ c ∈ word, ¬Wide c) : bytes word = word := by
  induction word with
  | nil => rfl
  | cons c word ih =>
    obtain ⟨hc, hword⟩ := forall_mem_cons.1 h
    rw [bytes_narrow hc, ih hword]

theorem bytes_tabs (tabs : Nat) : bytes (replicate tabs '\t') = replicate tabs '\t' := by
  refine bytes_eq_self fun c hc => ?_
  rw [eq_of_mem_replicate hc]
  decide

theorem mem_of_mem_bytes (ha : a ≠ '\x7f') (h : a ∈ bytes text) : a ∈ text := by
  obtain ⟨c, hc, hmem⟩ := mem_flatMap.1 h
  rcases charBytes_cases c with ⟨-, -, hone⟩ | ⟨-, hbytes⟩
  · rw [hone, mem_singleton] at hmem
    exact hmem ▸ hc
  · rw [hbytes] at hmem
    exact absurd (eq_of_mem_replicate hmem) ha

/-- What no wide character is spells its own bytes. -/
theorem takeWhile_bytes (hp : ∀ c, Wide c → p c = false) (hdel : p '\x7f' = false)
    (text : List Char) : (bytes text).takeWhile p = text.takeWhile p := by
  rw [(span_bytes (fun c hc => (hp c hc).trans hdel.symm) text).1]
  refine bytes_eq_self fun c hc hwide => ?_
  exact absurd (hp c hwide) (ne_false_of_eq_true (mem_takeWhile_imp hc))

/-! ## Slices -/

/-- The text from an offset on, which may not be inside a character. -/
def textFrom? (n : Nat) : List Char → Option (List Char)
  | [] => if n = 0 then some [] else none
  | c :: text =>
    if n = 0 then some (c :: text)
    else if c.utf8Size ≤ n then textFrom? (n - c.utf8Size) text
    else none

/-- The text from one offset to another. -/
def slice? (text : List Char) (start stop : Nat) : Option (List Char) :=
  (textFrom? start text).bind fun rest => (textFrom? stop text).bind fun behind =>
    if start ≤ stop then some (rest.take (rest.length - behind.length)) else none

/-- The character at an offset. -/
def charAt? (text : List Char) (pos : Nat) : Option Char :=
  (textFrom? pos text).map fun rest => rest.head?.getD '\x00'

/-- A text can be cut between characters, and only there. -/
theorem textFrom?_eq_some_iff {n : Nat} {rest : List Char} :
    textFrom? n text = some rest ↔ ∃ before, text = before ++ rest ∧ byteLength before = n := by
  constructor
  · intro h
    induction text generalizing n with
    | nil =>
      rw [textFrom?] at h
      split at h
      · next hn => exact ⟨[], Option.some.inj h, hn.symm⟩
      · cases h
    | cons c text ih =>
      rw [textFrom?] at h
      split at h
      · next hn => exact ⟨[], Option.some.inj h, hn.symm⟩
      split at h
      · next hle =>
          obtain ⟨before, rfl, hn⟩ := ih h
          exact ⟨c :: before, rfl, by rw [byteLength_cons, hn, Nat.add_sub_cancel' hle]⟩
      · cases h
  · rintro ⟨before, rfl, rfl⟩
    induction before with
    | nil => cases rest <;> rfl
    | cons c before ih =>
      have hpos := c.utf8Size_pos
      rw [cons_append, byteLength_cons, textFrom?, if_neg (by omega),
        if_pos (Nat.le_add_right _ _), Nat.add_sub_cancel_left, ih]

theorem slice?_append (before part behind : List Char) :
    slice? (before ++ (part ++ behind)) (byteLength before) (byteLength before + byteLength part) =
      some part := by
  have hrest : textFrom? (byteLength before) (before ++ (part ++ behind)) = some (part ++ behind) :=
    textFrom?_eq_some_iff.2 ⟨before, rfl, rfl⟩
  have hbehind : textFrom? (byteLength before + byteLength part) (before ++ (part ++ behind)) =
      some behind :=
    textFrom?_eq_some_iff.2 ⟨before ++ part, (append_assoc _ _ _).symm, byteLength_append _ _⟩
  rw [slice?, hrest, Option.bind_some, hbehind, Option.bind_some, if_pos (Nat.le_add_right _ _),
    length_append, Nat.add_sub_cancel, take_left]

theorem charAt?_append (before rest : List Char) :
    charAt? (before ++ rest) (byteLength before) = some (rest.head?.getD '\x00') := by
  rw [charAt?, textFrom?_eq_some_iff.2 ⟨before, rfl, rfl⟩, Option.map_some]

/-! ## The reader -/

/-- What reading gives, and the offset behind it; nothing, if something is cut inside a character. -/
abbrev ByteReading (α : Type) := Option (Except CompileError α × Nat)

section Reader

variable (text : List Char)

/-- Reads quote text. What is read before `segment` has been cut out, and is `done`. -/
def cutQuote (done : List Char) (segment pos : Nat) : List Char → ByteReading QuotePart
  | [] => some (.error ⟨.single pos, .unterminatedQuote⟩, pos)
  | b :: rest =>
    if b = '\n' then some (.error ⟨.single pos, .unterminatedQuote⟩, pos + 1)
    else if b = '"' ∨ b = '{' then
      (slice? text segment pos).map fun part =>
        (.ok ⟨String.ofList (done ++ part), b = '"'⟩, pos + 1)
    else if b = '\\' then
      (slice? text segment pos).bind fun part =>
        match rest with
        | [] =>
          (charAt? text (pos + 1)).map fun c => (.error ⟨⟨pos, pos + 2⟩, .badEscape c⟩, pos + 1)
        | e :: rest =>
          match escaped? e with
          | some meant => cutQuote (done ++ part ++ [meant]) (pos + 2) (pos + 2) rest
          | none =>
            (charAt? text (pos + 1)).map fun c => (.error ⟨⟨pos, pos + 2⟩, .badEscape c⟩, pos + 2)
    else cutQuote done segment (pos + 1) rest

/-- A character with which a word that is no quote can begin. -/
def startsWord (c : Char) : Bool :=
  (punctuation? c).isSome || c = '.' || c.isDigit || c.isLower || c.isUpper || isOperatorChar c

/-- Reads the token that begins with the byte `b` at `start`. -/
def cutWord (start : Nat) (b : Char) (rest : List Char) : ByteReading Token :=
  if b = '"' then
    (cutQuote text [] (start + 1) (start + 1) rest).map fun (part, stop) =>
      (part.map fun part =>
        if part.isEnd then .literal (.str part.text) else .quoteStart part.text, stop)
  else if startsWord b then
    let (token, behind) := readWord start b ⟨rest, start + 1, 0⟩
    (slice? text start behind.pos).map fun _ => (token, behind.pos)
  else
    (charAt? text start).map fun c =>
      (.error ⟨⟨start, start + c.utf8Size⟩, .unrecognizedCharacter c⟩, start + 1)

namespace Lexer

/-- The lexer reads the bytes of the text, from where it stands. -/
def inBytes (l : Lexer) : Lexer := { l with cursor := ⟨(bytes text).drop l.pos, l.pos, 0⟩ }

/-- Reads the next token within a line. -/
def cutLineWord (l : Lexer) : Option (Except CompileError Lexed × Lexer) :=
  let spaced := l.cursor.skipWhile (· = ' ')
  if l.cursor.next? = some ' ' ∧ spaced.next? = some '\n' then
    some (.error ⟨⟨spaced.pos - 1, spaced.pos⟩, .trailingSpace⟩, { l with cursor := spaced })
  else
    let c := if spaced.next? = some '|' then spaced.skipWhile (· ≠ '\n') else spaced
    match c.rest with
    | [] => some (endToken { l with cursor := c })
    | b :: rest =>
      if b = '\n' then some (lineToken { l with cursor := ⟨rest, c.pos + 1, 0⟩ })
      else
        (cutWord text c.pos b rest).map fun (token, stop) =>
          (token.map (⟨·, ⟨c.pos, stop⟩⟩), { l with cursor := ⟨rest, stop, 0⟩ })

def cutStartedToken (l : Lexer) : Option (Except CompileError Lexed × Lexer) :=
  if l.owed = 0 then l.cutLineWord text else some l.startedToken

/-- Reads the next token in the bytes of the text. -/
def cutToken (l : Lexer) : Option (Except CompileError Lexed × Lexer) :=
  Option.map (Prod.map id (inBytes text)) <|
    if l.started then l.cutStartedToken text
    else
      match toLine { l with started := true } with
      | (.error e, l) => some (.error e, l)
      | (.ok start, l) =>
        if start = l.pos then l.cutStartedToken text
        else some (.error ⟨⟨start, l.pos⟩, .tooMuchIndent⟩, l)

def cutQuotePart (l : Lexer) : Option (Except CompileError QuotePart × Lexer) :=
  (cutQuote text [] l.pos l.pos l.cursor.rest).map fun (part, stop) =>
    (part, inBytes text { l with cursor := ⟨[], stop, 0⟩ })

end Lexer

end Reader

/-! ## Wide characters -/

section Wide

theorem Wide.notMem (h : Wide c) {cs : List Char} (hcs : cs.any (Wide ·) = false) : c ∉ cs :=
  not_mem_of_class (decide_eq_true h) hcs

theorem Wide.classes (h : Wide c) : c.isDigit = false ∧ c.isLower = false ∧ c.isUpper = false := by
  have hval : 128 ≤ c.val := UInt32.le_iff_toNat_le.2 h
  change (decide ('0'.val ≤ c.val) && decide (c.val ≤ '9'.val)) = false ∧
    (decide ('a'.val ≤ c.val) && decide (c.val ≤ 'z'.val)) = false ∧
    decide ('A'.val ≤ c.val ∧ c.val ≤ 'Z'.val) = false
  grind

theorem Wide.isAlphanum (h : Wide c) : c.isAlphanum = false := by
  rw [isAlphanum_eq, h.classes.1, h.classes.2.1, h.classes.2.2]
  rfl

theorem Wide.isOperatorChar (h : Wide c) : isOperatorChar c = false :=
  decide_eq_false (h.notMem (by decide))

theorem Wide.escaped? (h : Wide c) : escaped? c = none := by
  have hne : c ∉ ['"', '{', 'n', 't'] := h.notMem (by decide)
  unfold ClassLang.escaped?
  split <;> first | rfl | exact absurd (by decide) hne

end Wide

/-! ## Lines -/

/-- The cursor as it stands in the bytes. -/
def Cursor.bytewise (c : Cursor) : Cursor := { c with rest := bytes c.rest }

theorem Cursor.skipWhile_bytewise (hp : ∀ c, Wide c → p c = p '\x7f') (c : Cursor) :
    c.bytewise.skipWhile p = (c.skipWhile p).bytewise := by
  obtain ⟨htake, hdrop⟩ := span_bytes hp c.rest
  rw [skipWhile, bytewise, htake, hdrop, byteLength_bytes]
  rfl

theorem Cursor.next?_bytewise (ha : ¬Wide a ∧ a ≠ '\x7f') (c : Cursor) :
    c.bytewise.next? = some a ↔ c.next? = some a :=
  head?_bytes ha c.rest

theorem BlankLines.bytes {blank : List Char} (h : BlankLines blank) :
    BlankLines (ClassLang.bytes blank) := by
  induction h with
  | nil => exact .nil
  | @line tabs comment rest hcomment _ ih =>
    have hcomment' : Comment (ClassLang.bytes comment) := by
      cases hcomment with
      | none => exact .none
      | bar h =>
        rw [bytes_narrow (by decide)]
        exact .bar fun hmem => h (mem_of_mem_bytes (by decide) hmem)
    rw [bytes_append, bytes_append, bytes_narrow (by decide), bytes_tabs]
    exact .line hcomment' ih

namespace Lexer

/-- The lexer as it stands in the bytes. -/
def bytewise (l : Lexer) : Lexer := { l with cursor := l.cursor.bytewise }

theorem In.toLine_bytewise {l : Lexer} (h : l.In text) :
    l.bytewise.toLine = (l.toLine.1, l.toLine.2.bytewise) := by
  obtain ⟨⟨rest, pos, torn⟩, indent, owed, started⟩ := l
  obtain rfl : torn = 0 := h.clean.1
  obtain ⟨blank, tabs, code, rfl, hblank, hcode⟩ := exists_lines rest h.clean.2
  have hcode' : ∀ c ∈ (bytes code).head?, c ∉ ['\n', '\t', '|'] := by
    intro c hc hmem
    have hnarrow : ∀ c ∈ ['\n', '\t', '|'], ¬Wide c ∧ c ≠ '\x7f' := by simp [Wide]
    exact hcode c ((head?_bytes (hnarrow c hmem) code).1 hc) hmem
  have hbytes : (Cursor.mk (blank ++ (replicate tabs '\t' ++ code)) pos 0).bytewise =
      ⟨bytes blank ++ (replicate tabs '\t' ++ bytes code), pos, 0⟩ := by
    rw [Cursor.bytewise, bytes_append, bytes_append, bytes_tabs]
  unfold Lexer.toLine bytewise
  dsimp only
  rw [hbytes, Cursor.toLine_lines hblank.bytes hcode', Cursor.toLine_lines hblank hcode,
    byteLength_bytes]
  by_cases hspace : code.head? = some ' '
  · simp only [Cursor.next?, hspace, (head?_bytes (by decide) code).2 hspace, if_true]
    rfl
  · simp only [Cursor.next?, hspace, mt (head?_bytes (by decide) code).1 hspace, if_false]
    rfl

theorem In.lineToken {l : Lexer} (h : l.In text) :
    l.bytewise.lineToken = (l.lineToken.1, l.lineToken.2.bytewise) := by
  unfold Lexer.lineToken
  rw [h.toLine_bytewise]
  rcases l.toLine with ⟨_ | start, l⟩
  · rfl
  have hpos : l.bytewise.pos = l.pos := rfl
  have hindent : l.bytewise.indent = l.indent := rfl
  simp only [hpos, hindent]
  split_ifs <;> rfl

end Lexer

/-! ## Quotes -/

/-- What reading gives, and the offset behind it. -/
def Reading.found {α : Type} (r : Reading α) : ByteReading α := some (r.1, r.2.pos)

section Quotes

variable {before part done rest : List Char} {pos : Nat}

/-- The characters that have a meaning in quote text. -/
def quoteChars : List Char := ['\n', '"', '{', '\\']

theorem cutQuote_skip {bs : List Char} (h : ∀ b ∈ bs, b ∉ quoteChars) (segment pos : Nat) :
    cutQuote text done segment pos (bs ++ rest) =
      cutQuote text done segment (pos + bs.length) rest := by
  induction bs generalizing pos with
  | nil => rfl
  | cons b bs ih =>
    obtain ⟨hb, hbs⟩ := forall_mem_cons.1 h
    simp only [quoteChars, mem_cons, not_mem_nil, or_false, not_or] at hb
    obtain ⟨hnewline, hquote, hbrace, hbackslash⟩ := hb
    rw [cons_append, cutQuote, if_neg hnewline, if_neg (not_or.2 ⟨hquote, hbrace⟩),
      if_neg hbackslash, ih hbs, length_cons, Nat.add_assoc, Nat.add_comm 1]

theorem cutQuote_end (htext : text = before ++ (part ++ rest))
    (hpos : pos = byteLength before + byteLength part) {b : Char} (hb : b = '"' ∨ b = '{')
    (more : List Char) : cutQuote text done (byteLength before) pos (b :: more) =
      some (.ok ⟨String.ofList (done ++ part), b = '"'⟩, pos + 1) := by
  have hnewline : b ≠ '\n' := by rcases hb with rfl | rfl <;> decide
  rw [cutQuote, if_neg hnewline, if_pos hb, htext, hpos, slice?_append, Option.map_some]

/-- The text is cut out up to a backslash; the character behind it is looked at if its first byte
means nothing there. -/
theorem cutQuote_escape (htext : text = before ++ (part ++ '\\' :: rest))
    (hpos : pos = byteLength before + byteLength part) (more : List Char) :
    cutQuote text done (byteLength before) pos ('\\' :: more) =
      match more with
      | [] => some (.error ⟨⟨pos, pos + 2⟩, .badEscape (rest.head?.getD '\x00')⟩, pos + 1)
      | e :: more =>
        match escaped? e with
        | some meant => cutQuote text (done ++ part ++ [meant]) (pos + 2) (pos + 2) more
        | none => some (.error ⟨⟨pos, pos + 2⟩, .badEscape (rest.head?.getD '\x00')⟩, pos + 2) := by
  have hbefore : text = (before ++ part ++ ['\\']) ++ rest := by simp [htext]
  have hoffset : pos + 1 = byteLength (before ++ part ++ ['\\']) := by
    rw [hpos, byteLength_append, byteLength_append]
    rfl
  have hchar : charAt? text (pos + 1) = some (rest.head?.getD '\x00') := by
    rw [hoffset, hbefore, charAt?_append]
  have hslice : slice? text (byteLength before) pos = some part := by
    rw [htext, hpos, slice?_append]
  rw [cutQuote, if_neg (by decide), if_neg (by decide), if_pos rfl, hslice, Option.bind_some, hchar]
  rfl

/-- Quote text is read in the bytes as it is in the text, of which `part` has been read since
something was cut out last. -/
theorem cutQuote_bytes {read : List Char} (htext : text = before ++ (part ++ rest))
    (hread : read.reverse = done ++ part) (hpos : pos = byteLength before + byteLength part) :
    cutQuote text done (byteLength before) pos (bytes rest) = (quoteFrom read pos rest).found := by
  fun_induction quoteFrom read pos rest generalizing before part done with
  | case1 => rfl
  | case2 read pos rest =>
    rw [hread]
    exact cutQuote_end htext hpos (Or.inl rfl) (bytes rest)
  | case3 read pos rest =>
    rw [hread]
    exact cutQuote_end htext hpos (Or.inr rfl) (bytes rest)
  | case4 read pos rest =>
    rw [bytes_narrow (by decide), cutQuote, if_pos rfl]
    rfl
  | case5 read pos => exact cutQuote_escape htext hpos []
  | case6 read pos c rest meant hmeant ih =>
    rcases charBytes_cases c with ⟨hc, hsize, -⟩ | ⟨hc, -⟩
    · have hnext : pos + 2 = byteLength (before ++ (part ++ ['\\', c])) := by
        simp [hpos, hsize]
        rfl
      rw [bytes_narrow (by decide), bytes_narrow hc, cutQuote_escape htext hpos]
      dsimp only
      rw [hmeant]
      dsimp only
      rw [hnext] at ih ⊢
      refine @ih _ [] _ ?_ ?_ ?_ <;> simp [htext, hread]
    · rw [hc.escaped?] at hmeant
      cases hmeant
  | case7 read pos c rest hnone =>
    obtain ⟨e, more, hbytes, hfirst⟩ := exists_bytes_cons c rest
    have he : escaped? e = none := by
      rcases hfirst with rfl | ⟨-, rfl⟩
      · exact hnone
      · rfl
    rw [bytes_narrow (by decide), hbytes, cutQuote_escape htext hpos]
    dsimp only
    rw [he]
    rfl
  | case8 read pos c rest hquote hbrace hnewline hlast hbackslash ih =>
    have hslash : c ≠ '\\' := by
      rintro rfl
      cases rest with
      | nil => exact hlast rfl rfl
      | cons d rest => exact hbackslash d rest rfl rfl
    have hskip : ∀ d ∈ charBytes c, d ∉ quoteChars := by
      rcases charBytes_cases c with ⟨-, -, hone⟩ | ⟨-, hbytes⟩
      · rw [hone]
        simpa [quoteChars, hslash] using ⟨hnewline, hquote, hbrace⟩
      · rw [hbytes]
        intro d hd
        rw [eq_of_mem_replicate hd]
        decide
    rw [bytes_cons, cutQuote_skip hskip, length_charBytes]
    refine @ih _ (part ++ [c]) _ ?_ ?_ ?_
    · simp [htext]
    · simp [hread]
    · simp [hpos, Nat.add_assoc]

theorem cutQuote_start (htext : text = before ++ rest) :
    cutQuote text [] (byteLength before) (byteLength before) (bytes rest) =
      (quoteFrom [] (byteLength before) rest).found :=
  @cutQuote_bytes text before [] [] rest _ [] htext rfl rfl

end Quotes

/-! ## Words -/

section Words

variable {start : Nat} {first : Char} {c : Cursor}

/-- A word that is no quote has no wide character, so it is the same in the bytes. -/
theorem readWord_bytes (hquote : first ≠ '"') (pos : Nat) (rest : List Char) :
    (readWord pos first ⟨bytes rest, pos + first.utf8Size, 0⟩).found =
      (readWord pos first ⟨rest, pos + first.utf8Size, 0⟩).found := by
  have hword : (bytes rest).takeWhile isWordChar = rest.takeWhile isWordChar := by
    refine takeWhile_bytes (fun d hd => ?_) rfl rest
    have hdot : d ≠ '.' := by simpa using hd.notMem (show ['.'].any (Wide ·) = false by decide)
    simp [isWordChar, hd.isAlphanum, hd.isOperatorChar, hdot]
  rw [readWord_eq_placed hquote, readWord_eq_placed hquote, hword]
  rfl

/-- A word ends between characters. -/
theorem readWord_past (hstarts : startsWord first = true) (hquote : first ≠ '"')
    (hstart : start ≤ c.pos) : c.Past (readWord start first c).2 := by
  unfold readWord
  cases hpunctuation : punctuation? first with
  | some token => exact ⟨[], rfl, rfl⟩
  | none =>
    dsimp only
    split_ifs with hdot hnumber hlower hupper hoperator
    · split
      · next rest hrest => exact ⟨['.'], hrest, rfl⟩
      · exact ⟨[], rfl, rfl⟩
    · exact (readNumber_place hstart).1
    · exact c.past_skipWhile _
    · exact c.past_skipWhile _
    · exact c.past_skipWhile _
    · simp [startsWord, hpunctuation, hdot, hlower, hupper, hoperator] at hstarts
      simp [hstarts] at hnumber

theorem readWord_unrecognized (hstarts : startsWord first = false) (hquote : first ≠ '"') :
    readWord start first c = .fail (.afterFirstByte first c.rest start)
      ⟨start, start + first.utf8Size⟩ (.unrecognizedCharacter first) := by
  simp only [startsWord, Bool.or_eq_false_iff, Option.isSome_eq_false_iff, Option.isNone_iff_eq_none,
    decide_eq_false_iff_not] at hstarts
  obtain ⟨⟨⟨⟨⟨hpunctuation, hdot⟩, hdigit⟩, hlower⟩, hupper⟩, hoperator⟩ := hstarts
  have hminus : first ≠ '-' := by
    rintro rfl
    cases hoperator
  unfold readWord
  simp only [hpunctuation, hdot, hquote, hdigit, hminus, hlower, hupper, hoperator, if_false,
    decide_false, Bool.false_and, Bool.or_false, Bool.false_eq_true]

end Words

/-- A word is read in the bytes as it is in the text. -/
theorem cutWord_bytes {before rest more : List Char} {b : Char} (htext : text = before ++ c :: rest)
    (hbytes : bytes (c :: rest) = b :: more) : cutWord text (byteLength before) b more =
      (readWord (byteLength before) c ⟨rest, byteLength before + c.utf8Size, 0⟩).found := by
  -- a character that begins no word is looked at as a whole
  have hnone : startsWord b = false → b ≠ '"' → startsWord c = false → c ≠ '"' →
      cutWord text (byteLength before) b more =
        (readWord (byteLength before) c ⟨rest, byteLength before + c.utf8Size, 0⟩).found := by
    intro hb hquote hc hquote'
    rw [readWord_unrecognized hc hquote', cutWord, if_neg hquote, if_neg (ne_true_of_eq_false hb), htext,
      charAt?_append]
    rfl
  rcases charBytes_cases c with ⟨hc, hsize, -⟩ | ⟨hc, -⟩
  · rw [bytes_narrow hc] at hbytes
    cases hbytes
    by_cases hquote : c = '"'
    · subst hquote
      have hbefore : byteLength before + '"'.utf8Size = byteLength (before ++ ['"']) := by
        rw [byteLength_append]
        rfl
      have hquote := cutQuote_start (htext.trans (append_cons before '"' rest))
      rw [← hbefore] at hquote
      rw [cutWord, if_pos rfl, ← hsize, hquote, readWord_mark]
      rfl
    cases hstarts : startsWord c with
    | false => exact hnone hstarts hquote hstarts hquote
    | true =>
      have hread := readWord_bytes hquote (byteLength before) rest
      obtain ⟨word, hrest, hpos⟩ := @readWord_past (byteLength before) c
        ⟨rest, byteLength before + c.utf8Size, 0⟩ hstarts hquote (Nat.le_add_right _ _)
      have hslice : slice? text (byteLength before) (byteLength before + byteLength (c :: word)) =
          some (c :: word) := by
        rw [htext, show rest = _ from hrest, ← cons_append, slice?_append]
      rw [byteLength_cons, ← Nat.add_assoc, ← hpos] at hslice
      obtain ⟨htoken, hbehind⟩ := Prod.mk.inj (Option.some.inj hread)
      rw [cutWord, if_neg hquote, if_pos hstarts, ← hsize]
      dsimp only
      rw [htoken, hbehind]
      exact congrArg (Option.map _) hslice
  · obtain ⟨n, hn⟩ := Nat.exists_eq_succ_of_ne_zero c.utf8Size_pos.ne'
    rw [bytes_wide hc, hn] at hbytes
    obtain ⟨rfl, -⟩ := cons.inj hbytes
    have hne : c ∉ '.' :: '"' :: punctuationChars := hc.notMem (by decide)
    simp only [mem_cons, not_or] at hne
    refine hnone (by decide) (by decide) ?_ hne.2.1
    simp [startsWord, punctuation?_eq_none hne.2.2, hne.1, hc.classes, hc.isOperatorChar]

/-! ## Calls -/

namespace Lexer

variable {l : Lexer}

theorem In.inBytes (h : l.In text) : l.inBytes text = l.bytewise := by
  obtain ⟨clean, before, htext, hpos⟩ := h
  have hdrop : (bytes text).drop l.pos = bytes l.cursor.rest := by
    rw [htext, bytes_append, ← hpos, ← length_bytes, drop_left]
  rw [Lexer.inBytes, hdrop, ← show l.cursor.torn = 0 from clean.1]
  rfl

theorem In.lineWord (h : l.In text) :
    (l.bytewise.cutLineWord text).map (Prod.map id (Lexer.inBytes text)) =
      some (Prod.map id (Lexer.inBytes text) l.lineWord) := by
  have hspace : ∀ c, Wide c → decide (c = ' ') = decide ('\x7f' = ' ') := fun c hc =>
    decide_eq_false (by simpa using hc.notMem (show [' '].any (Wide ·) = false by decide))
  have hnewline : ∀ c, Wide c → decide (c ≠ '\n') = decide ('\x7f' ≠ '\n') := fun c hc =>
    decide_eq_true (by simpa using hc.notMem (show ['\n'].any (Wide ·) = false by decide))
  obtain ⟨spaced, hspaced⟩ : ∃ spaced, spaced = l.cursor.skipWhile (· = ' ') := ⟨_, rfl⟩
  obtain ⟨c, hc⟩ : ∃ c : Cursor, c = if spaced.next? = some '|' then spaced.skipWhile (· ≠ '\n') else spaced :=
    ⟨_, rfl⟩
  have hpast : l.cursor.mend.Past c := by
    have hpast : l.cursor.Past spaced := hspaced ▸ l.cursor.past_skipWhile _
    rw [hc, h.mend]
    split
    · exact hpast.trans (spaced.past_skipWhile _)
    · exact hpast
  have hbytes : l.bytewise.cursor.skipWhile (· = ' ') = spaced.bytewise :=
    hspaced ▸ l.cursor.skipWhile_bytewise hspace
  have hcomment : (if spaced.bytewise.next? = some '|' then spaced.bytewise.skipWhile (· ≠ '\n')
      else spaced.bytewise) = c.bytewise := by
    by_cases hbar : spaced.next? = some '|'
    · rw [hc, if_pos hbar, if_pos ((spaced.next?_bytewise (by decide)).2 hbar),
        Cursor.skipWhile_bytewise hnewline]
    · rw [hc, if_neg hbar, if_neg (mt (spaced.next?_bytewise (by decide)).1 hbar)]
  have htrailing : (l.bytewise.cursor.next? = some ' ' ∧ spaced.bytewise.next? = some '\n') ↔
      l.cursor.next? = some ' ' ∧ spaced.next? = some '\n' :=
    and_congr (Cursor.next?_bytewise (by decide) _) (Cursor.next?_bytewise (by decide) _)
  unfold cutLineWord Lexer.lineWord
  simp only [h.mend, ← hspaced, hbytes, htrailing, hcomment, ← hc]
  split
  · rfl
  obtain ⟨_ | ⟨first, rest⟩, pos, torn⟩ := c
  · change some (Prod.map id _ (if l.indent = 0 then _ else _)) =
      some (Prod.map id _ (if l.indent = 0 then _ else _))
    split <;> rfl
  obtain ⟨b, more, hrest, hb⟩ := exists_bytes_cons first rest
  have hbytes : (Cursor.mk (first :: rest) pos torn).bytewise.rest = b :: more := hrest
  rw [hbytes]
  by_cases hbreak : first = '\n'
  · subst hbreak
    cases (bytes_narrow (by decide) rest).symm.trans hrest
    have hline := (h.past (hpast.trans (Cursor.past_char ..))).lineToken
    exact (congrArg (fun r => some (Prod.map id (Lexer.inBytes text) r)) hline).trans rfl
  obtain ⟨before, htext, hpos⟩ := (h.past hpast).read
  have hword := cutWord_bytes htext hrest
  rw [show byteLength before = pos from hpos] at hword
  have hbreak' : b ≠ '\n' := by
    rcases hb with rfl | ⟨-, rfl⟩
    · exact hbreak
    · decide
  dsimp only [Cursor.bytewise]
  rw [if_neg hbreak', hword]
  split
  · next heq => cases heq
  · next heq => exact absurd (cons.inj heq).1 hbreak
  · next heq =>
    cases heq
    rcases readWord pos first ⟨rest, pos + first.utf8Size, 0⟩ with ⟨_ | _, _⟩ <;> rfl

theorem In.startedToken (h : l.In text) :
    (l.bytewise.cutStartedToken text).map (Prod.map id (Lexer.inBytes text)) =
      some (Prod.map id (Lexer.inBytes text) l.startedToken) := by
  have howed : l.bytewise.owed = l.owed := rfl
  simp only [cutStartedToken, Lexer.startedToken, howed]
  split
  · exact h.lineWord
  · rfl

theorem In.nextToken (h : l.In text) :
    (l.inBytes text).cutToken text = some (Prod.map id (Lexer.inBytes text) l.nextToken) := by
  have hin : In text { l with started := true } := ⟨h.clean, h.read⟩
  have hline := hin.toLine_bytewise
  replace hin := hin.toLine.1
  change Lexer.toLine { l.bytewise with started := true } = _ at hline
  have hstarted : l.bytewise.started = l.started := rfl
  simp only [h.inBytes, cutToken, Lexer.nextToken, h.mend, hline, hstarted]
  split
  · exact h.startedToken
  generalize Lexer.toLine { l with started := true } = line at hin
  obtain ⟨_ | start, l⟩ := line
  · rfl
  have hpos : l.bytewise.pos = l.pos := rfl
  simp only [hpos]
  split
  · exact In.startedToken hin
  · rfl

theorem In.nextQuotePart (h : l.In text) :
    (l.inBytes text).cutQuotePart text = some (Prod.map id (Lexer.inBytes text) l.nextQuotePart) := by
  obtain ⟨before, htext, hpos⟩ := h.read
  have hquote := cutQuote_start htext
  rw [hpos] at hquote
  rw [h.inBytes, cutQuotePart, Lexer.nextQuotePart, h.mend, readQuotePart]
  exact congrArg (Option.map _) hquote

theorem Reached.in {source : String} (h : Reached source l) : l.In (normalized source) := by
  induction h with
  | start => exact in_ofText source
  | token _ hnext ih => exact (((nextToken_eq_ok_iff ih.clean).1 hnext).in ih).1
  | quotePart _ hnext ih => exact (ih.quotePart hnext).1

/-- As long as no call has failed, the lexer stands between two characters, and what it gives next is
what reading byte by byte gives: nothing is cut inside a character. -/
theorem cut_agrees {source : String} (h : Reached source l) :
    let text := normalized source
    Boundary text l.pos ∧
      (l.inBytes text).cutToken text = some (l.nextToken.1, l.nextToken.2.inBytes text) ∧
      (l.inBytes text).cutQuotePart text = some (l.nextQuotePart.1, l.nextQuotePart.2.inBytes text) :=
  ⟨h.in.boundary, h.in.nextToken, h.in.nextQuotePart⟩

/-- The text `"é"` is a token of four bytes. -/
theorem cut_agrees_wide :
    let source := "\"é\""
    let text := normalized source
    let l := (ofText source).nextToken.2
    Reached source l ∧ l.pos = 4 ∧ Boundary text l.pos ∧
      (l.inBytes text).cutToken text = some (l.nextToken.1, l.nextToken.2.inBytes text) ∧
      (l.inBytes text).cutQuotePart text = some (l.nextQuotePart.1, l.nextQuotePart.2.inBytes text) := by
  have h : Reached "\"é\"" (ofText "\"é\"").nextToken.2 := .token .start rfl
  exact ⟨h, rfl, cut_agrees h⟩

end Lexer

end ClassLang
