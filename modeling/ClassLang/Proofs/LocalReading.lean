import ClassLang.Proofs.TextLines

/-!
# Reading does not look beyond a line break

What is read before a line break does not depend on what stands behind it
(`Reader.Takes.replace`), and what is read from some place on does not depend on the offset of that
place (`Reader.Takes.moved`). Both are stated for one move of the lexer, then for one step of a
reader and for a whole run.
-/

set_option autoImplicit false

namespace ClassLang

/-- The lexer with another text before it. -/
def Lexer.onText (l : Lexer) (rest : List Char) : Lexer :=
  { l with cursor := { l.cursor with rest := rest } }

/-- The lexer at another offset. -/
def Lexer.movedTo (l : Lexer) (pos : Nat) : Lexer := { l with cursor := { l.cursor with pos := pos } }

/-! ## Another text behind a line break -/

variable {v s s' : List Char}

theorem head?_behind (v s s' : List Char) :
    (v ++ '\n' :: s).head? = (v ++ '\n' :: s').head? := by
  cases v <;> rfl

theorem Stops.behind {p : Char → Bool} (h : Stops p (v ++ '\n' :: s)) :
    Stops p (v ++ '\n' :: s') := by
  rw [Stops, head?_behind v s' s]
  exact h

theorem StartsCode.behind (h : StartsCode (v ++ '\n' :: s)) : StartsCode (v ++ '\n' :: s') := by
  intro c hc
  rw [head?_behind v s' s] at hc
  exact h c hc

theorem Lined.behind (h : Lined s) : Lined (v ++ '\n' :: s) := by
  refine .inr ?_
  rw [List.getLast?_append, List.getLast?_cons]
  rcases h with rfl | hlast
  · rfl
  · rw [hlast]
    rfl

theorem NumberText.behind {w : List Char} {value : Literal} (h : NumberText w value (v ++ '\n' :: s)) :
    NumberText w value (v ++ '\n' :: s') := by
  cases h with
  | int hdigits stops point hvalue =>
    refine .int hdigits stops.behind ?_ hvalue
    intro rest hrest
    -- behind a point there is still a character of the line
    cases v with
    | nil => cases hrest
    | cons c v =>
      cases hrest
      exact (head?_behind v s' s).trans (point _ rfl)
  | float hdigits hfraction some_digit stops hvalue =>
    exact .float hdigits hfraction some_digit stops.behind hvalue

theorem WordText.behind {w : List Char} {token : Token} (h : WordText w token (v ++ '\n' :: s)) :
    WordText w token (v ++ '\n' :: s') := by
  cases h with
  | punctuation h => exact .punctuation h
  | dotDot => exact .dotDot
  | dot single =>
    refine .dot ?_
    rwa [head?_behind v s' s]
  | text h => exact .text h
  | quoteStart h => exact .quoteStart h
  | number hfirst h => exact .number hfirst h.behind
  | name hfirst htail stops => exact .name hfirst htail stops.behind
  | typeName hfirst htail stops => exact .typeName hfirst htail stops.behind
  | operator hfirst htail stops minus =>
    refine .operator hfirst htail stops.behind fun h => ?_
    have hminus := minus h
    rw [← List.append_assoc] at hminus ⊢
    exact hminus.behind

namespace Lexer

variable {l m : Lexer} {lexed : Lexed}

theorem Gives.replace (h : l.Gives lexed m) (hm : m.cursor.rest = v ++ '\n' :: s) :
    ∃ u, l.cursor.rest = u ++ '\n' :: s ∧
      ∀ s', (l.onText (u ++ '\n' :: s')).Gives lexed (m.onText (v ++ '\n' :: s')) := by
  induction h with
  | owed => exact ⟨v, hm, fun s' => .owed⟩
  | @word spaces pos indent w more token h =>
    obtain rfl : more = v ++ '\n' :: s := hm
    refine ⟨List.replicate spaces ' ' ++ (w ++ v), by simp, fun s' => ?_⟩
    have hword : Gives ⟨⟨List.replicate spaces ' ' ++ (w ++ (v ++ '\n' :: s')), pos, 0⟩, indent, 0,
        true⟩ _ _ := .word h.behind
    simpa [onText] using hword
  | @lineBreak gap blank code tabs pos indent hgap hblank hcode hdepth =>
    obtain rfl : code = v ++ '\n' :: s := hm
    refine ⟨gap ++ '\n' :: (blank ++ (List.replicate tabs '\t' ++ v)), by simp, fun s' => ?_⟩
    have hbreak : Gives ⟨⟨gap ++ '\n' :: (blank ++ (List.replicate tabs '\t' ++ (v ++ '\n' :: s'))),
        pos, 0⟩, indent, 0, true⟩ _ _ := .lineBreak hgap hblank hcode.behind hdepth
    simpa [onText] using hbreak
  | close => simp at hm
  | eof => simp at hm
  | @start blank code pos indent owed lexed l hblank hcode h ih =>
    obtain ⟨u, hu, hgives⟩ := ih hm
    obtain rfl : code = u ++ '\n' :: s := hu
    refine ⟨blank ++ u, by simp, fun s' => ?_⟩
    have hstart : Gives ⟨⟨blank ++ (u ++ '\n' :: s'), pos, 0⟩, indent, owed, false⟩ _ _ :=
      .start hblank hcode.behind (hgives s')
    simpa [onText] using hstart

theorem nextQuotePart_replace {part : QuotePart} (clean : l.Clean)
    (h : l.nextQuotePart = (.ok part, m)) (hm : m.cursor.rest = v ++ '\n' :: s) :
    ∃ u, l.cursor.rest = u ++ '\n' :: s ∧ ∀ s', Lined s' →
      (l.onText (u ++ '\n' :: s')).nextQuotePart = (.ok part, m.onText (v ++ '\n' :: s')) := by
  obtain ⟨w, t, hw, hrest, htext, hl⟩ := (nextQuotePart_eq_ok_iff clean).1 h
  rw [hm] at hrest hl
  refine ⟨w ++ quoteEnd part.isEnd :: v, by simp [hrest], fun s' hs' => ?_⟩
  have hclean : (l.onText (w ++ quoteEnd part.isEnd :: v ++ '\n' :: s')).Clean :=
    ⟨clean.1, hs'.behind⟩
  refine (nextQuotePart_eq_ok_iff hclean).2 ⟨w, t, hw, ?_, htext, ?_⟩
  · exact List.append_assoc _ _ _
  · rw [hl]
    rfl

end Lexer

namespace Reader

/-- The reader with another text before it. -/
def onText (r : Reader) (rest : List Char) : Reader := ⟨r.lexer.onText rest, r.mode⟩

/-- The reader at another offset. -/
def movedTo (r : Reader) (pos : Nat) : Reader := ⟨r.lexer.movedTo pos, r.mode⟩

variable {r r' : Reader} {lexed : Lexed} {ts : List Lexed} {tokens : List Token}

theorem Step.replace (h : r.Step lexed r') (clean : r.lexer.Clean)
    (hr' : r'.lexer.cursor.rest = v ++ '\n' :: s) :
    ∃ u, r.lexer.cursor.rest = u ++ '\n' :: s ∧ ∀ s', Lined s' →
      (r.onText (u ++ '\n' :: s')).Step lexed (r'.onText (v ++ '\n' :: s')) := by
  cases h with
  | word hnext hne =>
    obtain ⟨u, hu, hgives⟩ := ((Lexer.nextToken_eq_ok_iff clean).1 hnext).replace hr'
    exact ⟨u, hu, fun s' _ => .word (Lexer.nextToken_of_gives (hgives s')) hne⟩
  | text hpart =>
    obtain ⟨u, hu, hparts⟩ := Lexer.nextQuotePart_replace clean hpart hr'
    exact ⟨u, hu, fun s' hs' => .text (hparts s' hs')⟩

theorem Reads.replace (h : r.Reads ts r') (clean : r.lexer.Clean)
    (hr' : r'.lexer.cursor.rest = v ++ '\n' :: s) :
    ∃ u, r.lexer.cursor.rest = u ++ '\n' :: s ∧ ∀ s', Lined s' →
      (r.onText (u ++ '\n' :: s')).Reads ts (r'.onText (v ++ '\n' :: s')) := by
  induction h with
  | nil => exact ⟨v, hr', fun _ _ => .nil⟩
  | cons first others ih =>
    obtain ⟨u, hu, hothers⟩ := ih (first.clean clean) hr'
    obtain ⟨u', hu', hfirst⟩ := first.replace clean hu
    exact ⟨u', hu', fun s' hs' => .cons (hfirst s' hs') (hothers s' hs')⟩

/-- A run that ends before a line break is the same with another text behind the break. -/
theorem Takes.replace (h : r.Takes tokens r') (clean : r.lexer.Clean)
    (hr' : r'.lexer.cursor.rest = v ++ '\n' :: s) :
    ∃ u, r.lexer.cursor.rest = u ++ '\n' :: s ∧ ∀ s', Lined s' →
      (r.onText (u ++ '\n' :: s')).Takes tokens (r'.onText (v ++ '\n' :: s')) := by
  obtain ⟨ts, hts, htokens⟩ := h
  obtain ⟨u, hu, hreads⟩ := hts.replace clean hr'
  exact ⟨u, hu, fun s' hs' => ⟨ts, hreads s' hs', htokens⟩⟩

end Reader

/-! ## Another offset -/

theorem Lexer.Gives.moved {l m : Lexer} {lexed : Lexed} (h : l.Gives lexed m) (pos : Nat) :
    ∃ span pos', (l.movedTo pos).Gives ⟨lexed.token, span⟩ (m.movedTo pos') := by
  induction h generalizing pos with
  | owed => exact ⟨_, _, .owed⟩
  | word h => exact ⟨_, _, .word h⟩
  | lineBreak hgap hblank hcode hdepth => exact ⟨_, _, .lineBreak hgap hblank hcode hdepth⟩
  | close => exact ⟨_, _, .close⟩
  | eof => exact ⟨_, _, .eof⟩
  | start hblank hcode h ih =>
    obtain ⟨span, pos', hgives⟩ := ih (pos + byteLength _)
    exact ⟨span, pos', .start hblank hcode hgives⟩

namespace Reader

variable {r r' : Reader} {lexed : Lexed} {ts : List Lexed} {tokens : List Token}

theorem Step.moved (h : r.Step lexed r') (clean : r.lexer.Clean) (pos : Nat) :
    ∃ span pos', (r.movedTo pos).Step ⟨lexed.token, span⟩ (r'.movedTo pos') := by
  cases h with
  | word hnext hne =>
    obtain ⟨span, pos', hgives⟩ := ((Lexer.nextToken_eq_ok_iff clean).1 hnext).moved pos
    exact ⟨span, pos', .word (Lexer.nextToken_of_gives hgives) hne⟩
  | @text l l' part holes hpart =>
    obtain ⟨w, t, hw, hrest, htext, hl⟩ := (Lexer.nextQuotePart_eq_ok_iff clean).1 hpart
    have hmoved : (l.movedTo pos).nextQuotePart =
        (.ok part, l'.movedTo (pos + byteLength w + 1)) := by
      have hclean : (l.movedTo pos).Clean := clean
      refine (Lexer.nextQuotePart_eq_ok_iff hclean).2 ⟨w, t, hw, hrest, htext, ?_⟩
      rw [hl]
      rfl
    exact ⟨_, _, .text hmoved⟩

/-- A run is the same from another offset on. -/
theorem Takes.moved (h : r.Takes tokens r') (clean : r.lexer.Clean) (pos : Nat) :
    ∃ pos', (r.movedTo pos).Takes tokens (r'.movedTo pos') := by
  obtain ⟨ts, hts, rfl⟩ := h
  induction hts generalizing pos with
  | nil => exact ⟨pos, .nil⟩
  | cons first others ih =>
    obtain ⟨span, pos₁, hfirst⟩ := first.moved clean pos
    obtain ⟨pos', us, hus, htokens⟩ := ih (first.clean clean) pos₁
    exact ⟨pos', _, .cons hfirst hus, by rw [List.map_cons, htokens]; rfl⟩

theorem Ends.moved (h : r.Ends) (clean : r.lexer.Clean) (pos : Nat) : (r.movedTo pos).Ends := by
  obtain ⟨holes, lexed, l, hmode, hnext, heof⟩ := h
  obtain ⟨span, pos', hgives⟩ := ((Lexer.nextToken_eq_ok_iff clean).1 hnext).moved pos
  exact ⟨holes, _, _, hmode, Lexer.nextToken_of_gives hgives, heof⟩

end Reader

end ClassLang
