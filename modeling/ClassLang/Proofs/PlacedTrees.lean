import ClassLang.Proofs.ParserSoundness

/-!
# The lines of a block

Every line of a block is one line of the text: no token of an expression breaks the line where it
begins, so all that stands between its ends is on this line (`Lexer.Within.onLine_of_row`). And so a
block begins on the line where its first expression stands and ends on that of its last one, with only
the dedent behind it (`Parse.Block.lines`).
-/

set_option autoImplicit false

namespace ClassLang

open List

/-! ## Tokens of a line -/

/-- Not a block of several lines. -/
def Tree.Expr.isLine : Tree.Expr → Bool
  | .letIn _ _ _ _ => false
  | .seq _ _ _ => false
  | _ => true

theorem Tree.Expr.isLine_of_erase {e : Tree.Expr} (h : e.erase.isLine = true) : e.isLine = true := by
  cases e with
  | letIn _ _ _ _ => cases h
  | seq _ _ _ => cases h
  | _ => rfl

/-- None of the tokens breaks a line. -/
def Unbroken (tokens : List Token) : Prop := ∀ token ∈ tokens, token.isBreak = false

section Unbroken

variable {token : Token} {tokens others : List Token}

@[simp] theorem unbroken_nil : Unbroken [] := fun _ h => absurd h not_mem_nil

@[simp] theorem unbroken_cons :
    Unbroken (token :: tokens) ↔ token.isBreak = false ∧ Unbroken tokens := forall_mem_cons

@[simp] theorem unbroken_append :
    Unbroken (tokens ++ others) ↔ Unbroken tokens ∧ Unbroken others := forall_mem_append

theorem unbroken_flatMap {α : Type} {xs : List α} {f : α → List Token}
    (h : ∀ x ∈ xs, Unbroken (f x)) : Unbroken (xs.flatMap f) := by
  intro token hmem
  obtain ⟨x, hx, htoken⟩ := mem_flatMap.1 hmem
  exact h x hx token htoken

end Unbroken

namespace Grammar

theorem unbroken_memberTokens (names : List String) : Unbroken (memberTokens names) :=
  unbroken_flatMap fun name _ => by simp [Token.isBreak]

/-- No part of an expression breaks its line. -/
theorem unbroken_tokens : (∀ e : Expr, Unbroken e.tokens) ∧ (∀ part : Part, Unbroken part.tokens) ∧
    (∀ head : Head, Unbroken head.tokens) ∧ ∀ holes : Holes, Unbroken holes.tokens := by
  apply Expr.induct
  case parts =>
    intro first others hfirst hothers
    rw [Expr.tokens, partTokens_eq]
    exact unbroken_append.2 ⟨hfirst, unbroken_flatMap hothers⟩
  case operator =>
    intro first others text right hfirst hothers hright
    rw [Expr.tokens, partTokens_eq]
    simp only [unbroken_append, unbroken_cons]
    exact ⟨hfirst, unbroken_flatMap hothers, rfl, hright⟩
  case part =>
    intro head names hhead
    rw [Part.tokens]
    exact unbroken_append.2 ⟨hhead, unbroken_memberTokens names⟩
  case name => simp [Head.tokens, Token.isBreak]
  case staticName => simp [Head.tokens, Token.isBreak]
  case literal => simp [Head.tokens, Token.isBreak]
  case quote =>
    intro text holes hholes
    rw [Head.tokens]
    exact unbroken_cons.2 ⟨rfl, hholes⟩
  case paren =>
    intro inner hinner
    simp [Head.tokens, Token.isBreak, hinner]
  case last =>
    intro hole text hhole
    simp [Holes.tokens, Token.isBreak, hhole]
  case more =>
    intro hole text others hhole hothers
    simp [Holes.tokens, Token.isBreak, hhole, hothers]

theorem isLine_callTree {target : Tree.Expr} (h : target.isLine = true) (args : List Tree.Expr) :
    (callTree target args).isLine = true := by
  unfold callTree
  split
  · exact h
  · rfl

theorem isLine_memberTree {target : Tree.Expr} (h : target.isLine = true) (names : List String) :
    (memberTree target names).isLine = true := by
  unfold memberTree
  induction names generalizing target with
  | nil => exact h
  | cons name names ih => exact ih rfl

/-- The tree of an expression is not one of several lines. -/
theorem isLine_tree : (∀ e : Expr, e.tree.isLine = true) ∧ (∀ part : Part, part.tree.isLine = true) ∧
    (∀ head : Head, head.tree.isLine = true) ∧ ∀ _ : Holes, True := by
  apply Expr.induct
  case parts =>
    intro first others hfirst _
    exact isLine_callTree hfirst _
  case operator => exact fun _ _ _ _ _ _ _ => rfl
  case part => exact fun _ names hhead => isLine_memberTree hhead names
  case name => exact fun _ => rfl
  case staticName => exact fun _ _ => rfl
  case literal => exact fun _ => rfl
  case quote => exact fun _ _ _ => rfl
  case paren => exact fun _ hinner => hinner
  case last => exact fun _ _ _ => trivial
  case more => exact fun _ _ _ _ _ => trivial

theorem unbroken_bareName (name : BareName) : Unbroken name.tokens := by
  induction name with
  | bare text => simp [BareName.tokens, Token.isBreak]
  | paren inner ih => simp [BareName.tokens, Token.isBreak, ih]

theorem unbroken_pattern (pattern : Pattern) : Unbroken pattern.tokens := by
  cases pattern with
  | ignore => simp [Pattern.tokens, Token.isBreak]
  | names first others =>
    rw [Pattern.tokens]
    exact unbroken_append.2 ⟨unbroken_bareName first,
      unbroken_flatMap fun name _ => unbroken_bareName name⟩

end Grammar

section Within

variable {text done : List Char}

theorem Reader.Reads.within {r r' : Reader} {ts : List Lexed} (h : r.Reads ts r')
    (hlined : Lined text) (hr : r.lexer.Within text done)
    (hts : Unbroken (ts.map Lexed.token)) :
    r'.lexer.Within text done ∧ r'.lexer.indent = r.lexer.indent := by
  induction h with
  | nil => exact ⟨hr, rfl⟩
  | cons first _ ih =>
    obtain ⟨hbreak, hothers⟩ := unbroken_cons.1 hts
    cases first with
    | word hnext hne =>
      obtain ⟨-, hwithin, hindent⟩ := hr.word hlined hnext hbreak hne
      obtain ⟨hwithin', hindent'⟩ := ih hwithin hothers
      exact ⟨hwithin', hindent'.trans hindent⟩
    | text hpart =>
      obtain ⟨-, -, hwithin, hindent⟩ := hr.quotePart hlined hpart
      obtain ⟨hwithin', hindent'⟩ := ih hwithin hothers
      exact ⟨hwithin', hindent'.trans hindent⟩

/-- Tokens that break no line do not lead off it. -/
theorem Lexer.Passes.within {l m : Lexer} {tokens : List Token} (h : l.Passes tokens m)
    (hlined : Lined text) (hl : l.Within text done) (htokens : Unbroken tokens) :
    m.Within text done ∧ m.indent = l.indent := by
  obtain ⟨ts, hreads, rfl⟩ := h 0
  exact hreads.within hlined hl htokens

/-- The shorter of two beginnings of a text is a beginning of the longer one. -/
theorem exists_append_of_le {a b c d : List Char} (h : a ++ b = c ++ d)
    (hle : byteLength a ≤ byteLength c) : ∃ more, c = a ++ more ∧ b = more ++ d := by
  rcases append_eq_append_iff.1 h with ⟨more, rfl, hb⟩ | ⟨more, rfl, hd⟩
  · exact ⟨more, rfl, hb⟩
  cases more with
  | nil => exact ⟨[], by simp, by simpa using hd.symm⟩
  | cons first more =>
    have hsize := first.utf8Size_pos
    rw [byteLength_append, byteLength_cons] at hle
    omega

/-- What stands on a line comes before what stands on a later one. -/
theorem OnLine.lt {done' : List Char} {a b : Nat} (ha : OnLine text done a)
    (hb : OnLine text done' b) (hlength : done.length < done'.length) : a < b := by
  obtain ⟨-, part, rest, htext, -, hpart, rfl⟩ := ha
  obtain ⟨hlined, part', rest', htext', -, -, rfl⟩ := hb
  -- the later line begins behind the end of the earlier one
  obtain ⟨between, rfl⟩ : ∃ between, done' = done ++ between :=
    (prefix_of_prefix_length_le ⟨_, htext.symm⟩ ⟨_, htext'.symm⟩ hlength.le).imp
      fun _ h => h.symm
  have hbetween : '\n' ∈ between := by
    have hne : between ≠ [] := by
      rintro rfl
      simp at hlength
    rcases hlined.of_append with hnil | hlast
    · exact absurd hnil hne
    · exact mem_of_getLast? hlast
  rw [htext, append_assoc, append_cancel_left_eq] at htext'
  rcases append_eq_append_iff.1 htext' with ⟨more, rfl, -⟩ | ⟨more, rfl, -⟩
  · have hmore : more ≠ [] := by
      rintro rfl
      exact hpart (by simpa using hbetween)
    obtain ⟨c, more, rfl⟩ := exists_cons_of_ne_nil hmore
    have hsize := c.utf8Size_pos
    simp only [byteLength_append, byteLength_cons]
    omega
  · exact absurd (mem_append_left _ hbetween) hpart

/-- A place on a line and one on later lines cover both lines. -/
theorem Span.OnLine.cover_lines {done' last : List Char} {a b : Span} (ha : a.OnLine text done)
    (hstart : ClassLang.OnLine text done' b.start) (hstop : ClassLang.OnLine text last b.stop)
    (hnext : done.length < done'.length) (hlast : done'.length ≤ last.length) :
    ClassLang.OnLine text done (a.cover b).start ∧
      ClassLang.OnLine text last (a.cover b).stop := by
  have hlt := ha.1.lt hstart hnext
  have hlt' := ha.2.lt hstop (Nat.lt_of_lt_of_le hnext hlast)
  have hmin : (a.cover b).start = a.start := Nat.min_eq_left hlt.le
  have hmax : (a.cover b).stop = b.stop := Nat.max_eq_right hlt'.le
  rw [hmin, hmax]
  exact ⟨ha.1, hstop⟩

/-- A newline leads to a later line of the same depth. -/
theorem Lexer.Within.newline {l l' : Lexer} (h : l.Within text done) (hlined : Lined text)
    (hnext : l.Hands .newline l') : ∃ done', l'.Within text done' ∧ l'.indent = l.indent ∧
      done.length < done'.length := by
  obtain ⟨span, hnext⟩ := hnext
  obtain ⟨done', gap, blank, tabs, code, -, -, -, -, htoken, -, hplaced, hlength, -, hindent, howed,
    hstarted⟩ := h.exists_break hlined hnext rfl
  have htabs : tabs = l.indent := by
    by_contra hne
    rw [breakToken, if_neg hne] at htoken
    split at htoken <;> cases htoken
  refine ⟨done', ⟨hplaced, ?_, hstarted⟩, hindent.trans htabs, hlength⟩
  rw [howed, htabs]
  omega

/-- What stands before a place of a line and not before the line stands on the line. -/
theorem OnLine.before {a b : Nat} (hb : OnLine text done b) (ha : Boundary text a)
    (hle : byteLength done ≤ a) (hle' : a ≤ b) : OnLine text done a := by
  obtain ⟨hlined, part, rest, htext, hrest, hpart, rfl⟩ := hb
  obtain ⟨before, after, htext', rfl⟩ := ha
  obtain ⟨part', rfl, hparts⟩ := exists_append_of_le (htext.symm.trans htext') hle
  have hle'' : byteLength part' ≤ byteLength part := by
    rw [byteLength_append] at hle'
    omega
  obtain ⟨more, rfl, rfl⟩ := exists_append_of_le hparts.symm hle''
  refine ⟨hlined, part', more ++ rest, ?_, ?_, fun hmem => hpart (mem_append_left _ hmem), ?_⟩
  · rw [htext, append_assoc]
  · exact fun hnil => hrest (append_eq_nil_iff.1 hnil).2
  · rw [byteLength_append]

/-- The places between two places of a line stand on the line, if the line ends behind them. -/
theorem Lexer.Within.onLine_of_row {l m l' : Lexer} (hl : l.Within text done) (hlined : Lined text)
    (hm : m.Within text done) {token : Token} (hands : m.Hands token l')
    (hbreak : token.isBreak = true) {spans : List Span} (hrow : Row l.pos m.pos spans) :
    ∀ span ∈ spans, span.Piece text → span.OnLine text done := by
  intro span hmem hpiece
  obtain ⟨hstart, hstop⟩ := hrow.bounds span hmem
  have hbegin : byteLength done ≤ l.pos := by
    have placed := hl.placed
    cases placed with
    | start => exact Nat.zero_le _
    | @line _ _ _ pos _ _ _ _ _ _ _ hpos =>
      have hle : byteLength done ≤ pos := by omega
      exact hle
  have hend : ClassLang.OnLine text done m.pos := by
    obtain ⟨place, hnext⟩ := hands
    obtain ⟨_, gap, _, _, _, hrest, -⟩ := hm.exists_break hlined hnext hbreak
    have placed := hm.placed
    have hstarted := hm.started
    cases placed with
    | start => cases hstarted
    | line htext hdone hpart hcode howed hpos =>
      refine (Placed.line htext hdone hpart hcode howed hpos).onLine fun hnil => ?_
      rw [hnil] at hrest
      simp at hrest
  exact ⟨hend.before hpiece.start (hbegin.trans hstart) (hpiece.le.trans hstop),
    hend.before hpiece.stop (hbegin.trans (hstart.trans hpiece.le)) hstop⟩

end Within

namespace Tree

/-- A block from the line behind `done` on: every statement stands on that line as a whole, the rest
of the block begins on a later one. -/
inductive Expr.Stacked (text : List Char) : List Char → Expr → Prop where
  | last {done} {e : Expr} (line : e.isLine = true) (place : e.span.OnLine text done) :
      Stacked text done e
  | letIn {done done' : List Char} {span : Span} {pattern : Pattern} {value rest : Expr}
      (begins : OnLine text done span.start) (bound_place : pattern.span.OnLine text done)
      (place : value.span.OnLine text done) (later : done.length < done'.length)
      (others : Stacked text done' rest) : Stacked text done (.letIn span pattern value rest)
  | seq {done done' : List Char} {span : Span} {first rest : Expr}
      (begins : OnLine text done span.start) (place : first.span.OnLine text done)
      (later : done.length < done'.length) (others : Stacked text done' rest) :
      Stacked text done (.seq span first rest)

namespace Parse

variable {text done : List Char}

/-! ## Blocks -/

/-- A block that begins at `l` ends at `m`: there is nothing behind it on its last line, and the lexer
hands over the dedent. -/
structure BlockEnds (text done : List Char) (l : Lexer) (span : Span) (m l' : Lexer)
    (last : List Char) : Prop where
  within : m.Within text last
  indent : m.indent = l.indent
  dedent : m.Hands .dedent l'
  start : OnLine text done span.start
  stop : OnLine text last span.stop
  later : done.length ≤ last.length

/-- A line before a block makes it a longer block. -/
theorem BlockEnds.behind {done' last : List Char} {l l₁ m l' : Lexer} {first span : Span}
    (h : BlockEnds text done' l₁ span m l' last) (hfirst : first.OnLine text done)
    (hindent : l₁.indent = l.indent) (hnext : done.length < done'.length) :
    BlockEnds text done l (first.cover span) m l' last := by
  obtain ⟨hstart, hstop⟩ := hfirst.cover_lines h.start h.stop hnext h.later
  exact ⟨h.within, h.indent.trans hindent, h.dedent, hstart, hstop, hnext.le.trans h.later⟩

/-- A block begins on the line where its first expression stands and ends on the line of its last
one, and each of its lines is later than the one before. -/
theorem Block.lines (hlined : Lined text) {l l' : Lexer} {e : Expr} (h : Block text l e l')
    (hl : l.Within text done) :
    e.Stacked text done ∧
      ∃ (m : Lexer) (last : List Char), BlockEnds text done l e.span m l' last := by
  induction h generalizing done with
  | @last l l₁ l' e nested derived hands _ =>
    cases derived with
    | phrase d passes tree row =>
      obtain ⟨hm, hindent⟩ := passes.within hlined hl (Grammar.unbroken_tokens.1 d)
      have hplace := hl.onLine_of_row hlined hm hands rfl row _ mem_cons_self nested.piece
      have hline := Expr.isLine_of_erase (tree ▸ Grammar.isLine_tree.1 d)
      exact ⟨.last hline hplace, l₁, done, hm, hindent, hands, hplace.1, hplace.2, le_rfl⟩
  | seq nested derived hands _ _ ih =>
    cases derived with
    | phrase d passes tree row =>
      obtain ⟨hm, hindent⟩ := passes.within hlined hl (Grammar.unbroken_tokens.1 d)
      have hplace := hl.onLine_of_row hlined hm hands rfl row _ mem_cons_self nested.piece
      obtain ⟨done', hl₂, hindent₂, hnext⟩ := hm.newline hlined hands
      obtain ⟨hstacked, m, last, hends⟩ := ih hl₂
      have hbehind := hends.behind hplace (hindent₂.trans hindent) hnext
      exact ⟨.seq hbehind.start hplace hnext hstacked, m, last, hbehind⟩
  | letIn nested derived hands _ _ ih =>
    cases derived with
    | phrase _ _ _ _ follows => cases follows
    | declaration d value _ passes _ _ bound row =>
      have hunbroken : Unbroken (d.tokens ++ .equals :: value.tokens) := by
        simp only [unbroken_append, unbroken_cons]
        exact ⟨Grammar.unbroken_pattern d, rfl, Grammar.unbroken_tokens.1 value⟩
      obtain ⟨hm, hindent⟩ := passes.within hlined hl hunbroken
      have hplaces := hl.onLine_of_row hlined hm hands rfl row
      have hplace := hplaces _ mem_cons_self bound.piece
      obtain ⟨done', hl₂, hindent₂, hnext⟩ := hm.newline hlined hands
      obtain ⟨hstacked, m, last, hends⟩ := ih hl₂
      have hbehind := hends.behind hplace (hindent₂.trans hindent) hnext
      exact ⟨.letIn hbehind.start hplace (hplaces _ (mem_cons_of_mem _ mem_cons_self)
        nested.piece) hnext hstacked, m, last, hbehind⟩

end Parse

end Tree

end ClassLang
