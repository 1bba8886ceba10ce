import ClassLang.Proofs.Layout
import ClassLang.Proofs.LocalReading
import ClassLang.Proofs.ParserCompleteness
import ClassLang.Proofs.PlacedTrees
import ClassLang.Proofs.PrintedForms

/-!
# Other lines for a method body

`replaceLines` puts other lines in the place of those that a span covers. A method body covers whole
lines, so that what stands before it and behind it is read as before; the main statement is
`Tree.parse_replaceLines`: with the lines of another block in the place of a body, the module has the
tree of that block in the place of the body's tree and is otherwise the same, up to places.
-/

set_option autoImplicit false

namespace ClassLang

open List Grammar.Method Lexer
open Typed (SpellsLines)

/-! ## Replacing lines -/

/-- The source with other lines in the place of those on which the span begins, goes on and ends. -/
def replaceLines (source : String) (span : Span) (text : String) : String :=
  let lines := linesOf source
  let index := LineIndex.ofText source
  String.ofList (['\n'].intercalate
    (lines.take (index.line span.start - 1) ++ text.toList :: lines.drop (index.line span.stop)))

theorem intercalate_append_cons {lines : List (List Char)} (hlines : lines ≠ []) (x : List Char)
    (others : List (List Char)) :
    ['\n'].intercalate (lines ++ x :: others) =
      ['\n'].intercalate lines ++ '\n' :: ['\n'].intercalate (x :: others) := by
  induction lines with
  | nil => exact absurd rfl hlines
  | cons line lines ih =>
    cases lines with
    | nil => simp [intercalate_cons_cons]
    | cons line' lines =>
      have hothers := ih (cons_ne_nil _ _)
      rw [cons_append] at hothers
      rw [cons_append, cons_append, intercalate_cons_cons, hothers,
        intercalate_cons_cons]
      simp

/-- The lines before `done` make up `done` again. -/
theorem intercalate_take_splitOn {done : List Char} (hdone : Lined done) (rest x : List Char)
    (others : List (List Char)) :
    ['\n'].intercalate (((done ++ rest).splitOn '\n').take (done.count '\n') ++ x :: others) =
      done ++ ['\n'].intercalate (x :: others) := by
  rcases hdone.eq_nil_or with rfl | ⟨before, rfl⟩
  · simp
  have hcount : (before ++ ['\n']).count '\n' = (before.splitOn '\n').length := by
    simp [length_splitOn_newline]
  rw [hcount, append_assoc, singleton_append, splitOn_append_cons_self,
    take_left, intercalate_append_cons (splitOn_ne_nil _ _), intercalate_splitOn]
  simp

variable {source text : String} {span : Span} {done last line after : List Char} {gap w : List Char}
  {i : Nat}

theorem toList_replaceLines {rest : List Char}
    (hstart : OnLine (normalized source) done span.start)
    (hstop : OnLine (normalized source) last span.stop)
    (hsource : source.toList = last ++ rest) :
    (replaceLines source span text).toList =
      done ++ ['\n'].intercalate (text.toList :: (rest.splitOn '\n').drop 1) := by
  obtain ⟨before, hbefore⟩ : ∃ before, source.toList = done ++ before := by
    obtain ⟨-, part, rest', htext, hrest', -, -⟩ := hstart
    obtain ⟨before, hbefore, -⟩ := exists_source_rest htext (by simp [hrest'])
    exact ⟨before, hbefore⟩
  have hdrop : (linesOf source).drop (last.count '\n' + 1) = (rest.splitOn '\n').drop 1 := by
    rw [← drop_drop, linesOf, hsource, drop_splitOn hstop.1]
  have htake := intercalate_take_splitOn hstart.1 before text.toList ((rest.splitOn '\n').drop 1)
  rw [← hbefore] at htake
  simp only [replaceLines, String.toList_ofList, hstart.line_eq, hstop.line_eq,
    Nat.add_sub_cancel, hdrop]
  exact htake

theorem intercalate_cons_splitOn (x cs : List Char) :
    ['\n'].intercalate (x :: cs.splitOn '\n') = x ++ '\n' :: cs := by
  rw [intercalate_cons_of_ne_nil (splitOn_ne_nil _ _), intercalate_splitOn]
  simp

/-- What is read of the source with other lines: the text up to the first line, the other lines and
the text behind the last line. -/
theorem normalized_replaceLines (hstart : OnLine (normalized source) done span.start)
    (hstop : OnLine (normalized source) last span.stop)
    (hlast : normalized source = last ++ (line ++ '\n' :: after)) (hline : '\n' ∉ line)
    (htext : ∃ c, text.toList.getLast? = some c ∧ c ≠ '\n') :
    normalized (replaceLines source span text) = done ++ (text.toList ++ '\n' :: after) := by
  have hsplit : ∀ cs : List Char, ((line ++ '\n' :: cs).splitOn '\n').drop 1 = cs.splitOn '\n' := by
    intro cs
    rw [splitOn_append_cons_self, splitOn_eq_singleton hline]
    rfl
  have hend : ∀ before middle behind : List Char,
      (before ++ (middle ++ '\n' :: behind)).getLast? = ('\n' :: behind).getLast? := by
    intro before middle behind
    rw [← append_assoc, getLast?_append_cons]
  unfold normalized at hlast
  split at hlast
  · next hnewline =>
    have hreplaced := @toList_replaceLines _ text _ _ _ _ hstart hstop hlast
    rw [hsplit, intercalate_cons_splitOn] at hreplaced
    rw [hlast, hend] at hnewline
    rw [normalized, hreplaced, if_pos ((hend _ _ _).trans hnewline)]
  · next hnewline =>
    -- the newline that was added is the last character behind the line
    rcases eq_nil_or_concat after with rfl | ⟨after, c, rfl⟩
    · have hsource : source.toList = last ++ line := by
        rw [← append_assoc] at hlast
        exact (append_inj' hlast rfl).1
      have hreplaced := @toList_replaceLines _ text _ _ _ _ hstart hstop hsource
      rw [splitOn_eq_singleton hline, drop_one, tail_cons,
        intercalate_singleton] at hreplaced
      obtain ⟨c, hc, hne⟩ := htext
      rw [normalized, hreplaced, if_neg, append_assoc]
      simp [getLast?_append, hc, hne]
    · have happend : last ++ (line ++ '\n' :: after.concat c) =
          last ++ (line ++ '\n' :: after) ++ [c] := by simp
      obtain ⟨hsource, hc⟩ := append_inj' (hlast.trans happend) rfl
      obtain rfl : '\n' = c := by simpa using hc
      have hreplaced := @toList_replaceLines _ text _ _ _ _ hstart hstop hsource
      rw [hsplit, intercalate_cons_splitOn] at hreplaced
      rw [hsource, hend] at hnewline
      rw [normalized, hreplaced, if_neg (fun h => hnewline ((hend _ _ _).symm.trans h))]
      simp

/-! ## Levels -/

/-- The tokens close so many levels more than they open. -/
def Closes (n : Nat) (tokens : List Token) : Prop :=
  tokens.count .dedent = tokens.count .indent + n

section Closes

variable {n k : Nat} {tokens others : List Token}

theorem Unbroken.closes (h : Unbroken tokens) : Closes 0 tokens := by
  have hindent : Token.indent ∉ tokens := fun hmem => absurd (h _ hmem) (by decide)
  have hdedent : Token.dedent ∉ tokens := fun hmem => absurd (h _ hmem) (by decide)
  rw [Closes, count_eq_zero.2 hindent, count_eq_zero.2 hdedent]

theorem Closes.append (h : Closes n tokens) (h' : Closes k others) :
    Closes (n + k) (tokens ++ others) := by
  simp only [Closes, count_append] at h h' ⊢
  omega

theorem Closes.indent (h : Closes (n + 1) tokens) : Closes n (.indent :: tokens) := by
  simp only [Closes, count_cons, beq_self_eq_true, if_true, beq_iff_eq, reduceCtorEq,
    if_false] at h ⊢
  omega

theorem closes_dedent : Closes 1 [.dedent] := rfl

theorem closes_flatMap {α : Type} {xs : List α} {f : α → List Token}
    (h : ∀ x ∈ xs, Closes 0 (f x)) : Closes 0 (xs.flatMap f) := by
  induction xs with
  | nil => rfl
  | cons x xs ih =>
    obtain ⟨hx, hxs⟩ := forall_mem_cons.1 h
    exact hx.append (ih hxs)

end Closes

namespace Grammar

theorem unbroken_type (ty : TypeExpr) : Unbroken ty.tokens := by
  induction ty using TypeExpr.induct with
  | named name => simp [TypeExpr.tokens, Token.isBreak]
  | generic name first others hfirst hothers =>
    rw [TypeExpr.tokens, typeArgTokens_eq]
    simp only [unbroken_cons, unbroken_append]
    refine ⟨rfl, rfl, hfirst, unbroken_flatMap fun ty hty => ?_, rfl, unbroken_nil⟩
    exact unbroken_cons.2 ⟨rfl, hothers ty hty⟩

theorem unbroken_path (path : List Segment) : Unbroken (pathTokens path) := by
  have hsegment : ∀ segment : Segment, segment.token.isBreak = false := by
    intro segment
    cases segment <;> rfl
  cases path with
  | nil => exact unbroken_nil
  | cons first others =>
    rw [pathTokens, unbroken_cons]
    refine ⟨hsegment first, unbroken_flatMap fun segment _ => ?_⟩
    exact unbroken_cons.2 ⟨rfl, unbroken_cons.2 ⟨hsegment segment, unbroken_nil⟩⟩

theorem unbroken_import (i : Import) : Unbroken i.tokens := by
  cases i with
  | top first others => exact unbroken_path (first :: others)
  | relative first others path =>
    refine unbroken_append.2 ⟨?_, unbroken_path path⟩
    intro token hmem
    obtain ⟨dots, -, rfl⟩ := mem_map.1 hmem
    cases dots <;> rfl

theorem unbroken_slot (slot : Slot) : Unbroken slot.tokens := by
  have hword : (if slot.mutable then Token.varWord else .valWord).isBreak = false := by
    cases slot.mutable <;> rfl
  refine unbroken_cons.2 ⟨hword, unbroken_append.2 ⟨unbroken_type slot.ty, ?_⟩⟩
  exact unbroken_cons.2 ⟨rfl, unbroken_nil⟩

theorem unbroken_param (param : Param) : Unbroken param.tokens := by
  simp [Param.tokens, unbroken_type, Token.isBreak]

theorem unbroken_head (method : Method) : Unbroken method.headTokens := by
  have hword : (if method.isStatic then Token.funWord else .defWord).isBreak = false := by
    cases method.isStatic <;> rfl
  have hname : method.name.token.isBreak = false := by
    cases method.name <;> rfl
  have hparams : Unbroken (paramTokens method.params) := by
    cases method.params with
    | nil => simp [paramTokens, Token.isBreak]
    | cons first others =>
      simp only [paramTokens, unbroken_append, unbroken_cons]
      refine ⟨unbroken_param first, unbroken_flatMap fun param _ => ?_, rfl, unbroken_nil⟩
      exact unbroken_cons.2 ⟨rfl, unbroken_param param⟩
  simp only [Method.headTokens, unbroken_cons, unbroken_append]
  exact ⟨hword, unbroken_type method.returnType, hname, rfl, hparams⟩

theorem closes_block (block : Block) : Closes 1 block.tokens := by
  have hnewline : Closes 0 [.newline] := rfl
  induction block with
  | last value => exact (unbroken_tokens.1 value).closes.append closes_dedent
  | line first rest ih =>
    have hall := (unbroken_tokens.1 first).closes.append (hnewline.append ih)
    simpa [Block.tokens] using hall
  | declaration pattern value rest ih =>
    have hequals : Closes 0 [.equals] := rfl
    have hall := (unbroken_pattern pattern).closes.append
      (hequals.append ((unbroken_tokens.1 value).closes.append (hnewline.append ih)))
    simpa [Block.tokens] using hall

/-- A method closes the levels that it opens. -/
theorem closes_method (method : Method) : Closes 0 method.tokens :=
  (unbroken_head method).closes.append (closes_block method.body).indent

/-- So does an indented list. -/
theorem closes_blockTokens {α : Type} {word : Token} (hword : word.isBreak = false)
    {line : α → List Token} (hline : ∀ x, Unbroken (line x)) (xs : List α) :
    Closes 0 (blockTokens word line xs) := by
  cases xs with
  | nil => rfl
  | cons first others =>
    have hnewline : ∀ x, Closes 0 (.newline :: line x) := by
      intro x
      have hall := @Closes.append 0 0 [.newline] _ rfl (hline x).closes
      simpa using hall
    have hlines : Closes 1 (line first ++ (others.flatMap (fun x => .newline :: line x) ++
        [.dedent])) :=
      (hline first).closes.append ((closes_flatMap fun x _ => hnewline x).append closes_dedent)
    have hopens : Closes 0 [word] := Unbroken.closes (by simp [hword])
    exact hopens.append hlines.indent

end Grammar

/-! ## The lexer around a body -/

namespace Lexer

variable {l l' : Lexer} {tokens : List Token} {n : Nat}

/-- Tokens that close the levels they open lead back to the same depth. -/
theorem Passes.depth_eq (h : l.Passes tokens l') {text done : List Char} (hlined : Lined text)
    (placed : l.Placed text done) (hcloses : Closes 0 tokens) :
    (∃ done', l'.Placed text done') ∧ l'.depth = l.depth := by
  obtain ⟨ts, hreads, rfl⟩ := h 0
  have hplaced : Reader.Placed text done ⟨l, .word 0⟩ := ⟨placed, fun _ h => Mode.noConfusion h⟩
  obtain ⟨done', placed'⟩ := hreads.placed hlined hplaced
  have hdepth := hreads.depth_eq hlined hplaced
  have hcount : dedents ts = indents ts := hcloses
  dsimp only at hdepth
  exact ⟨⟨done', placed'.lexer⟩, by omega⟩

/-- Before an indent the lexer is within a line. -/
theorem Gives.within_of_indent {lexed : Lexed} {text done : List Char} (h : l.Gives lexed l')
    (hlined : Lined text) (placed : l.Placed text done) (hindent : lexed.token = .indent) :
    l.Within text done := by
  cases h with
  | owed | close | eof => cases hindent
  | word hw | lineBreak => exact ⟨placed, rfl, rfl⟩
  | start hblank hcode h =>
    cases placed with
    | start =>
      obtain ⟨hdedent, -⟩ := h.owed_of_startsCode
        (placed_start hblank hcode _ (Nat.zero_add _)) hlined (fun _ => hcode)
        (by rw [hindent]; rfl)
      rw [hindent] at hdedent
      cases hdedent

theorem Within.onText_eq {text done : List Char} (h : l.Within text done) (hlined : Lined text)
    (rest : List Char) : l.onText rest = inLine rest l.pos l.indent := by
  obtain ⟨⟨rest', pos, torn⟩, indent, owed, started⟩ := l
  obtain rfl : torn = 0 := (h.placed.clean hlined).1
  obtain rfl : owed = 0 := h.owed
  obtain rfl : started = true := h.started
  rfl

/-- A line ends where its break begins. -/
theorem Within.exists_line {text done behind : List Char} (h : l.Within text done)
    (hrest : l.cursor.rest = gap ++ '\n' :: behind) (hgap : Gap gap) :
    ∃ line, text = done ++ (line ++ '\n' :: behind) ∧ '\n' ∉ line := by
  have hnewline : '\n' ∉ gap := by
    cases hgap with
    | none => exact not_mem_nil
    | comment h => simp [h]
  have hplaced := h.placed
  obtain ⟨cursor, indent, owed, started⟩ := l
  obtain rfl : started = true := h.started
  cases hplaced with
  | @line _ part rest pos _ _ htext hdone hpart hcode howed hpos =>
    obtain rfl : rest = gap ++ '\n' :: behind := hrest
    refine ⟨replicate indent '\t' ++ (part ++ gap), by rw [htext]; simp, ?_⟩
    simp [hpart, hnewline]

theorem lt_of_breakToken {tabs indent : Nat} (h : breakToken tabs indent = .dedent) :
    tabs < indent := by
  unfold breakToken at h
  split at h
  · cases h
  · split at h
    · assumption
    · cases h

/-- A line break leads to the code of the next line. -/
theorem passes_lineBreak {blank code : List Char} {tabs indent : Nat} (hgap : Gap gap)
    (hblank : BlankLines blank) (hcode : StartsCode code) (hdeeper : tabs ≤ indent + 1)
    (hhigher : indent ≤ tabs + 1) (pos : Nat) :
    ∃ pos', (inLine (gap ++ '\n' :: (blank ++ (replicate tabs '\t' ++ code))) pos indent).Passes
      [breakToken tabs indent] (inLine code pos' tabs) := by
  have hgives : (inLine (gap ++ '\n' :: (blank ++ (replicate tabs '\t' ++ code))) pos indent).Gives
      _ _ := .lineBreak hgap hblank hcode hdeeper
  have howed : indent - tabs - 1 = 0 := by omega
  rw [howed] at hgives
  have hplain : (breakToken tabs indent).isPlain = true := by
    unfold breakToken
    split
    · rfl
    · split <;> rfl
  exact ⟨_, Hands.passes ⟨_, nextToken_of_gives hgives⟩ hplain⟩

/-- Lines of a block are read as its tokens where a body stands, one level below the line before. -/
theorem passes_body {blank after behind : List Char} (hw : SpellsLines w tokens) (hgap : Gap gap)
    (hblank : BlankLines blank) (hafter : BlankLines after) (hbehind : StartsCode behind)
    (pos : Nat) :
    ∃ pos', (inLine (gap ++ '\n' :: (blank ++ '\t' :: (w ++ '\n' :: (after ++ behind)))) pos 0).Passes
      (.indent :: (tokens ++ [.dedent])) (inLine behind pos' 0) := by
  obtain ⟨pos₁, hindent⟩ := @passes_lineBreak gap blank _ 1 0 hgap hblank
    (hw.startsCode ('\n' :: (after ++ behind))) (by decide) (by decide) pos
  have hbody := hw.reads (after ++ behind) pos₁
  obtain ⟨pos₂, hdedent⟩ := @passes_lineBreak [] after behind 0 1 .none hafter hbehind (by decide)
    (by decide) (pos₁ + byteLength w)
  exact ⟨pos₂, hindent.append (hbody.append hdedent)⟩

end Lexer

theorem Reader.onText_ofText {source' : String} {cs : List Char}
    (h : normalized source' = cs) :
    Reader.onText ⟨.ofText source, .word 0⟩ cs = .ofText source' := by
  rw [← h]
  rfl

/-- Lines that are read as tokens do not end in a line break. -/
theorem Typed.SpellsLines.exists_last {tokens : List Token} (h : SpellsLines w tokens) :
    ∃ c, ('\t' :: w).getLast? = some c ∧ c ≠ '\n' := by
  -- the lexer that has read the lines stands behind code of the last one
  have hlined : Lined (('\t' :: w) ++ ['\n']) := Lined.behind (.inl rfl)
  have hplaced : (inLine (w ++ ['\n']) 1 1).Placed ('\t' :: (w ++ ['\n'])) [] :=
    @Placed.line _ [] [] _ _ 1 0 rfl (.inl rfl) not_mem_nil (h.startsCode _) (fun _ => rfl)
      rfl
  obtain ⟨ts, hreads, -⟩ := h.reads [] 1 0
  obtain ⟨done, hend⟩ := hreads.placed hlined ⟨hplaced, fun _ h => Mode.noConfusion h⟩
  have hend := hend.lexer
  generalize hlexer : inLine ['\n'] (1 + byteLength w) 1 = l at hend
  cases hend with
  | start => cases hlexer
  | @line _ part rest pos indent owed htext hdone hpart hcode howed hpos =>
    obtain rfl : ['\n'] = rest := congrArg (·.cursor.rest) hlexer
    rcases eq_nil_or_concat part with rfl | ⟨init, c, rfl⟩
    · exact absurd rfl (hcode.head_ne (by decide : '\n' ∈ gapChars))
    have happend : done ++ (replicate indent '\t' ++ (init.concat c ++ ['\n'])) =
        done ++ (replicate indent '\t' ++ init) ++ [c] ++ ['\n'] := by simp
    have hw := append_cancel_right (htext.trans happend)
    refine ⟨c, by rw [hw, getLast?_concat], ?_⟩
    rintro rfl
    simp at hpart

/-! ## A body within its module -/

namespace Tree

namespace Parse

/-- The methods before and behind one of them. -/
theorem Lists.exists_splits {text : List Char} {l : Lexer} {methods : List Method}
    (h : Lists text l methods) {m : Method} (hm : methods[i]? = some m) :
    ∃ (before after : List Grammar.Method) (l₀ l₁ l₂ l' : Lexer),
      l.Passes (before.flatMap Grammar.Method.tokens) l₀ ∧ Splits text l₀ m l₁ ∧
      l₁.Passes (after.flatMap Grammar.Method.tokens) l₂ ∧ l₂.Hands .eof l' ∧
      before.map tree = (methods.take i).map Method.erase ∧
      after.map tree = (methods.drop (i + 1)).map Method.erase := by
  induction h generalizing i with
  | nil => cases hm
  | @cons l l₁ first others hfirst rest ih =>
    cases i with
    | zero =>
      obtain rfl : first = m := by simpa using hm
      obtain ⟨ds, l₂, l', hds, heof, htrees⟩ := rest.sound
      exact ⟨[], ds, l, l₁, l₂, l', .nil, hfirst, hds, heof, rfl, htrees⟩
    | succ i =>
      rw [getElem?_cons_succ] at hm
      obtain ⟨before, after, l₂, l₃, l₄, l', hbefore, hm, hafter, heof, hbtrees, hatrees⟩ := ih hm
      obtain ⟨d, hd, htree⟩ := hfirst.sound
      refine ⟨d :: before, after, l₂, l₃, l₄, l', hd.append hbefore, hm, hafter, heof, ?_,
        hatrees⟩
      rw [map_cons, htree, hbtrees, take_succ_cons, map_cons]

/-- The lines on which the body of a method stands, one below the other, the text before them and the
text behind them. -/
theorem Splits.lines {text done₀ : List Char} (hlined : Lined text) {l₀ l' : Lexer} {m : Method}
    (h : Splits text l₀ m l') (placed : l₀.Placed text done₀) (hdepth : l₀.depth = 0) :
    ∃ done : List Char, m.body.Stacked text done ∧
      ∃ (d : Grammar.Method) (l : Lexer) (before gap blank code last line after behind : List Char),
      d.tree = m.erase ∧ l₀.Passes d.headTokens l ∧ l.Within text before ∧ l.indent = 0 ∧
      l.cursor.rest = gap ++ '\n' :: (blank ++ '\t' :: code) ∧ Gap gap ∧ BlankLines blank ∧
      text = done ++ '\t' :: code ∧ OnLine text done m.body.span.start ∧
      OnLine text last m.body.span.stop ∧ text = last ++ (line ++ '\n' :: (after ++ behind)) ∧
      '\n' ∉ line ∧ BlankLines after ∧ StartsCode behind ∧
      l' = .inLine behind l'.pos 0 := by
  obtain ⟨d, l, l₁, hhead, ⟨span, hindent⟩, hblock, -, htree⟩ := h
  obtain ⟨⟨before, hplaced⟩, hdepth'⟩ :=
    hhead.depth_eq hlined placed (Grammar.unbroken_head d).closes
  have hgives := (nextToken_eq_ok_iff (hplaced.clean hlined)).1 hindent
  have hl := hgives.within_of_indent hlined hplaced rfl
  have hlindent : l.indent = 0 := by
    rw [hdepth, depth] at hdepth'
    omega
  obtain ⟨done, gap, blank, tabs, code, hrest, hgap, hblank, -, htoken, htext, hl₁, -, -, hl₁indent,
    hl₁owed, hl₁started⟩ := hl.exists_break hlined hindent rfl
  -- the body is one level deeper than the method
  obtain rfl : tabs = 1 := by
    have hone := hgives.depth_eq
    simp only [depth, indents_cons, dedents_cons, indents_nil, dedents_nil, if_true,
      reduceCtorEq, if_false] at hone
    have howed := hgives.owed_eq_zero rfl
    have hzero := hl.owed
    omega
  have hwithin : l₁.Within text done := ⟨hl₁, by omega, hl₁started⟩
  obtain ⟨hstacked, m', last, hm', hm'indent, ⟨span', hdedent⟩, hstart, hstop, -⟩ :=
    hblock.lines hlined hwithin
  obtain ⟨done', gap', after, tabs', behind, hrest', hgap', hafter, hbehind, htoken', -, hl', -,
    hl'rest, hl'indent, hl'owed, hl'started⟩ := hm'.exists_break hlined hdedent rfl
  -- behind it the depth is that of the method again
  obtain rfl : tabs' = 0 := by
    have hhigher := lt_of_breakToken htoken'.symm
    omega
  obtain ⟨line, hline, hnewline⟩ := hm'.exists_line hrest' hgap'
  refine ⟨done, hstacked, d, l, before, gap, blank, code, last, line, after, behind, htree, hhead, hl,
    hlindent, hrest, hgap, hblank, htext, hstart, hstop, hline, hnewline, hafter, hbehind, ?_⟩
  have hbehindBody : l'.Within text done' := ⟨hl', by omega, hl'started⟩
  have heq := hbehindBody.onText_eq hlined l'.cursor.rest
  rw [hl'indent] at heq
  rw [← hl'rest]
  exact heq

end Parse

/-- What stands before a method of a module closes all that it opens. -/
theorem closes_before (imports : List Grammar.Import) (slots : List Grammar.Slot)
    (before : List Grammar.Method) :
    Closes 0 (Grammar.blockTokens .importWord Grammar.Import.tokens imports ++
      Grammar.blockTokens .slotsWord Grammar.Slot.tokens slots ++
      before.flatMap Grammar.Method.tokens) := by
  have hmethods : Closes 0 (before.flatMap Grammar.Method.tokens) :=
    closes_flatMap fun method _ => Grammar.closes_method method
  exact ((Grammar.closes_blockTokens rfl Grammar.unbroken_import imports).append
    (Grammar.closes_blockTokens rfl Grammar.unbroken_slot slots)).append hmethods

/-- The statements of a body of a module stand on lines of their own, one below the other. -/
theorem stacked_of_parse {source name : String} {tree : Module} (h : parse source name = .ok tree)
    {m : Method} (hm : m ∈ tree.classDecl.methods) :
    ∃ done, m.body.Stacked (normalized source) done := by
  have hlined := lined_normalized source
  obtain ⟨i, hi⟩ := mem_iff_getElem?.1 hm
  obtain ⟨imports, slots, l, hfront, hmethods, -⟩ := parse_front h
  obtain ⟨before, after, l₀, l₁, l₂, l', hbefore, hsplits, -⟩ := hmethods.exists_splits hi
  obtain ⟨⟨done₀, hplaced⟩, hdepth⟩ := (hfront.append hbefore).depth_eq hlined
    (placed_ofText source) (closes_before imports slots before)
  obtain ⟨done, hstacked, -⟩ := hsplits.lines hlined hplaced hdepth
  exact ⟨done, hstacked⟩

/-- The trees of methods of which one has got another body. -/
theorem trees_of_body {methods : List Method} {m : Method} (hm : methods[i]? = some m)
    {before after : List Grammar.Method} {d₀ : Grammar.Method} (htree : d₀.tree = m.erase)
    (hbefore : before.map tree = (methods.take i).map Method.erase)
    (hafter : after.map tree = (methods.drop (i + 1)).map Method.erase) (d : Grammar.Block) :
    (before ++ { d₀ with body := d } :: after).map tree =
      (methods.map Method.erase).set i { m.erase with body := d.tree } := by
  have hi : i < methods.length := (List.getElem?_eq_some_iff.1 hm).1
  have hd : tree { d₀ with body := d } = { m.erase with body := d.tree } := by
    rw [← htree]
    rfl
  rw [map_append, map_cons, hbefore, hafter, hd, set_eq_take_append_cons_drop,
    length_map, if_pos hi, map_take, map_drop]

/-- With the lines of a block in the place of a body, a module is accepted with the tree of that block
in the place of the body's tree. -/
theorem parse_replaceLines {source name text : String} {tree : Module}
    (h : parse source name = .ok tree) {m : Method} (hm : tree.classDecl.methods[i]? = some m)
    {d : Grammar.Block} {tokens : List Token} (htokens : d.tokens = tokens ++ [.dedent])
    (hw : SpellsLines w tokens) (htext : text.toList = '\t' :: w) :
    ∃ tree', parse (replaceLines source m.body.span text) name = .ok tree' ∧
      tree'.erase = ⟨.nowhere, tree.imports.map Import.erase, .nowhere, name, .nowhere,
        tree.classDecl.slots.map Slot.erase,
        (tree.classDecl.methods.map Method.erase).set i { m.erase with body := d.tree }⟩ := by
  have hlined := lined_normalized source
  obtain ⟨imports, slots, l, hfront, hmethods, -, himports, hslots⟩ := parse_front h
  obtain ⟨before, after, l₀, l₁, l₂, l', hbefore, hsplits, hafter, ⟨span, heof⟩, hbtrees, hatrees⟩ :=
    hmethods.exists_splits hm
  obtain ⟨⟨done₀, hplaced⟩, hdepth⟩ := (hfront.append hbefore).depth_eq hlined
    (placed_ofText source) (closes_before imports slots before)
  obtain ⟨done, -, d₀, l₃, done₃, gap, blank, code, last, line, blank', behind, htree, hhead, hl₃,
    hindent, hrest, hgap, hblank, hcode, hstart, hstop, hline, hnewline, hblank', hbehind, hl₁⟩ :=
    hsplits.lines hlined hplaced hdepth
  have hnormal := @normalized_replaceLines _ text _ _ _ _ _ hstart hstop hline hnewline
    (htext ▸ hw.exists_last)
  -- up to the body the new text is read as the old one
  have hbehindLined : Lined (['\n'] ++ (blank' ++ behind)) := by
    rw [hline] at hlined
    exact hlined.of_append.of_append
  have hlines : Lined (blank ++ '\t' :: w ++ '\n' :: (blank' ++ behind)) :=
    hbehindLined.of_append.behind
  obtain ⟨u, hu, hreplace⟩ := (((hfront.append hbefore).append hhead) 0).replace
    (clean_ofText source) hrest
  have hdone : done = u ++ '\n' :: blank := by
    have hsame : u ++ '\n' :: (blank ++ '\t' :: code) = (u ++ '\n' :: blank) ++ '\t' :: code := by simp
    exact append_cancel_right (hcode.symm.trans (hu.trans hsame))
  have hprefix := hreplace _ hlines
  -- the body is read as the new block
  obtain ⟨pos, hbody⟩ := passes_body hw hgap hblank hblank' hbehind l₃.pos
  -- what stands behind it is read as before, at other offsets
  have hclean : l₁.Clean := by
    rw [hl₁]
    exact ⟨rfl, hbehindLined.of_append.of_append⟩
  obtain ⟨pos', hothers⟩ := (hafter 0).moved hclean pos
  have hends : Reader.Ends ⟨l₂, .word 0⟩ := ⟨0, _, l', rfl, heof, rfl⟩
  have hends' := hends.moved ((hafter 0).clean hclean) pos'
  have hmoved : l₁.movedTo pos = .inLine behind pos 0 := by rw [hl₁]; rfl
  have hall : (Reader.ofText (replaceLines source m.body.span text)).Takes
      (Grammar.Module.bodyTokens ⟨imports, slots, before ++ { d₀ with body := d } :: after⟩)
      (Reader.movedTo ⟨l₂, .word 0⟩ pos') := by
    have hstartText : Reader.onText ⟨.ofText source, .word 0⟩
        (u ++ '\n' :: (blank ++ '\t' :: w ++ '\n' :: (blank' ++ behind))) =
          Reader.ofText (replaceLines source m.body.span text) := by
      apply Reader.onText_ofText
      rw [hnormal, hdone, htext]
      simp
    have hbodyText : Reader.onText ⟨l₃, .word 0⟩
        (gap ++ '\n' :: (blank ++ '\t' :: w ++ '\n' :: (blank' ++ behind))) =
          ⟨.inLine (gap ++ '\n' :: (blank ++ '\t' :: (w ++ '\n' :: (blank' ++ behind)))) l₃.pos 0,
            .word 0⟩ := by
      rw [Reader.onText, hl₃.onText_eq hlined, hindent]
      simp
    rw [hstartText, hbodyText] at hprefix
    rw [Reader.movedTo, hmoved] at hothers
    have htakes := hprefix.append ((hbody 0).append hothers)
    have hmethod : Grammar.Method.tokens { d₀ with body := d } =
        d₀.headTokens ++ .indent :: (tokens ++ [.dedent]) := by
      rw [← htokens]
      rfl
    simpa [Grammar.Module.bodyTokens, hmethod] using htakes
  obtain ⟨tree', hparse, herase⟩ := parse_complete name _ hall hends'
  refine ⟨tree', hparse, ?_⟩
  rw [herase, Grammar.Module.tree, himports, hslots, trees_of_body hm htree hbtrees hatrees]

end Tree

end ClassLang
