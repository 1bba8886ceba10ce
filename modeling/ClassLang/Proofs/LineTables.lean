import ClassLang.Proofs.PrintedBodies

/-!
# Line tables are exact

The code of a body is a row of sections, one for each statement of its block: a mark for the line on
which the statement stands, and the instructions of the statement (`emit_sections`). The statements
stand on lines of their own, one below the other (`Tree.Expr.Stacked`), and so no mark replaces
another one and none is left out: the table of the code has one entry for each section
(`lineTable_sectionPieces`). The main statement is `exactLines_of_parse`.
-/

set_option autoImplicit false

namespace ClassLang

open List Typed LineIndex

/-! ## Lines of a source -/

/-- The offset stands on this line of the source. The first line has the number one. -/
def OffsetOn (source : String) (line pos : Nat) : Prop :=
  ∃ before rest, source.toList = before ++ rest ∧ byteLength before = pos ∧
    before.count '\n' + 1 = line

/-- Both ends of the place stand on this line of the source. -/
def Span.StandsOn (source : String) (line : Nat) (span : Span) : Prop :=
  OffsetOn source line span.start ∧ OffsetOn source line span.stop

section Lines

variable {source : String} {done done' : List Char} {a b : Nat}

theorem OnLine.offsetOn (h : OnLine (Lexer.normalized source) done a) :
    OffsetOn source ((ofText source).line a) a := by
  have hline := h.line_eq
  obtain ⟨-, part, rest, htext, hrest, hpart, rfl⟩ := h
  rw [← append_assoc] at htext
  obtain ⟨rest', hsource, -⟩ := exists_source_rest htext hrest
  refine ⟨done ++ part, rest', hsource, byteLength_append _ _, ?_⟩
  rw [hline, count_append, count_eq_zero.2 hpart, Nat.add_zero]

/-- All that stands on one line has its number. -/
theorem OnLine.offsetOn_same (ha : OnLine (Lexer.normalized source) done a)
    (hb : OnLine (Lexer.normalized source) done b) :
    OffsetOn source ((ofText source).line b) a := by
  rw [hb.line_eq, ← ha.line_eq]
  exact ha.offsetOn

theorem Span.OnLine.standsOn {span : Span} (h : span.OnLine (Lexer.normalized source) done)
    (ha : ClassLang.OnLine (Lexer.normalized source) done a) :
    span.StandsOn source ((ofText source).line a) :=
  ⟨h.1.offsetOn_same ha, h.2.offsetOn_same ha⟩

/-- Of two lines of a text the later one has the greater number. -/
theorem OnLine.line_lt (ha : OnLine (Lexer.normalized source) done a)
    (hb : OnLine (Lexer.normalized source) done' b) (later : done.length < done'.length) :
    (ofText source).line a < (ofText source).line b := by
  rw [ha.line_eq, hb.line_eq]
  obtain ⟨-, part, rest, htext, -⟩ := ha
  obtain ⟨hlined, part', rest', htext', -⟩ := hb
  -- the text between the two ends a line
  have hprefix : done <+: Lexer.normalized source := ⟨_, htext.symm⟩
  have hprefix' : done' <+: Lexer.normalized source := ⟨_, htext'.symm⟩
  obtain ⟨between, rfl⟩ := prefix_of_prefix_length_le hprefix hprefix' later.le
  have hsome : between ≠ [] := by
    rintro rfl
    simp at later
  have hnewline : '\n' ∈ between :=
    mem_of_getLast? (hlined.of_append.resolve_left hsome)
  rw [count_append]
  have hcount := count_pos_iff.2 hnewline
  omega

end Lines

/-! ## Statements of a block -/

namespace Tree

/-- The places of the statements of a block, in their order. -/
def Expr.statementSpans : Expr → List Span
  | .letIn _ pattern value rest => pattern.span.cover value.span :: rest.statementSpans
  | .seq _ first rest => first.span :: rest.statementSpans
  | e => [e.span]

/-- The places of a block and of what is left of it behind each of its statements. -/
def Expr.restSpans : Expr → List Span
  | .letIn span _ _ rest => span :: rest.restSpans
  | .seq span _ rest => span :: rest.restSpans
  | e => [e.span]

theorem Expr.statementSpans_of_isLine {e : Expr} (h : e.isLine = true) :
    e.statementSpans = [e.span] ∧ e.restSpans = [e.span] := by
  cases e with
  | letIn _ _ _ _ => cases h
  | seq _ _ _ => cases h
  | _ => exact ⟨rfl, rfl⟩

/-- Every place begins on the line behind `done` or on a later one. -/
def Below (source : String) (done : List Char) (spans : List Span) : Prop :=
  ∀ span ∈ spans, ∃ last, OnLine (Lexer.normalized source) last span.start ∧
    done.length ≤ last.length

section Below

variable {source : String} {done done' : List Char} {span : Span} {spans : List Span}

theorem Below.cons (begins : OnLine (Lexer.normalized source) done span.start)
    (later : done.length < done'.length) (others : Below source done' spans) :
    Below source done (span :: spans) := by
  refine forall_mem_cons.2 ⟨⟨done, begins, le_rfl⟩, ?_⟩
  intro other hother
  obtain ⟨last, hlast, hle⟩ := others other hother
  exact ⟨last, hlast, later.le.trans hle⟩

theorem Below.line_lt (others : Below source done' spans)
    (begins : OnLine (Lexer.normalized source) done span.start)
    (later : done.length < done'.length) :
    ∀ line ∈ spans.map fun other => (ofText source).line other.start,
      (ofText source).line span.start < line := by
  intro line hline
  obtain ⟨other, hother, rfl⟩ := mem_map.1 hline
  obtain ⟨last, hlast, hle⟩ := others other hother
  exact begins.line_lt hlast (later.trans_le hle)

end Below

/-- A statement stands on the line of what is left of the block from it on, and each line is later
than those before it. The induction is on the lines of the block. -/
theorem Expr.Stacked.lines {source : String} {done : List Char} {e : Expr}
    (h : e.Stacked (Lexer.normalized source) done) :
    Forall₂ (fun span rest => span.StandsOn source ((ofText source).line rest.start))
        e.statementSpans e.restSpans ∧
      (e.restSpans.map fun rest => (ofText source).line rest.start).Pairwise (· < ·) ∧
      Below source done e.restSpans := by
  induction h with
  | @last done e line place =>
    obtain ⟨hspans, hrests⟩ := statementSpans_of_isLine line
    rw [hspans, hrests]
    refine ⟨.cons (place.standsOn place.1) .nil, by simp, ?_⟩
    intro rest hrest
    rw [mem_singleton.1 hrest]
    exact ⟨done, place.1, le_rfl⟩
  | letIn begins bound_place place later _ ih =>
    obtain ⟨hstands, hsorted, hbelow⟩ := ih
    exact ⟨.cons ((bound_place.cover place).standsOn begins) hstands,
      .cons (hbelow.line_lt begins later) hsorted, .cons begins later hbelow⟩
  | seq begins place later _ ih =>
    obtain ⟨hstands, hsorted, hbelow⟩ := ih
    exact ⟨.cons (place.standsOn begins) hstands, .cons (hbelow.line_lt begins later) hsorted,
      .cons begins later hbelow⟩

end Tree

/-! ## Checked statements -/

namespace Typed

/-- A statement of a body: a line of its block. -/
inductive Statement where
  /-- Binds a pattern to the value. -/
  | declare (pattern : Pattern) (value : Expr)
  /-- Computes a value that is not used. -/
  | discard (e : Expr)
  /-- Gives the value of the body. -/
  | result (e : Expr)

def Pattern.span : Pattern → Span
  | .single span _ _ _ => span
  | .ignore span => span

def Statement.span : Statement → Span
  | .declare pattern value => pattern.span.cover value.span
  | .discard e => e.span
  | .result e => e.span

namespace Expr

/-- The statements of a body, in their order. -/
def statements : Expr → List Statement
  | .letIn _ pattern value body => .declare pattern value :: body.statements
  | .seq _ first body => .discard first :: body.statements
  | e => [.result e]

/-- The places of a body and of what is left of it behind each of its statements. -/
def restSpans : Expr → List Span
  | .letIn span _ _ body => span :: body.restSpans
  | .seq span _ body => span :: body.restSpans
  | e => [e.span]

/-- No part of the expression is a block of several lines. -/
inductive Flat : Expr → Prop where
  | localVar {span : Span} {ty : Ty} {id : Nat} {name : String} : Flat (.localVar span ty id name)
  | param {span : Span} {ty : Ty} {index : Nat} {name : String} : Flat (.param span ty index name)
  | receiver {span : Span} {ty : Ty} : Flat (.receiver span ty)
  | slot {span : Span} {ty : Ty} {ref : SlotRef} {target : Expr} (htarget : Flat target) :
      Flat (.slot span ty ref target)
  | methodCall {span : Span} {ty : Ty} {callee : Callee} {target : Expr} {args : List Expr}
      (htarget : Flat target) (hargs : ∀ arg ∈ args, Flat arg) :
      Flat (.methodCall span ty callee target args)
  | staticCall {span : Span} {ty : Ty} {callee : Callee} {args : List Expr}
      (hargs : ∀ arg ∈ args, Flat arg) : Flat (.staticCall span ty callee args)
  | literal {span : Span} {value : Literal} : Flat (.literal span value)
  | quote {span : Span} {head : String} {holes : List (Expr × String)}
      (hholes : ∀ hole ∈ holes, Flat hole.1) : Flat (.quote span head holes)

/-- A block of lines. -/
inductive Rows : Expr → Prop where
  | last {e : Expr} (line : e.Flat) : Rows e
  | letIn {span : Span} {pattern : Pattern} {value body : Expr} (line : value.Flat)
      (others : Rows body) : Rows (.letIn span pattern value body)
  | seq {span : Span} {first body : Expr} (line : first.Flat) (others : Rows body) :
      Rows (.seq span first body)

theorem statements_ne_nil (e : Expr) : e.statements ≠ [] := by
  cases e <;> exact cons_ne_nil _ _

theorem Flat.statements_eq {e : Expr} (h : e.Flat) :
    e.statements = [.result e] ∧ e.restSpans = [e.span] := by
  cases h <;> exact ⟨rfl, rfl⟩

end Expr

section Rows

variable {ctx : BodyContext} {scope : Scope} {tree : Tree.Expr} {n k : Nat} {e : Expr}

/-- **Lines.** The typed tree of a line has no block in it. -/
theorem Elaborates.flat (h : Elaborates ctx scope tree n e k) (line : tree.Line) : e.Flat := by
  induction h with
  | ignore _ _ _ _ => cases line
  | declare _ _ _ _ _ => cases line
  | seq _ _ _ _ => cases line
  | param _ _ => exact .param
  | localVar _ _ => exact .localVar
  | ownSlot _ _ _ => exact .slot .receiver
  | ownStatic form _ _ _ _ count _ ih =>
    exact .staticCall (forall_of_lines count (lines_of_bareCall (.last line) form).2 ih)
  | ownInstance form _ _ _ _ _ count _ ih =>
    exact .methodCall .receiver
      (forall_of_lines count (lines_of_bareCall (.last line) form).2 ih)
  | classCall form _ _ count _ ih =>
    exact .staticCall (forall_of_lines count (lines_of_classCall (.last line) form).2 ih)
  | memberCall form _ _ _ count _ ihTarget ih =>
    obtain ⟨-, receiver_line, lines⟩ := lines_of_memberCall (.last line) form
    exact .methodCall (ihTarget receiver_line) (forall_of_lines count lines ih)
  | slot _ _ ih =>
    cases line with
    | property target_line _ => exact .slot (ih target_line)
  | literal => exact .literal
  | @quote _ _ _ trees holes _ _ texts _ ih =>
    have count : holes.length = trees.length := by
      simpa using congrArg length texts
    cases line with
    | quote _ _ lines _ => exact .quote (forall_of_lines count lines ih)

/-- **Blocks.** The statements of a body stand where those of its tree stand. -/
theorem Elaborates.rows (h : Elaborates ctx scope tree n e k) (hblock : tree.Block) :
    e.Rows ∧ e.statements.map Statement.span = tree.statementSpans ∧ e.restSpans = tree.restSpans := by
  induction hblock generalizing scope n k e with
  | @last tree line =>
    have hflat := h.flat line
    obtain ⟨hstatements, hrests⟩ := hflat.statements_eq
    have hline : tree.isLine = true := by cases line <;> rfl
    obtain ⟨hspans, hrests'⟩ := Tree.Expr.statementSpans_of_isLine hline
    rw [hstatements, hrests, hspans, hrests', ← h.span_eq]
    exact ⟨.last hflat, rfl, rfl⟩
  | seq line _ ih =>
    cases h with
    | seq hfirst hbody =>
      obtain ⟨hrows, hspans, hrests⟩ := ih hbody
      exact ⟨.seq (hfirst.flat line) hrows, congrArg₂ cons hfirst.span_eq hspans,
        congrArg (cons _) hrests⟩
    -- a block is no call
    | ownStatic form | ownInstance form | classCall form | memberCall form => cases form
  | letIn _ line _ ih =>
    cases h with
    | ignore hvalue hbody =>
      obtain ⟨hrows, hspans, hrests⟩ := ih hbody
      exact ⟨.letIn (hvalue.flat line) hrows,
        congrArg₂ cons (congrArg (Span.cover _) hvalue.span_eq) hspans,
        congrArg (cons _) hrests⟩
    | declare _ hvalue hbody =>
      obtain ⟨hrows, hspans, hrests⟩ := ih hbody
      exact ⟨.letIn (hvalue.flat line) hrows,
        congrArg₂ cons (congrArg (Span.cover _) hvalue.span_eq) hspans,
        congrArg (cons _) hrests⟩
    -- a block is no call
    | ownStatic form | ownInstance form | classCall form | memberCall form => cases form

end Rows

end Typed

/-! ## Sections of code -/

namespace Code

open Typed (Statement ClassTable Method pointText pointTable pointClass)

/-- The code of one statement, with the line of the mark before it. -/
structure Section where
  line : Nat
  code : List Instr

/-- The pieces of sections, one behind the other. -/
def sectionPieces (sections : List Section) : List Piece :=
  sections.flatMap fun s => .mark s.line :: s.code.map .op

/-- The entries for sections from instruction `start` on: one for each of them. -/
def sectionTable (start : Nat) : List Section → List LineEntry
  | [] => []
  | s :: rest => ⟨start, s.line⟩ :: sectionTable (start + s.code.length) rest

theorem sectionPieces_cons (s : Section) (rest : List Section) :
    sectionPieces (s :: rest) = .mark s.line :: (s.code.map .op ++ sectionPieces rest) := rfl

theorem instrsOf_ops (code : List Instr) : instrsOf (code.map .op) = code := by
  induction code with
  | nil => rfl
  | cons instr code ih => rw [map_cons, instrsOf_op, ih]

theorem instrsOf_sectionPieces (sections : List Section) :
    instrsOf (sectionPieces sections) = (sections.map Section.code).flatten := by
  induction sections with
  | nil => rfl
  | cons s rest ih =>
    rw [sectionPieces_cons, instrsOf_mark, instrsOf_append, instrsOf_ops, ih, map_cons,
      flatten_cons]

theorem entriesFrom_ops (code : List Instr) (start : Nat) (known : List LineEntry)
    (rest : List Piece) :
    entriesFrom start known (code.map .op ++ rest) = entriesFrom (start + code.length) known rest := by
  induction code generalizing start with
  | nil => rfl
  | cons instr code ih =>
    rw [map_cons, cons_append, entriesFrom, ih, length_cons]
    congr 1
    omega

variable {start : Nat} {body : Expr} {code : MethodCode} {op : Nat}

/-- A mark behind the last one and for a later line is added. -/
theorem addMark_later {line : Nat} {known : List LineEntry}
    (h : ∀ last ∈ known.head?, last.start < start ∧ last.line < line) :
    addMark start line known = ⟨start, line⟩ :: known := by
  cases known with
  | nil => rfl
  | cons last before =>
    obtain ⟨hstart, hline⟩ := h last rfl
    rw [addMark, if_neg hstart.ne, if_neg hline.ne]

section Sections

variable {sections : List Section}

/-- **One mark after the other.** The last entry that is known is for an instruction before `start`
and for a line before all those that follow. -/
theorem entriesFrom_sectionPieces (filled : ∀ s ∈ sections, s.code ≠ [])
    (sorted : (sections.map Section.line).Pairwise (· < ·)) {known : List LineEntry}
    (before : ∀ last ∈ known.head?, last.start < start ∧ ∀ s ∈ sections, last.line < s.line) :
    entriesFrom start known (sectionPieces sections) =
      (sectionTable start sections).reverse ++ known := by
  induction sections generalizing start known with
  | nil => rfl
  | cons s rest ih =>
    rw [forall_mem_cons] at filled
    rw [map_cons, pairwise_cons] at sorted
    have hadd : addMark start s.line known = ⟨start, s.line⟩ :: known := by
      refine addMark_later fun last hlast => ?_
      exact ⟨(before last hlast).1, (before last hlast).2 s mem_cons_self⟩
    -- the section is not empty, so that the next mark does not replace this one
    have hnext : ∀ last ∈ (LineEntry.mk start s.line :: known).head?,
        last.start < start + s.code.length ∧ ∀ s' ∈ rest, last.line < s'.line := by
      rintro last ⟨⟩
      refine ⟨Nat.lt_add_of_pos_right (length_pos_iff.2 filled.1), ?_⟩
      exact fun s' hs' => sorted.1 _ (mem_map_of_mem hs')
    rw [sectionPieces_cons, entriesFrom, hadd, entriesFrom_ops, ih filled.2 sorted.2 hnext,
      sectionTable, reverse_cons, append_assoc, singleton_append]

/-- The table of the code has one entry for each section. -/
theorem lineTable_sectionPieces (filled : ∀ s ∈ sections, s.code ≠ [])
    (sorted : (sections.map Section.line).Pairwise (· < ·)) :
    lineTable (sectionPieces sections) = sectionTable 0 sections := by
  rw [lineTable, entriesFrom_sectionPieces filled sorted (by simp), append_nil,
    reverse_reverse]

theorem mem_sectionTable {entry : LineEntry} (h : entry ∈ sectionTable start sections) :
    start ≤ entry.start ∧ entry.line ∈ sections.map Section.line := by
  induction sections generalizing start with
  | nil => cases h
  | cons s rest ih =>
    rw [map_cons]
    rcases mem_cons.1 h with rfl | h
    · exact ⟨le_rfl, mem_cons_self⟩
    · obtain ⟨hstart, hline⟩ := ih h
      exact ⟨Nat.le_of_add_right_le hstart, mem_cons_of_mem _ hline⟩

theorem pairwise_sectionTable (filled : ∀ s ∈ sections, s.code ≠ [])
    (sorted : (sections.map Section.line).Pairwise (· < ·)) (start : Nat) :
    (sectionTable start sections).Pairwise fun a b => a.start < b.start ∧ a.line < b.line := by
  induction sections generalizing start with
  | nil => exact .nil
  | cons s rest ih =>
    rw [forall_mem_cons] at filled
    rw [map_cons, pairwise_cons] at sorted
    refine .cons ?_ (ih filled.2 sorted.2 _)
    intro entry hentry
    obtain ⟨hstart, hline⟩ := mem_sectionTable hentry
    have hpos := length_pos_iff.2 filled.1
    exact ⟨Nat.lt_of_lt_of_le (Nat.lt_add_of_pos_right hpos) hstart, sorted.1 _ hline⟩

theorem lineAt_cons {entry next : LineEntry} {table : List LineEntry} (hentry : entry.start ≤ op)
    (hnext : next.start ≤ op) : lineAt (entry :: next :: table) op = lineAt (next :: table) op := by
  simp [lineAt, hentry, hnext, getLast?_cons_cons]

/-- The line of an instruction is that of the section in which it stands. The induction is on the
sections before that one. -/
theorem lineAt_sectionTable {before after : List Section} {s : Section}
    (hstart : start + (before.map Section.code).flatten.length ≤ op)
    (hstop : op < start + (before.map Section.code).flatten.length + s.code.length) :
    lineAt (sectionTable start (before ++ s :: after)) op = s.line := by
  induction before generalizing start with
  | nil =>
    have hfirst : start ≤ op := hstart
    have hbehind : (sectionTable (start + s.code.length) after).takeWhile (·.start ≤ op) = [] := by
      cases after with
      | nil => rfl
      | cons next others =>
        have hlater : ¬ start + s.code.length ≤ op := Nat.not_le.2 hstop
        rw [sectionTable, takeWhile_cons_of_neg (by simpa using hlater)]
    rw [nil_append, sectionTable, lineAt, takeWhile_cons_of_pos (by simpa using hfirst),
      hbehind]
    rfl
  | cons first before ih =>
    rw [map_cons, flatten_cons, length_append, ← Nat.add_assoc] at hstart hstop
    have hrest := ih hstart hstop
    rw [cons_append, sectionTable, ← hrest]
    -- there is another section behind this one, and it begins at the instruction or before it
    have hnext : start + first.code.length ≤ op := by omega
    have hfirst : start ≤ op := by omega
    cases before with
    | nil | cons second before => exact lineAt_cons hfirst hnext

/-- Every instruction stands in one of the sections. -/
theorem exists_part {parts : List (List Instr)} (h : op < parts.flatten.length) :
    ∃ before part after, parts = before ++ part :: after ∧ before.flatten.length ≤ op ∧
      op < before.flatten.length + part.length := by
  induction parts generalizing op with
  | nil => cases h
  | cons part parts ih =>
    by_cases hpart : op < part.length
    · exact ⟨[], part, parts, rfl, Nat.zero_le _, by simpa using hpart⟩
    rw [flatten_cons, length_append] at h
    have hrest : op - part.length < parts.flatten.length := by omega
    obtain ⟨before, found, after, rfl, hstart, hstop⟩ := ih hrest
    refine ⟨part :: before, found, after, rfl, ?_, ?_⟩
    · rw [flatten_cons, length_append]
      omega
    · rw [flatten_cons, length_append]
      omega

end Sections

/-! ## The code of statements -/

/-- The code of a statement: its value is stored, dropped or given back. -/
def statementCode (ctx : CodeContext) : Statement → Except CompileError (List Instr)
  | .declare (.single _ _ id _) value => do
    return instrsOf (← emit ctx value) ++ [.localSet (ctx.localBase + id)]
  | .declare (.ignore _) value => do return instrsOf (← emit ctx value) ++ [.drop]
  | .discard e => do return instrsOf (← emit ctx e) ++ [.drop]
  | .result e => do return instrsOf (← emit ctx e) ++ [.ret, .finish]

theorem statementCode_ne_nil {ctx : CodeContext} {s : Statement} {code : List Instr}
    (h : statementCode ctx s = .ok code) : code ≠ [] := by
  have ends : ∀ (e : Expr) {last : List Instr}, last ≠ [] →
      (do return instrsOf (← emit ctx e) ++ last : Except CompileError (List Instr)) = .ok code →
      code ≠ [] := by
    intro e last hlast h
    obtain ⟨pieces, -, h⟩ := Except.bind_eq_ok.1 h
    cases h
    exact append_ne_nil_of_right_ne_nil _ hlast
  cases s with
  | declare pattern value =>
    cases pattern with
    | single _ _ _ _ | ignore _ => exact ends value (cons_ne_nil _ _) h
  | discard e | result e => exact ends e (cons_ne_nil _ _) h

section Emitted

variable {ctx : CodeContext} {e : Expr} {pieces others : List Piece}

/-- There is no mark among the pieces. -/
def Unmarked (pieces : List Piece) : Prop := pieces = (instrsOf pieces).map .op

theorem unmarked_ops (code : List Instr) : Unmarked (code.map .op) := by
  rw [Unmarked, instrsOf_ops]

theorem unmarked_textCode (ctx : CodeContext) (text : String) : Unmarked (ctx.textCode text) :=
  unmarked_ops [_, _, _]

theorem Unmarked.append (h : Unmarked pieces) (h' : Unmarked others) : Unmarked (pieces ++ others) := by
  rw [Unmarked, instrsOf_append, map_append, ← h, ← h']

theorem emitList_unmarked {es : List Expr}
    (each : ∀ e ∈ es, ∀ {pieces : List Piece}, emit ctx e = .ok pieces → Unmarked pieces)
    (h : emitList ctx es = .ok pieces) : Unmarked pieces := by
  induction es generalizing pieces with
  | nil =>
    cases h
    exact unmarked_ops []
  | cons e es ih =>
    rw [forall_mem_cons] at each
    simp only [emitList, Except.bind_eq_ok, Except.pure_eq_ok] at h
    obtain ⟨first, hfirst, rest, hrest, rfl⟩ := h
    exact (each.1 hfirst).append (ih each.2 hrest)

theorem emitHoles_unmarked {holes : List (Expr × String)}
    (each : ∀ hole ∈ holes, ∀ {pieces : List Piece}, emit ctx hole.1 = .ok pieces → Unmarked pieces)
    (h : emitHoles ctx holes = .ok pieces) : Unmarked pieces := by
  induction holes generalizing pieces with
  | nil =>
    cases h
    exact unmarked_ops []
  | cons hole holes ih =>
    obtain ⟨e, text⟩ := hole
    rw [forall_mem_cons] at each
    simp only [emitHoles, Except.bind_eq_ok, Except.pure_eq_ok] at h
    obtain ⟨code, hcode, concat, -, rest, hrest, rfl⟩ := h
    have hjoined : Unmarked
        (if text.isEmpty then [] else ctx.textCode text ++ [.op concat]) := by
      split
      · exact unmarked_ops []
      · exact (unmarked_textCode ctx text).append (unmarked_ops [concat])
    exact (((each.1 hcode).append (unmarked_ops [concat])).append hjoined).append
      (ih each.2 hrest)

/-- There are no marks within a line. -/
theorem emit_unmarked (flat : e.Flat) (h : emit ctx e = .ok pieces) : Unmarked pieces := by
  induction flat generalizing pieces with
  | localVar | param | receiver =>
    cases h
    exact unmarked_ops [_]
  | slot _ ih =>
    rw [emit, Except.bind_eq_ok] at h
    obtain ⟨target, htarget, h⟩ := h
    cases h
    exact (ih htarget).append (unmarked_ops [_])
  | methodCall _ _ ihTarget ihArgs =>
    simp only [emit, Except.bind_eq_ok, Except.pure_eq_ok] at h
    obtain ⟨target, htarget, args, hargs, call, -, rfl⟩ := h
    exact ((ihTarget htarget).append (emitList_unmarked ihArgs hargs)).append (unmarked_ops [call])
  | staticCall _ ihArgs =>
    simp only [emit, Except.bind_eq_ok, Except.pure_eq_ok] at h
    obtain ⟨args, hargs, call, -, rfl⟩ := h
    exact (emitList_unmarked ihArgs hargs).append (unmarked_ops [call])
  | @literal _ value =>
    cases value with
    | int value | float value =>
      cases h
      exact unmarked_ops [_]
    | str text =>
      cases h
      exact unmarked_textCode ctx text
  | quote _ ih =>
    rw [emit, Except.bind_eq_ok] at h
    obtain ⟨holes, hholes, h⟩ := h
    cases h
    exact (unmarked_textCode ctx _).append (emitHoles_unmarked ih hholes)

/-- The pieces are those of sections, one for each statement, with the lines on which these places
begin. -/
def InSections (ctx : CodeContext) (rests : List Span) (statements : List Statement)
    (pieces : List Piece) : Prop :=
  ∃ sections : List Section, pieces = sectionPieces sections ∧
    sections.map Section.line = rests.map (fun rest => ctx.lines.line rest.start) ∧
    Forall₂ (fun s part => statementCode ctx s = .ok part.code) statements sections

theorem InSections.nil (ctx : CodeContext) : InSections ctx [] [] [] := ⟨[], rfl, rfl, .nil⟩

/-- The mark of a statement, what its value leaves and its last instructions make a section. -/
theorem InSections.cons {rests : List Span} {statements : List Statement} {s : Statement}
    {value : List Piece} {last : List Instr} (h : InSections ctx rests statements pieces)
    (hvalue : Unmarked value) (hs : statementCode ctx s = .ok (instrsOf value ++ last))
    (span : Span) :
    InSections ctx (span :: rests) (s :: statements)
      (ctx.mark span :: (value ++ last.map .op ++ pieces)) := by
  obtain ⟨sections, rfl, hlines, hcode⟩ := h
  refine ⟨⟨ctx.lines.line span.start, instrsOf value ++ last⟩ :: sections, ?_, ?_, .cons hs hcode⟩
  · rw [sectionPieces_cons, map_append, ← hvalue]
    rfl
  · rw [map_cons, map_cons, hlines]

theorem emit_letIn {span : Span} {pattern : Pattern} {value : Expr}
    (h : emit ctx (.letIn span pattern value body) = .ok pieces) :
    ∃ valueCode bodyCode store, emit ctx value = .ok valueCode ∧ emit ctx body = .ok bodyCode ∧
      statementCode ctx (.declare pattern value) = .ok (instrsOf valueCode ++ [store]) ∧
      pieces = valueCode ++ [.op store, ctx.mark body.span] ++ bodyCode := by
  cases pattern with
  | single _ _ id _ | ignore _ =>
    simp only [emit, Except.bind_eq_ok, Except.pure_eq_ok] at h
    obtain ⟨valueCode, hvalue, bodyCode, hbody, rfl⟩ := h
    refine ⟨valueCode, bodyCode, _, hvalue, hbody, ?_, rfl⟩
    rw [statementCode, hvalue]
    rfl

/-- **The code of a block** is a row of sections, the last of which has the two instructions at the
end. The induction is on the lines of the block. -/
theorem emit_sections (rows : e.Rows) (h : emit ctx e = .ok pieces) :
    InSections ctx e.restSpans e.statements
      (ctx.mark e.span :: pieces ++ [.op .ret, .op .finish]) := by
  induction rows generalizing pieces with
  | @last e line =>
    have hcode : statementCode ctx (.result e) = .ok (instrsOf pieces ++ [.ret, .finish]) := by
      rw [statementCode, h]
      rfl
    obtain ⟨hstatements, hrests⟩ := line.statements_eq
    rw [hstatements, hrests]
    simpa using (InSections.nil ctx).cons (emit_unmarked line h) hcode e.span
  | @letIn span _ _ _ line _ ih =>
    obtain ⟨valueCode, bodyCode, store, hvalue, hbody, hcode, rfl⟩ := emit_letIn h
    simpa [Expr.restSpans, Expr.statements, Expr.span] using
      (ih hbody).cons (emit_unmarked line hvalue) hcode span
  | @seq span first body line _ ih =>
    simp only [emit, Except.bind_eq_ok, Except.pure_eq_ok] at h
    obtain ⟨firstCode, hfirst, bodyCode, hbody, rfl⟩ := h
    have hcode : statementCode ctx (.discard first) = .ok (instrsOf firstCode ++ [.drop]) := by
      rw [statementCode, hfirst]
      rfl
    simpa [Expr.restSpans, Expr.statements, Expr.span] using
      (ih hbody).cons (emit_unmarked line hfirst) hcode span

end Emitted

/-! ## Methods -/

/-- The code of a method is made of parts, one for each statement, and its line table tells for every
instruction on which line the statement of its part stands. -/
structure ExactLines (source : String) (statements : List Statement) (parts : List (List Instr))
    (code : MethodCode) : Prop where
  code_eq : code.code = parts.flatten
  /-- There is an entry for the first instruction. -/
  first : code.lines.head?.map LineEntry.start = some 0
  sorted : code.lines.Pairwise fun a b => a.start < b.start ∧ a.line < b.line
  line_at : ∀ op < code.code.length, ∃ before part after s, parts = before ++ part :: after ∧
    before.flatten.length ≤ op ∧ op < before.flatten.length + part.length ∧
    statements[before.length]? = some s ∧ s.span.StandsOn source (code.lineAt op)
  first_line : ∃ s ∈ statements.head?, s.span.StandsOn source code.firstLine

theorem exactLines_of_sections {source : String} {statements : List Statement}
    {sections : List Section} (hsome : statements ≠ [])
    (stands : Forall₂ (fun s part => s.span.StandsOn source part.line) statements sections)
    (filled : ∀ part ∈ sections, part.code ≠ [])
    (sorted : (sections.map Section.line).Pairwise (· < ·))
    (hcode : code.code = (sections.map Section.code).flatten)
    (hlines : code.lines = sectionTable 0 sections) :
    ExactLines source statements (sections.map Section.code) code := by
  refine ⟨hcode, ?_, hlines ▸ pairwise_sectionTable filled sorted 0, ?_, ?_⟩
  · cases stands with
    | nil => exact absurd rfl hsome
    | cons _ _ =>
      rw [hlines]
      rfl
  · -- the part in which the instruction stands is the code of one of the sections
    intro op hop
    rw [hcode] at hop
    obtain ⟨_, _, _, hparts, hstart, hstop⟩ := exists_part hop
    obtain ⟨before, rest, rfl, rfl, hrest⟩ := map_eq_append_iff.1 hparts
    obtain ⟨part, after, rfl, rfl, rfl⟩ := map_eq_cons_iff.1 hrest
    have hpart : (before ++ part :: after)[before.length]? = some part := by simp
    obtain ⟨s, hs, hstands⟩ := forall₂_getElem?_right stands hpart
    refine ⟨_, _, _, s, hparts, hstart, hstop, by rw [length_map, hs], ?_⟩
    have hline : code.lineAt op = part.line := by
      rw [MethodCode.lineAt, hlines]
      exact lineAt_sectionTable (by rwa [Nat.zero_add]) (by rwa [Nat.zero_add])
    rw [hline]
    exact hstands
  · cases stands with
    | nil => exact absurd rfl hsome
    | cons hstands _ =>
      refine ⟨_, rfl, ?_⟩
      rw [MethodCode.firstLine, hlines]
      exact hstands

theorem generateMethod_pieces {table : ClassTable} {c : Typed.Class} {plan : ImportPlan}
    {texts : List String} {lines : LineIndex} {m : Method}
    (h : generateMethod table c plan texts lines m = .ok code) (hbody : m.body = some body) :
    ∃ pieces, emit (methodContext table c plan texts lines m) body = .ok pieces ∧
      code.code = instrsOf ((methodContext table c plan texts lines m).mark body.span ::
        pieces ++ [.op .ret, .op .finish]) ∧
      code.lines = lineTable ((methodContext table c plan texts lines m).mark body.span ::
        pieces ++ [.op .ret, .op .finish]) := by
  rw [generateMethod, hbody] at h
  obtain ⟨pieces, hpieces, h⟩ := Except.bind_eq_ok.1 h
  cases h
  exact ⟨pieces, hpieces, rfl, rfl⟩

/-- The code of a method whose body was read from lines, one below the other. -/
theorem generateMethod_exactLines {table : ClassTable} {c : Typed.Class} {plan : ImportPlan}
    {texts : List String} {source : String} {m : Method} {tree : Tree.Expr} {done : List Char}
    (h : generateMethod table c plan texts (.ofText source) m = .ok code)
    (hbody : m.body = some body) (rows : body.Rows)
    (stacked : tree.Stacked (Lexer.normalized source) done)
    (hspans : body.statements.map Statement.span = tree.statementSpans)
    (hrests : body.restSpans = tree.restSpans) :
    ∃ parts, Forall₂ (fun s part => statementCode
        (methodContext table c plan texts (.ofText source) m) s = .ok part) body.statements parts ∧
      ExactLines source body.statements parts code := by
  obtain ⟨pieces, hemit, hcode, hlines⟩ := generateMethod_pieces h hbody
  obtain ⟨sections, hpieces, hmarks, hparts⟩ := emit_sections rows hemit
  obtain ⟨stands, sorted, -⟩ := stacked.lines
  rw [hpieces] at hcode hlines
  have hsorted : (sections.map Section.line).Pairwise (· < ·) := by
    rw [hmarks, hrests]
    exact sorted
  -- every statement ends with an instruction of its own, whatever its value leaves
  have hfilled : ∀ part ∈ sections, part.code ≠ [] := by
    intro part hpart
    obtain ⟨k, hk⟩ := mem_iff_getElem?.1 hpart
    obtain ⟨s, -, hs⟩ := forall₂_getElem?_right hparts hk
    exact statementCode_ne_nil hs
  have hstands : Forall₂ (fun s part => s.span.StandsOn source part.line) body.statements
      sections := by
    -- the marks are for the lines of the tree, and the statements stand at the places of the tree
    have hboth : Forall₂ (fun span line => Span.StandsOn source line span)
        (body.statements.map Statement.span) (sections.map Section.line) := by
      rw [hspans, hmarks, hrests, forall₂_map_right_iff]
      exact stands
    rw [forall₂_map_left_iff, forall₂_map_right_iff] at hboth
    exact hboth
  refine ⟨sections.map Section.code, forall₂_map_right_iff.2 hparts, ?_⟩
  rw [instrsOf_sectionPieces] at hcode
  rw [lineTable_sectionPieces hfilled hsorted] at hlines
  exact exactLines_of_sections body.statements_ne_nil hstands hfilled hsorted hcode hlines

/-- **Line tables are exact.** A module is read from a source, checked, and its class is generated
with the source. The code of each method is made of the code of its statements, one behind the other,
and the last one ends with the two instructions that leave the method. Its line table has an entry
for the first instruction and is strictly increasing, both in the instructions and in the lines. It
leads from each instruction to the line of the source on which the statement stands that the
instruction comes from, and its first line is that of the first statement. -/
theorem exactLines_of_parse {source name : String} {tree : Tree.Module}
    (hparse : Tree.parse source name = .ok tree) {table table' world : ClassTable}
    {path : ModulePath} {imports : List (Span × ClassId)}
    (hcheck : Typed.checkModule table path tree imports = .ok table') {c : Typed.Class}
    (hc : table'.get? table.size = some c) {a : Artifact}
    (hgenerate : generateClass world c source = .ok a) {i : Nat} {code : MethodCode}
    (hcode : a.methods[i]? = some code) :
    ∃ t m body parts, tree.classDecl.methods[i]? = some t ∧ c.methods[i]? = some m ∧
      m.body = some body ∧ body.statements.map Statement.span = t.body.statementSpans ∧
      List.Forall₂ (fun s part => statementCode (methodContext world c (.ofClass c) (classTexts c)
        (.ofText source) m) s = .ok part) body.statements parts ∧
      ExactLines source body.statements parts code := by
  obtain ⟨m, hm, hmethod⟩ := forall₂_getElem?_right (generateClass_eq_ok hgenerate).1 hcode
  obtain ⟨types, outline, checked, -, hchecked, rfl⟩ := Typed.checkModule_eq_ok.1 hcheck
  cases Typed.ClassTable.get?_push_size.symm.trans hc
  obtain ⟨m₀, t, body, -, ht, rfl, n, hbody⟩ := Typed.checkBodies_getElem? hchecked hm
  obtain ⟨rows, hspans, hrests⟩ :=
    (Typed.elaborates_of_checkExpr t.body hbody).1.rows (Tree.block_of_parse hparse ht)
  obtain ⟨done, stacked⟩ := Tree.stacked_of_parse hparse (mem_of_getElem? ht)
  obtain ⟨parts, hparts, exactLines⟩ :=
    generateMethod_exactLines hmethod rfl rows stacked hspans hrests
  exact ⟨t, _, body, parts, ht, hm, rfl, hspans, hparts, exactLines⟩

/-- The second method of the example has statements on the lines eight and nine. Its instructions are
a call and a store, then an addition and the two instructions at the end. -/
theorem exactLines_of_pointText : ∃ tree a code, Tree.parse pointText "Point" = .ok tree ∧
    generateClass pointTable pointClass pointText = .ok a ∧ a.methods[1]? = some code ∧
    code.lines = [⟨0, 8⟩, ⟨3, 9⟩] ∧ code.code.length = 9 ∧
    ∃ t m body parts, tree.classDecl.methods[1]? = some t ∧ pointClass.methods[1]? = some m ∧
      m.body = some body ∧ body.statements.map Statement.span = t.body.statementSpans ∧
      List.Forall₂ (fun s part => statementCode (methodContext pointTable pointClass
        (.ofClass pointClass) (classTexts pointClass) (.ofText pointText) m) s = .ok part)
        body.statements parts ∧
      ExactLines pointText body.statements parts code := by
  obtain ⟨tree, hparse, hcheck⟩ := Typed.checked_pointText
  have hmade : (((generateClass pointTable pointClass pointText).toOption.bind (·.methods[1]?)).map
      fun code => (code.lines, code.code.length)) = some ([⟨0, 8⟩, ⟨3, 9⟩], 9) := by
    decide +kernel
  obtain ⟨code, hcode, hmade⟩ := Option.map_eq_some_iff.1 hmade
  obtain ⟨hlines, hlength⟩ := Prod.mk.inj hmade
  obtain ⟨a, ha, hcode⟩ := Option.bind_eq_some_iff.1 hcode
  cases hgenerate : generateClass pointTable pointClass pointText with
  | error e =>
    rw [hgenerate] at ha
    cases ha
  | ok a' =>
    rw [hgenerate] at ha
    cases ha
    exact ⟨tree, a, code, hparse, rfl, hcode, hlines, hlength,
      exactLines_of_parse hparse hcheck Typed.get?_pointTable hgenerate hcode⟩

end Code

end ClassLang
