import ClassLang.Proofs.CoveredText
import ClassLang.Tree

/-!
# Places that nest

A place of a text is a piece of it if it begins and ends between characters. `Span.Encloses` says that
a place is such a piece and has other places in it, one behind the other; a tree is `Nested` if the
place of each node encloses those of its children in this way, and the place of each name that is
accessed spells the name. All places of such a tree that a fault can be at are in the text
(`Module.Nested.places`).
-/

set_option autoImplicit false

namespace ClassLang

/-! ## Pieces of a text -/

/-- The offset is between two characters of the text, or at one of its ends. -/
def Boundary (text : List Char) (pos : Nat) : Prop :=
  ∃ before after, text = before ++ after ∧ byteLength before = pos

theorem Boundary.le {text : List Char} {pos : Nat} (h : Boundary text pos) :
    pos ≤ byteLength text := by
  obtain ⟨before, after, rfl, rfl⟩ := h
  rw [byteLength_append]
  exact Nat.le_add_right _ _

namespace Span

/-- The span begins before it ends, and ends within a text of `n` bytes. -/
def Inside (n : Nat) (span : Span) : Prop := span.start ≤ span.stop ∧ span.stop ≤ n

theorem Inside.mono {m n : Nat} {span : Span} (h : span.Inside m) (hle : m ≤ n) : span.Inside n :=
  ⟨h.1, h.2.trans hle⟩

/-- The span begins and ends between characters of the text. -/
structure Piece (text : List Char) (span : Span) : Prop where
  start : Boundary text span.start
  stop : Boundary text span.stop
  le : span.start ≤ span.stop

variable {text : List Char} {a b : Span}

theorem Piece.inside (h : a.Piece text) : a.Inside (byteLength text) := ⟨h.le, h.stop.le⟩

theorem cover_of_le (hstart : a.start ≤ b.start) (hstop : a.stop ≤ b.stop) :
    a.cover b = ⟨a.start, b.stop⟩ := by
  rw [cover, Nat.min_eq_left hstart, Nat.max_eq_right hstop]

theorem Piece.cover (ha : a.Piece text) (hb : b.Piece text) : (a.cover b).Piece text := by
  refine ⟨?_, ?_, (Nat.min_le_left _ _).trans (ha.le.trans (Nat.le_max_left _ _))⟩
  · change Boundary text (min a.start b.start)
    rcases Nat.le_total a.start b.start with hle | hle
    · rw [Nat.min_eq_left hle]
      exact ha.start
    · rw [Nat.min_eq_right hle]
      exact hb.start
  · change Boundary text (max a.stop b.stop)
    rcases Nat.le_total a.stop b.stop with hle | hle
    · rw [Nat.max_eq_right hle]
      exact hb.stop
    · rw [Nat.max_eq_left hle]
      exact ha.stop

end Span

theorem TextAt.piece {text cs : List Char} {span : Span} (h : TextAt text span cs) :
    span.Piece text := by
  obtain ⟨before, after, rfl, hstart, hstop⟩ := h
  refine ⟨⟨before, cs ++ after, rfl, hstart⟩, ⟨before ++ cs, after, ?_, ?_⟩, ?_⟩
  · rw [List.append_assoc]
  · rw [byteLength_append, hstop]
  · omega

/-! ## Places in a row -/

/-- The places stand one behind the other from `a` up to `b`. -/
def Row (a b : Nat) : List Span → Prop
  | [] => a ≤ b
  | span :: rest => a ≤ span.start ∧ span.start ≤ span.stop ∧ Row span.stop b rest

section Row

variable {a b c : Nat} {xs ys : List Span}

theorem Row.le (h : Row a b xs) : a ≤ b := by
  induction xs generalizing a with
  | nil => exact h
  | cons x xs ih => exact h.1.trans (h.2.1.trans (ih h.2.2))

theorem Row.append (h : Row a b xs) (h' : Row b c ys) : Row a c (xs ++ ys) := by
  induction xs generalizing a with
  | nil =>
    cases ys with
    | nil => exact Nat.le_trans h h'
    | cons y ys => exact ⟨Nat.le_trans h h'.1, h'.2⟩
  | cons x xs ih => exact ⟨h.1, h.2.1, ih h.2.2⟩

theorem Row.split (h : Row a c (xs ++ ys)) : ∃ b, Row a b xs ∧ Row b c ys := by
  induction xs generalizing a with
  | nil => exact ⟨a, Nat.le_refl a, h⟩
  | cons x xs ih =>
    obtain ⟨b, hxs, hys⟩ := ih h.2.2
    exact ⟨b, ⟨h.1, h.2.1, hxs⟩, hys⟩

theorem Row.widen {a' b' : Nat} (h : Row a b xs) (ha : a' ≤ a) (hb : b ≤ b') : Row a' b' xs := by
  induction xs generalizing a a' with
  | nil => exact ha.trans (Nat.le_trans h hb)
  | cons x xs ih => exact ⟨ha.trans h.1, h.2.1, ih h.2.2 (Nat.le_refl _)⟩

theorem Row.until (h : Row a b xs) (hle : b ≤ c) : Row a c xs := h.widen (Nat.le_refl a) hle

/-- The places of a row end where the last of them does. -/
theorem Row.trim {α : Type} {f : α → Span} {x : α} {others : List α}
    (h : Row a b (f x :: others.map f)) :
    Row (f x).start (f (others.getLastD x)).stop (f x :: others.map f) ∧
      (f (others.getLastD x)).stop ≤ b := by
  induction others generalizing a x with
  | nil => exact ⟨⟨Nat.le_refl _, h.2.1, Nat.le_refl _⟩, h.2.2⟩
  | cons y others ih =>
    obtain ⟨hrow, hle⟩ := ih h.2.2
    rw [List.getLastD_cons]
    exact ⟨⟨Nat.le_refl _, h.2.1, h.2.2.1, hrow.2⟩, hle⟩

theorem Row.bounds (h : Row a b xs) : ∀ x ∈ xs, a ≤ x.start ∧ x.stop ≤ b := by
  induction xs generalizing a with
  | nil => exact List.forall_mem_nil _
  | cons x xs ih =>
    refine List.forall_mem_cons.2 ⟨⟨h.1, h.2.2.le⟩, fun y hy => ?_⟩
    obtain ⟨hstart, hstop⟩ := ih h.2.2 y hy
    exact ⟨h.1.trans (h.2.1.trans hstart), hstop⟩

theorem Row.pairwise (h : Row a b xs) : xs.Pairwise fun x y => x.stop ≤ y.start := by
  induction xs generalizing a with
  | nil => exact .nil
  | cons x xs ih => exact .cons (fun y hy => (h.2.2.bounds y hy).1) (ih h.2.2)

end Row

/-- The place is a piece of the text in which the parts stand one behind the other. -/
structure Span.Encloses (text : List Char) (span : Span) (parts : List Span) : Prop where
  piece : span.Piece text
  contains : ∀ part ∈ parts, span.Contains part
  ordered : parts.Pairwise fun a b => a.stop ≤ b.start

section Encloses

variable {text : List Char} {span a b : Span} {parts : List Span}

theorem Span.Piece.encloses (h : span.Piece text) (row : Row span.start span.stop parts) :
    span.Encloses text parts := ⟨h, row.bounds, row.pairwise⟩

theorem Span.Piece.alone (h : span.Piece text) : span.Encloses text [] := h.encloses h.le

/-- What stands between the start of one place and the stop of another is enclosed by both. -/
theorem Span.Piece.join (ha : a.Piece text) (hb : b.Piece text) (row : Row a.start b.stop parts) :
    Span.Encloses text ⟨a.start, b.stop⟩ parts :=
  Span.Piece.encloses ⟨ha.start, hb.stop, row.le⟩ row

theorem Span.Encloses.sublist {others : List Span} (h : span.Encloses text parts)
    (hsub : others.Sublist parts) : span.Encloses text others :=
  ⟨h.piece, fun part hpart => h.contains part (hsub.subset hpart), h.ordered.sublist hsub⟩

/-- Two places with a row between them cover the row. -/
theorem Span.Piece.covers {i j : Nat} (ha : a.Piece text) (hb : b.Piece text)
    (row : Row i j (a :: (parts ++ [b]))) :
    (a.cover b).Encloses text (a :: (parts ++ [b])) ∧ Row i j [a.cover b] := by
  obtain ⟨k, hparts, hstart, hle, hstop⟩ := row.2.2.split
  have hbehind : a.stop ≤ b.start := hparts.le.trans hstart
  rw [Span.cover_of_le (ha.le.trans hbehind) (hbehind.trans hle)]
  refine ⟨ha.join hb ⟨Nat.le_refl _, ha.le, ?_⟩, row.1, ha.le.trans (hbehind.trans hle), hstop⟩
  exact hparts.append ⟨hstart, hle, Nat.le_refl _⟩

end Encloses

/-! ## Trees -/

namespace Tree

section Places

variable (P : Span → Prop)

/-- The place of every node of the expression satisfies `P`. -/
inductive Expr.Places : Expr → Prop where
  | access {span name} (place : P span) : Places (.access span name)
  | staticAccess {span className name} (place : P span) : Places (.staticAccess span className name)
  | operatorCall {span left right operator} (place : P span)
      (hleft : Places left) (hright : Places right) :
      Places (.operatorCall span left operator right)
  | call {span target args} (place : P span)
      (htarget : Places target) (hargs : ∀ arg ∈ args, Places arg) : Places (.call span target args)
  | property {span target name} (place : P span)
      (htarget : Places target) : Places (.property span target name)
  | letIn {span} {pattern : Pattern} {value body} (place : P span)
      (hpattern : P pattern.span) (hvalue : Places value) (hbody : Places body) :
      Places (.letIn span pattern value body)
  | seq {span first body} (place : P span) (hfirst : Places first)
      (hbody : Places body) : Places (.seq span first body)
  | literal {span value} (place : P span) : Places (.literal span value)
  | quote {span head holes} (place : P span)
      (hholes : ∀ hole ∈ holes, Places hole.1) : Places (.quote span head holes)

structure Slot.Places (slot : Slot) : Prop where
  span : P slot.span
  ty : P slot.ty.span

structure Param.Places (param : Param) : Prop where
  span : P param.span
  ty : P param.ty.span

structure Method.Places (m : Method) : Prop where
  span : P m.span
  returnType : P m.returnType.span
  params : ∀ param ∈ m.params, param.Places P
  body : m.body.Places P

structure ClassDecl.Places (decl : ClassDecl) : Prop where
  slots : ∀ slot ∈ decl.slots, slot.Places P
  methods : ∀ m ∈ decl.methods, m.Places P

structure Module.Places (m : Module) : Prop where
  imports : ∀ item ∈ m.imports, P item.span
  classDecl : m.classDecl.Places P

variable {P}

theorem Expr.Places.span {e : Expr} (h : e.Places P) : P e.span := by
  cases h <;> assumption

end Places

section Nested

variable (text : List Char)

/-- The place of a type encloses those of its arguments. -/
inductive TypeExpr.Nested : TypeExpr → Prop where
  | named {span : Span} {name : String} (place : span.Encloses text []) :
      Nested (.named span name)
  | generic {span : Span} {name : String} {args : List TypeExpr}
      (place : span.Encloses text (args.map TypeExpr.span)) (hargs : ∀ arg ∈ args, Nested arg) :
      Nested (.generic span name args)

/-- Each name of a pattern stands at its place, and the place of several encloses theirs. -/
def Pattern.Nested : Pattern → Prop
  | .ignore span => span.Encloses text []
  | .single span name => TextAt text span name.toList
  | .destruct span names =>
    span.Encloses text (names.map Prod.fst) ∧ ∀ named ∈ names, TextAt text named.1 named.2.toList

/-- The place of each node encloses those of its children, in the order in which they are written, and
a name that is accessed stands at its place. -/
inductive Expr.Nested : Expr → Prop where
  | access {span : Span} {name : String} (spelled : TextAt text span name.toList) :
      Nested (.access span name)
  | staticAccess {span : Span} {className name : String} (place : span.Encloses text []) :
      Nested (.staticAccess span className name)
  | operatorCall {span : Span} {left right : Expr} {operator : String}
      (place : span.Encloses text [left.span, right.span]) (hleft : Nested left)
      (hright : Nested right) : Nested (.operatorCall span left operator right)
  | call {span : Span} {target : Expr} {args : List Expr}
      (place : span.Encloses text (target.span :: args.map Expr.span)) (htarget : Nested target)
      (hargs : ∀ arg ∈ args, Nested arg) : Nested (.call span target args)
  | property {span : Span} {target : Expr} {name : String}
      (place : span.Encloses text [target.span]) (htarget : Nested target) :
      Nested (.property span target name)
  | letIn {span : Span} {pattern : Pattern} {value body : Expr}
      (place : span.Encloses text [pattern.span, value.span, body.span])
      (hpattern : pattern.Nested text) (hvalue : Nested value) (hbody : Nested body) :
      Nested (.letIn span pattern value body)
  | seq {span : Span} {first body : Expr} (place : span.Encloses text [first.span, body.span])
      (hfirst : Nested first) (hbody : Nested body) : Nested (.seq span first body)
  | literal {span : Span} {value : Literal} (place : span.Encloses text []) :
      Nested (.literal span value)
  | quote {span : Span} {head : String} {holes : List (Expr × String)}
      (place : span.Encloses text (holes.map (·.1.span))) (hholes : ∀ hole ∈ holes, Nested hole.1) :
      Nested (.quote span head holes)

structure Slot.Nested (slot : Slot) : Prop where
  place : slot.span.Encloses text [slot.ty.span]
  ty : slot.ty.Nested text

structure Param.Nested (param : Param) : Prop where
  place : param.span.Encloses text [param.ty.span]
  ty : param.ty.Nested text

/-- The place of a method encloses those of its return type, its parameters and its body. -/
structure Method.Nested (m : Method) : Prop where
  place : m.span.Encloses text (m.returnType.span :: (m.params.map Param.span ++ [m.body.span]))
  returnType : m.returnType.Nested text
  params : ∀ param ∈ m.params, param.Nested text
  body : m.body.Nested text

structure ClassDecl.Nested (decl : ClassDecl) : Prop where
  span : decl.span.Piece text
  headSpan : decl.headSpan.Piece text
  slots : ∀ slot ∈ decl.slots, slot.Nested text
  methods : ∀ m ∈ decl.methods, m.Nested text

structure Module.Nested (m : Module) : Prop where
  span : m.span.Inside (byteLength text)
  imports : ∀ item ∈ m.imports, item.span.Inside (byteLength text)
  classDecl : m.classDecl.Nested text

variable {text}

theorem TypeExpr.Nested.piece {ty : TypeExpr} (h : ty.Nested text) : ty.span.Piece text := by
  cases h with
  | named place => exact place.piece
  | generic place _ => exact place.piece

theorem Pattern.Nested.piece {pattern : Pattern} (h : pattern.Nested text) :
    pattern.span.Piece text := by
  cases pattern with
  | ignore span => exact Span.Encloses.piece h
  | single span name => exact TextAt.piece h
  | destruct span names => exact h.1.piece

theorem Expr.Nested.piece {e : Expr} (h : e.Nested text) : e.span.Piece text := by
  cases h with
  | access spelled => exact spelled.piece
  | _ => exact Span.Encloses.piece ‹_›

theorem Expr.Nested.places {e : Expr} (h : e.Nested text) :
    e.Places (Span.Inside (byteLength text)) := by
  induction h with
  | access spelled => exact .access spelled.piece.inside
  | staticAccess place => exact .staticAccess place.piece.inside
  | operatorCall place _ _ ihLeft ihRight => exact .operatorCall place.piece.inside ihLeft ihRight
  | call place _ _ ihTarget ihArgs => exact .call place.piece.inside ihTarget ihArgs
  | property place _ ih => exact .property place.piece.inside ih
  | letIn place hpattern _ _ ihValue ihBody =>
    exact .letIn place.piece.inside hpattern.piece.inside ihValue ihBody
  | seq place _ _ ihFirst ihBody => exact .seq place.piece.inside ihFirst ihBody
  | literal place => exact .literal place.piece.inside
  | quote place _ ih => exact .quote place.piece.inside ih

theorem Method.Nested.places {m : Method} (h : m.Nested text) :
    m.Places (Span.Inside (byteLength text)) where
  span := h.place.piece.inside
  returnType := h.returnType.piece.inside
  params param hparam := ⟨(h.params param hparam).place.piece.inside, (h.params param hparam).ty.piece.inside⟩
  body := h.body.places

/-- A tree whose places nest has them in the text. -/
theorem Module.Nested.places {m : Module} (h : m.Nested text) :
    m.Places (Span.Inside (byteLength text)) where
  imports := h.imports
  classDecl := {
    slots := fun slot hslot =>
      ⟨(h.classDecl.slots slot hslot).place.piece.inside, (h.classDecl.slots slot hslot).ty.piece.inside⟩
    methods := fun m hm => (h.classDecl.methods m hm).places }

end Nested

end Tree

end ClassLang
