import ClassLang.Proofs.LineTables
import Mathlib.Logic.Relation

/-!
# Printing ends

The three texts of an expression are made of each other: a line of calls, a call of atoms, and an
atom, which may be a line in parentheses. `Expr.chunks` says of which texts each of them is made, so
that asking for one text leads to others (`Asks`). On an expression without blocks in it, what is
asked for is a text of a smaller expression, or another text of the same one, and those go around in
no circle (`Asks.earlier`). A block would be asked for its line, its call, its atom and then for its
line again.

A checked body has blocks on its spine only, since its lines are made of what was written within a
line. The main statement is `printing_ends`.
-/

set_option autoImplicit false

namespace ClassLang.Typed

open List Expr
open Relation (ReflTransGen TransGen)

/-! ## What texts are made of -/

/-- The places where an expression may stand. -/
inductive Form where
  | line
  | call
  | atom
deriving DecidableEq

/-- The text of an expression for a place. -/
def Forms.get (forms : Forms) : Form → String
  | .line => forms.line
  | .call => forms.call
  | .atom => forms.atom

/-- A part of a text: a word, or the text of an expression. -/
inductive Chunk where
  | word (text : String)
  | textOf (form : Form) (e : Expr)

/-- The text of a part, if `answer` gives the texts of expressions. -/
def Chunk.text (answer : Form → Expr → String) : Chunk → String
  | .word text => text
  | .textOf form e => answer form e

namespace Expr

/-- The operands of an operator, with the operator. -/
def operator? : Expr → Option (Expr × String × Expr)
  | .methodCall _ _ callee target [right] =>
    if isOperatorName callee.name then some (target, callee.name, right) else none
  | _ => none

def memberChunks (target : Expr) (name : String) : List Chunk :=
  if target.isReceiver then [.word name] else [.textOf .atom target, .word ("." ++ name)]

def argChunks (args : List Expr) : List Chunk :=
  args.flatMap fun arg => [.word " ", .textOf .atom arg]

def holeChunks (holes : List (Expr × String)) : List Chunk :=
  holes.flatMap fun hole =>
    [.word "\x7b", .textOf .line hole.1, .word ("\x7d" ++ escapedText hole.2)]

/-- What the line of an expression is made of. Operators associate to the right, so only an operator
call on the left is put in parentheses. -/
def lineChunks (e : Expr) : List Chunk :=
  match e.operator? with
  | some (left, operator, right) =>
    (if left.operator?.isSome then [.word "(", .textOf .line left, .word ")"]
      else [.textOf .call left]) ++
      [.word (" " ++ operator ++ " "), .textOf .line right]
  | none => [.textOf .call e]

/-- What the call of an expression is made of. -/
def callChunks (table : ClassTable) (e : Expr) : List Chunk :=
  if e.operator?.isSome then [.textOf .atom e]
  else
    match e with
    | .methodCall _ _ callee target args => memberChunks target callee.name ++ argChunks args
    | .staticCall _ _ callee args => .word (staticHead table callee) :: argChunks args
    | e => [.textOf .atom e]

/-- What the atom of an expression is made of. -/
def atomChunks : Expr → List Chunk
  | .localVar _ _ _ name => [.word name]
  | .param _ _ _ name => [.word name]
  | .receiver _ _ => [.word "self"]
  | .slot _ _ ref target => memberChunks target ref.name
  | .literal _ value => [.word (literalSource value)]
  | .quote _ head holes => .word ("\"" ++ escapedText head) :: (holeChunks holes ++ [.word "\""])
  | .methodCall span ty callee target [] => [.textOf .call (.methodCall span ty callee target [])]
  | .staticCall span ty callee [] => [.textOf .call (.staticCall span ty callee [])]
  | e => [.word "(", .textOf .line e, .word ")"]

/-- What a text of an expression is made of. -/
def chunks (table : ClassTable) (e : Expr) : Form → List Chunk
  | .line => e.lineChunks
  | .call => e.callChunks table
  | .atom => e.atomChunks

end Expr

/-- To give the second text, the first one is asked for. -/
def Asks (table : ClassTable) (q p : Form × Expr) : Prop :=
  Chunk.textOf q.1 q.2 ∈ p.2.chunks table p.1

/-! ## Asking ends -/

/-- The texts of an expression, each behind those of the same expression that it asks for. -/
def Expr.order (e : Expr) : List Form :=
  if e.operator?.isSome then [.line, .atom, .call]
  else
    match e with
    | .methodCall .. => [.call, .line, .atom]
    | .staticCall .. => [.call, .line, .atom]
    | _ => [.atom, .call, .line]

def Expr.rank (e : Expr) (form : Form) : Nat := e.order.idxOf form

variable {left right target : Expr} {name : String}

section Asking

variable {table : ClassTable} {e x : Expr} {form g : Form}

theorem Expr.operator?_eq_some (h : e.operator? = some (left, name, right)) : ∃ span ty callee,
      e = .methodCall span ty callee left [right] ∧ isOperatorName callee.name = true ∧
        name = callee.name := by
  unfold operator? at h
  split at h
  · split at h
    · next hname =>
      cases h
      exact ⟨_, _, _, rfl, hname, rfl⟩
    · cases h
  · cases h

theorem textOf_mem_memberChunks (h : Chunk.textOf g x ∈ memberChunks target name) : x = target := by
  unfold memberChunks at h
  split at h
  · simp at h
  · simp at h
    exact h.2

theorem textOf_mem_argChunks {args : List Expr} (h : Chunk.textOf g x ∈ argChunks args) :
    x ∈ args := by
  obtain ⟨arg, harg, h⟩ := mem_flatMap.1 h
  simp at h
  rwa [h.2]

theorem textOf_mem_holeChunks {holes : List (Expr × String)}
    (h : Chunk.textOf g x ∈ holeChunks holes) : ∃ hole ∈ holes, x = hole.1 := by
  obtain ⟨hole, hhole, h⟩ := mem_flatMap.1 h
  simp at h
  exact ⟨hole, hhole, h.2⟩

/-- The first text is one of a smaller line, or one of the same line that is asked for earlier. -/
inductive Earlier : Form × Expr → Form × Expr → Prop where
  | same {e : Expr} {g form : Form} (h : e.rank g < e.rank form) : Earlier (g, e) (form, e)
  | part {e x : Expr} {g form : Form} (flat : x.Flat) (h : sizeOf x < sizeOf e) :
      Earlier (g, x) (form, e)

/-- An operator is written between its operands, and all its other texts are its line in
parentheses. -/
theorem earlier_of_operator (flat : e.Flat) (hoperator : e.operator? = some (left, name, right))
    (h : Chunk.textOf g x ∈ e.chunks table form) : Earlier (g, x) (form, e) := by
  obtain ⟨span, ty, callee, rfl, hname, rfl⟩ := operator?_eq_some hoperator
  cases flat with
  | methodCall hleft hargs =>
  cases form
  case line =>
    simp only [chunks, lineChunks, hoperator] at h
    have hx : x = left ∨ x = right := by
      split at h <;> simp at h <;> tauto
    rcases hx with rfl | rfl
    · exact .part hleft (by simp; omega)
    · exact .part (hargs x (mem_singleton_self x)) (by simp; omega)
  case call =>
    simp [chunks, callChunks, hoperator] at h
    obtain ⟨rfl, rfl⟩ := h
    exact .same (by simp [rank, order, hoperator])
  case atom =>
    simp [chunks, atomChunks] at h
    obtain ⟨rfl, rfl⟩ := h
    exact .same (by simp [rank, order, hoperator])

theorem earlier_of_call (flat : e.Flat) (hoperator : e.operator? = none)
    (h : Chunk.textOf g x ∈ e.callChunks table) : Earlier (g, x) (.call, e) := by
  simp only [callChunks, hoperator, Option.isSome_none, Bool.false_eq_true, if_false] at h
  cases flat with
  | methodCall htarget hargs =>
    rcases mem_append.1 h with h | h
    · obtain rfl := textOf_mem_memberChunks h
      exact .part htarget (by simp; omega)
    · have hx := textOf_mem_argChunks h
      have hlt := sizeOf_lt_of_mem hx
      exact .part (hargs x hx) (by simp; omega)
  | staticCall hargs =>
    have hx := textOf_mem_argChunks ((mem_cons.1 h).resolve_left Chunk.noConfusion)
    have hlt := sizeOf_lt_of_mem hx
    exact .part (hargs x hx) (by simp; omega)
  | _ =>
    simp only [mem_singleton, Chunk.textOf.injEq] at h
    obtain ⟨rfl, rfl⟩ := h
    exact .same (by simp [rank, order, operator?])

theorem earlier_of_atom (flat : e.Flat) (hoperator : e.operator? = none)
    (h : Chunk.textOf g x ∈ e.atomChunks) : Earlier (g, x) (.atom, e) := by
  cases flat with
  | slot htarget =>
    obtain rfl := textOf_mem_memberChunks h
    exact .part htarget (by simp only [slot.sizeOf_spec]; omega)
  | quote hholes =>
    simp only [atomChunks, mem_cons, mem_append, reduceCtorEq, not_mem_nil,
      or_false, false_or] at h
    obtain ⟨⟨hole, text⟩, hmem, rfl⟩ := textOf_mem_holeChunks h
    have hlt := sizeOf_lt_of_mem hmem
    exact .part (hholes _ hmem) (by simp at hlt ⊢; omega)
  -- a call is an atom where it has no arguments, and stands in parentheses where it has some
  | @methodCall span ty callee target args _ _ =>
    cases args with
    | nil =>
      simp only [atomChunks, mem_singleton, Chunk.textOf.injEq] at h
      obtain ⟨rfl, rfl⟩ := h
      exact .same (by simp [rank, order, hoperator])
    | cons arg args =>
      simp [atomChunks] at h
      obtain ⟨rfl, rfl⟩ := h
      exact .same (by simp [rank, order, hoperator])
  | @staticCall span ty callee args _ =>
    cases args with
    | nil =>
      simp only [atomChunks, mem_singleton, Chunk.textOf.injEq] at h
      obtain ⟨rfl, rfl⟩ := h
      exact .same (by simp [rank, order, hoperator])
    | cons arg args =>
      simp [atomChunks] at h
      obtain ⟨rfl, rfl⟩ := h
      exact .same (by simp [rank, order, hoperator])
  | _ => simp [atomChunks] at h

variable {p q : Form × Expr}

/-- **What is asked for** on the way to a text of a line is a text of a part of the line, or another
text of the same line that comes earlier. -/
theorem Asks.earlier (flat : p.2.Flat) (h : Asks table q p) : Earlier q p := by
  obtain ⟨form, e⟩ := p
  obtain ⟨g, x⟩ := q
  change Chunk.textOf g x ∈ e.chunks table form at h
  rcases hoperator : e.operator? with _ | ⟨left, name, right⟩
  · cases form
    case line =>
      simp only [chunks, lineChunks, hoperator, mem_singleton,
        Chunk.textOf.injEq] at h
      obtain ⟨rfl, rfl⟩ := h
      refine .same ?_
      simp only [rank, order, hoperator]
      cases x <;> simp
    case call => exact earlier_of_call flat hoperator h
    case atom => exact earlier_of_atom flat hoperator h
  · exact earlier_of_operator flat hoperator h

theorem Asks.flat (flat : p.2.Flat) (h : Asks table q p) : q.2.Flat := by
  cases h.earlier flat with
  | same _ => exact flat
  | part flat' _ => exact flat'

/-- What is asked for is smaller, or as large and of a lower rank. -/
theorem Asks.cost_lt (flat : p.2.Flat) (h : Asks table q p) :
    Prod.Lex (· < ·) (· < ·) (sizeOf q.2, q.2.rank q.1) (sizeOf p.2, p.2.rank p.1) := by
  cases h.earlier flat with
  | same hrank => exact .right _ hrank
  | part _ hsize => exact .left _ _ hsize

theorem acc_of_flat (table : ClassTable) (flat : p.2.Flat) : Acc (Asks table) p := by
  have wellFounded := InvImage.wf (fun p : Form × Expr => (sizeOf p.2, p.2.rank p.1))
    (Prod.lex Nat.lt_wfRel Nat.lt_wfRel).wf
  induction p using wellFounded.induction with
  | _ p ih => exact ⟨p, fun q h => ih q (h.cost_lt flat) (h.flat flat)⟩

theorem flat_of_reflTransGen (flat : p.2.Flat) (h : ReflTransGen (Asks table) q p) : q.2.Flat := by
  induction h using ReflTransGen.head_induction_on with
  | refl => exact flat
  | head asks _ ih => exact asks.flat ih

/-- No text is asked for on the way to itself. -/
theorem not_transGen_self (flat : p.2.Flat) : ¬ TransGen (Asks table) p p := by
  have hacc := (acc_of_flat table flat).transGen
  clear flat
  induction hacc with
  | intro p _ ih => exact fun h => ih p h h

end Asking

/-! ## The texts -/

section Texts

variable (table : ClassTable) {e : Expr}

/-- What a text is made of, put together. -/
def Chunk.joined (table : ClassTable) (parts : List Chunk) : String :=
  String.join (parts.map (Chunk.text fun form e => (e.forms table).get form))

theorem forms_eq_ofOperator (h : e.operator? = some (left, name, right)) :
    e.forms table = .ofOperator (left.forms table) name (right.forms table) := by
  obtain ⟨span, ty, callee, rfl, hname, rfl⟩ := operator?_eq_some h
  rw [forms, hname]
  rfl

theorem forms_eq_ofCall {span : Span} {ty : Ty} {callee : Callee} {args : List Expr}
    (h : (methodCall span ty callee target args).operator? = none) :
    (methodCall span ty callee target args).forms table =
      .ofCall ((target.forms table).memberHead callee.name) (formsList table args) := by
  rw [forms]
  cases hname : isOperatorName callee.name with
  | false => rfl
  | true =>
    rcases args with _ | ⟨arg, _ | ⟨arg', args⟩⟩
    · rfl
    · simp [operator?, hname] at h
    · rfl

theorem isReceiver_forms (flat : e.Flat) : (e.forms table).isReceiver = e.isReceiver := by
  rcases hoperator : e.operator? with _ | ⟨left, name, right⟩
  · cases flat with
    | methodCall _ _ =>
      rw [forms_eq_ofCall table hoperator]
      rfl
    | _ => rfl
  · rw [forms_eq_ofOperator table hoperator]
    obtain ⟨span, ty, callee, rfl, -, -⟩ := operator?_eq_some hoperator
    rfl

theorem isOperatorCall_forms (flat : e.Flat) :
    (e.forms table).isOperatorCall = e.operator?.isSome := by
  rcases hoperator : e.operator? with _ | ⟨left, name, right⟩
  · cases flat with
    | methodCall _ _ =>
      rw [forms_eq_ofCall table hoperator]
      rfl
    | _ => rfl
  · rw [forms_eq_ofOperator table hoperator]
    rfl

@[simp]
theorem joined_nil : Chunk.joined table [] = "" := rfl

@[simp]
theorem joined_word (text : String) (parts : List Chunk) :
    Chunk.joined table (.word text :: parts) = text ++ Chunk.joined table parts :=
  String.join_cons

@[simp]
theorem joined_textOf (form : Form) (e : Expr) (parts : List Chunk) :
    Chunk.joined table (.textOf form e :: parts) =
      (e.forms table).get form ++ Chunk.joined table parts :=
  String.join_cons

@[simp]
theorem joined_append (parts others : List Chunk) :
    Chunk.joined table (parts ++ others) = Chunk.joined table parts ++ Chunk.joined table others := by
  rw [Chunk.joined, map_append, String.join_append]
  rfl

theorem joined_memberChunks (flat : target.Flat) (name : String) :
    (target.forms table).memberHead name = Chunk.joined table (memberChunks target name) := by
  rw [Forms.memberHead, memberChunks, isReceiver_forms table flat]
  cases target.isReceiver <;> simp [Forms.get, String.append_assoc]

theorem joined_argChunks (head : String) (args : List Expr) :
    " ".intercalate (head :: (formsList table args).map Forms.atom) =
      head ++ Chunk.joined table (argChunks args) := by
  induction args generalizing head with
  | nil => simp [formsList, argChunks]
  | cons arg args ih =>
    rw [formsList, map_cons, String.intercalate_cons_cons, ih]
    simp [argChunks, Forms.get, String.append_assoc]

theorem joined_holeChunks (holes : List (Expr × String)) :
    String.join (holeSources table holes) = Chunk.joined table (holeChunks holes) := by
  induction holes with
  | nil => simp [holeSources, holeChunks]
  | cons hole holes ih =>
    rw [holeSources, String.join_cons, ih]
    simp [holeChunks, Forms.get, String.append_assoc]

theorem get_forms_operator (flat : e.Flat) (hoperator : e.operator? = some (left, name, right))
    (form : Form) : (e.forms table).get form = Chunk.joined table (e.chunks table form) := by
  have hforms := forms_eq_ofOperator table hoperator
  obtain ⟨span, ty, callee, rfl, -, rfl⟩ := operator?_eq_some hoperator
  cases flat with
  | methodCall hleft _ =>
  cases form
  case line =>
    rw [hforms, Forms.get, Forms.ofOperator, isOperatorCall_forms table hleft]
    simp only [chunks, lineChunks, hoperator]
    cases left.operator?.isSome <;>
      simp only [Bool.false_eq_true, if_true, if_false, joined_append, joined_word, joined_textOf,
        joined_nil, Forms.get, String.append_assoc, String.append_empty]
  case call =>
    simp [hforms, Forms.get, Forms.ofOperator, chunks, callChunks, hoperator]
  case atom =>
    simp [hforms, Forms.get, Forms.ofOperator, chunks, atomChunks, String.append_assoc]

theorem call_forms (flat : e.Flat) (hoperator : e.operator? = none) :
    (e.forms table).line = (e.forms table).call ∧
      (e.forms table).call = Chunk.joined table (e.callChunks table) := by
  simp only [callChunks, hoperator, Option.isSome_none, Bool.false_eq_true, if_false]
  cases flat with
  | @methodCall span ty callee target args htarget _ =>
    rw [forms_eq_ofCall table hoperator]
    refine ⟨rfl, ?_⟩
    rw [joined_append, ← joined_memberChunks table htarget]
    exact joined_argChunks table _ args
  | @staticCall span ty callee args _ =>
    refine ⟨rfl, ?_⟩
    rw [joined_word]
    exact joined_argChunks table _ args
  | _ =>
    refine ⟨rfl, ?_⟩
    simp only [joined_textOf, joined_nil, String.append_empty]
    rfl

theorem atom_forms (flat : e.Flat) (hoperator : e.operator? = none) :
    (e.forms table).atom = Chunk.joined table e.atomChunks := by
  cases flat with
  | slot htarget => exact joined_memberChunks table htarget _
  | @quote span head holes _ =>
    have hholes := joined_holeChunks table holes
    simp [forms, Forms.ofAtom, atomChunks, hholes, String.append_assoc]
  | @methodCall span ty callee target args _ _ =>
    cases args with
    | nil =>
      simp [atomChunks, Forms.get, forms_eq_ofCall table hoperator, Forms.ofCall, formsList]
    | cons arg args =>
      simp [atomChunks, Forms.get, forms_eq_ofCall table hoperator, Forms.ofCall, formsList,
        String.append_assoc]
  | @staticCall span ty callee args _ =>
    cases args with
    | nil => simp [atomChunks, Forms.get, forms, Forms.ofCall, formsList]
    | cons arg args =>
      simp [atomChunks, Forms.get, forms, Forms.ofCall, formsList, String.append_assoc]
  | _ => simp [forms, Forms.ofAtom, atomChunks]

/-- **Texts.** Each text of a line is put together from what it is made of. -/
theorem get_forms (flat : e.Flat) (form : Form) :
    (e.forms table).get form = Chunk.joined table (e.chunks table form) := by
  rcases hoperator : e.operator? with _ | ⟨left, name, right⟩
  · obtain ⟨hline, hcall⟩ := call_forms table flat hoperator
    cases form
    case line =>
      simp [Forms.get, chunks, lineChunks, hoperator, hline]
    case call => exact hcall
    case atom => exact atom_forms table flat hoperator
  · exact get_forms_operator table flat hoperator form

end Texts

/-! ## Checked bodies -/

/-- The line of a statement. -/
def Statement.line : Statement → Expr
  | .declare _ value => value
  | .discard e => e
  | .result e => e

/-- What is written before the line of a statement. -/
def Statement.lead : Statement → String
  | .declare (.ignore _) _ => "_ = "
  | .declare (.single _ _ _ name) _ => name ++ " = "
  | _ => ""

theorem Expr.Rows.sourceLines_eq (table : ClassTable) {e : Expr} (rows : e.Rows) :
    e.sourceLines table = e.statements.map fun s => s.lead ++ (s.line.forms table).line := by
  induction rows with
  | last flat =>
    rw [flat.statements_eq.1]
    cases flat <;> simp [sourceLines, Statement.lead, Statement.line]
  | @letIn span pattern value body _ _ ih =>
    rw [statements, map_cons, ← ih]
    cases pattern <;> rfl
  | seq _ _ ih =>
    rw [statements, map_cons, ← ih]
    simp [sourceLines, Statement.lead, Statement.line]

theorem Expr.Rows.flat {e : Expr} (rows : e.Rows) : ∀ s ∈ e.statements, s.line.Flat := by
  induction rows with
  | last flat =>
    rw [flat.statements_eq.1]
    exact forall_mem_singleton.2 flat
  | letIn flat _ ih | seq flat _ ih => exact forall_mem_cons.2 ⟨flat, ih⟩

/-- **Printing ends.** A body that was read and checked has blocks on its spine only, and it is
printed line by line. Asking for the text of a line comes to an end: no text is asked for again on
the way to itself, and each is put together from those that it asks for. -/
theorem printing_ends {source name : String} {tree : Tree.Module}
    (hparse : Tree.parse source name = .ok tree) {table table' : ClassTable} {path : ModulePath}
    {imports : List (Span × ClassId)} (hcheck : checkModule table path tree imports = .ok table')
    {c : Class} (hc : table'.get? table.size = some c) {i : Nat} {m : Method}
    (hm : c.methods[i]? = some m) (world : ClassTable) :
    ∃ e, m.body = some e ∧ e.Rows ∧
      e.sourceLines world = e.statements.map (fun s => s.lead ++ (s.line.forms world).line) ∧
      ∀ s ∈ e.statements, Acc (Asks world) (.line, s.line) ∧
        ∀ q, ReflTransGen (Asks world) q (.line, s.line) → ¬ TransGen (Asks world) q q ∧
          (q.2.forms world).get q.1 = Chunk.joined world (q.2.chunks world q.1) := by
  obtain ⟨types, outline, checked, -, hchecked, rfl⟩ := checkModule_eq_ok.1 hcheck
  cases ClassTable.get?_push_size.symm.trans hc
  obtain ⟨m₀, t, e, -, ht, rfl, n, hbody⟩ := checkBodies_getElem? hchecked hm
  have rows := ((elaborates_of_checkExpr t.body hbody).1.rows (Tree.block_of_parse hparse ht)).1
  refine ⟨e, rfl, rows, rows.sourceLines_eq world, fun s hs => ?_⟩
  have flat := rows.flat s hs
  refine ⟨acc_of_flat world flat, fun q hq => ?_⟩
  have flat' := flat_of_reflTransGen flat hq
  exact ⟨not_transGen_self flat', get_forms world flat' q.1⟩

/-- The last method of the example is a quote with two holes, one of them with a call in it. -/
theorem printing_ends_pointText : ∃ tree m e, Tree.parse pointText "Point" = .ok tree ∧
    pointClass.methods[2]? = some m ∧ m.body = some e ∧ e.Rows ∧
    e.sourceLines pointTable =
      e.statements.map (fun s => s.lead ++ (s.line.forms pointTable).line) ∧
    ∀ s ∈ e.statements, Acc (Asks pointTable) (.line, s.line) ∧
      ∀ q, ReflTransGen (Asks pointTable) q (.line, s.line) → ¬ TransGen (Asks pointTable) q q ∧
        (q.2.forms pointTable).get q.1 = Chunk.joined pointTable (q.2.chunks pointTable q.1) := by
  obtain ⟨tree, hparse, hcheck⟩ := checked_pointText
  have hsome : pointClass.methods[2]?.isSome = true := by decide +kernel
  obtain ⟨m, hm⟩ := Option.isSome_iff_exists.1 hsome
  obtain ⟨e, he, ends⟩ := printing_ends hparse hcheck get?_pointTable hm pointTable
  exact ⟨tree, m, e, hparse, hm, he, ends⟩

end ClassLang.Typed
