import ClassLang.Proofs.Elaboration
import ClassLang.Proofs.Spelling

/-!
# Trees of lines

`Tree.Expr.Line` says which trees are those of an expression within a line, with words that can be
written, and `Tree.Expr.Block` does so for the lines of a body. Neither depends on the places in a
tree (`block_of_erase`), and what a call is made of are lines again, in each form that a call has.
-/

set_option autoImplicit false

namespace ClassLang

/-! ## Lines and blocks -/

namespace Tree

/-- The tree of an expression within a line, with words that can be written. -/
inductive Expr.Line : Expr → Prop where
  | access {span name} (hname : IsName name) : Line (.access span name)
  | staticAccess {span className name} (hclass : IsTypeName className)
      (hname : IsName name) : Line (.staticAccess span className name)
  | operatorCall {span left right operator} (left_line : Line left)
      (hname : IsOperator operator) (right_line : Line right) :
      Line (.operatorCall span left operator right)
  | call {span target args} (target_line : Line target)
      (some_arg : args ≠ []) (lines : ∀ arg ∈ args, Line arg) : Line (.call span target args)
  | property {span target name} (target_line : Line target)
      (hname : IsName name) : Line (.property span target name)
  | literal {span value} (hvalue : (Token.literal value).Spelled) : Line (.literal span value)
  | quote {span head holes} (hhead : IsQuoteText head)
      (some_hole : holes ≠ []) (lines : ∀ hole ∈ holes, Line hole.1)
      (texts : ∀ hole ∈ holes, IsQuoteText hole.2) : Line (.quote span head holes)

/-- A pattern with names that can be written. -/
def Pattern.Spelled : Pattern → Prop
  | .single _ name => IsName name
  | _ => True

/-- The tree of a block of lines. -/
inductive Expr.Block : Expr → Prop where
  | last {value : Expr} (line : value.Line) : Block value
  | seq {span} {first rest : Expr} (line : first.Line) (others : Block rest) :
      Block (.seq span first rest)
  | letIn {span} {pattern : Pattern} {value rest : Expr} (hpattern : pattern.Spelled)
      (line : value.Line) (others : Block rest) : Block (.letIn span pattern value rest)

/-! ## Places -/

theorem mem_eraseHoles : ∀ {holes : List (Expr × String)} {hole : Expr × String},
    hole ∈ holes → (hole.1.erase, hole.2) ∈ eraseHoles holes
  | _, _, .head _ => .head _
  | _, _, .tail _ h => .tail _ (mem_eraseHoles h)

mutual

/-- Whether a tree is one of a line does not depend on its places. -/
theorem line_of_erase : ∀ (e : Expr), e.erase.Line → e.Line
  | .access .., .access hname => .access hname
  | .staticAccess .., .staticAccess hclass hname => .staticAccess hclass hname
  | .operatorCall _ left _ right, .operatorCall hleft hname hright =>
    .operatorCall (line_of_erase left hleft) hname (line_of_erase right hright)
  | .call _ target args, .call htarget some_arg lines => by
    refine .call (line_of_erase target htarget) ?_ (lines_of_erase args lines)
    rintro rfl
    exact some_arg rfl
  | .property _ target _, .property htarget hname => .property (line_of_erase target htarget) hname
  | .literal .., .literal hvalue => .literal hvalue
  | .quote _ _ holes, .quote hhead some_hole lines texts => by
    refine .quote hhead ?_ (holeLines_of_erase holes lines) ?_
    · rintro rfl
      exact some_hole rfl
    · intro hole hmem
      exact texts (hole.1.erase, hole.2) (mem_eraseHoles hmem)

theorem lines_of_erase : ∀ (es : List Expr), (∀ e ∈ eraseExprs es, e.Line) → ∀ e ∈ es, e.Line
  | [], _ => List.forall_mem_nil _
  | e :: es, h =>
    have ⟨first, rest⟩ := List.forall_mem_cons.1 h
    List.forall_mem_cons.2 ⟨line_of_erase e first, lines_of_erase es rest⟩

theorem holeLines_of_erase : ∀ (holes : List (Expr × String)),
    (∀ hole ∈ eraseHoles holes, hole.1.Line) → ∀ hole ∈ holes, hole.1.Line
  | [], _ => List.forall_mem_nil _
  | (e, _) :: holes, h =>
    have ⟨first, rest⟩ := List.forall_mem_cons.1 h
    List.forall_mem_cons.2 ⟨line_of_erase e first, holeLines_of_erase holes rest⟩

end

theorem spelled_of_erase {pattern : Pattern} (h : pattern.erase.Spelled) : pattern.Spelled := by
  cases pattern <;> exact h

theorem block_of_erase {e tree : Expr} (h : tree.Block) (herase : e.erase = tree) : e.Block := by
  induction h generalizing e with
  | last line => exact .last (line_of_erase e (herase ▸ line))
  | seq line _ ih =>
    cases e <;> rw [Expr.erase] at herase <;> cases herase
    exact .seq (line_of_erase _ line) (ih rfl)
  | letIn hpattern line _ ih =>
    cases e <;> rw [Expr.erase] at herase <;> cases herase
    exact .letIn (spelled_of_erase hpattern) (line_of_erase _ line) (ih rfl)

end Tree

/-! ## Lines of a block -/

namespace Tree.Expr.Block

variable {span : Span} {first rest : Expr} {pattern : Pattern}

theorem letIn_inv (h : Block (.letIn span pattern first rest)) : first.Line ∧ rest.Block := by
  cases h with
  | last line => cases line
  | letIn _ line others => exact ⟨line, others⟩

theorem seq_inv (h : Block (.seq span first rest)) : first.Line ∧ rest.Block := by
  cases h with
  | last line => cases line
  | seq line others => exact ⟨line, others⟩

end Tree.Expr.Block

section Forms

variable {tree : Tree.Expr} {trees : List Tree.Expr} {span : Span} {name : String}

/-- The name and the arguments of a call by a bare name. -/
theorem lines_of_bareCall : tree.Block → tree.BareCall span name trees →
    IsName name ∧ ∀ arg ∈ trees, arg.Line
  | .last (.access hname), .access => ⟨hname, List.forall_mem_nil _⟩
  | .last (.call (.access hname) _ lines), .call => ⟨hname, lines⟩

/-- The names and the arguments of a call through a type. -/
theorem lines_of_classCall {className : String} :
    tree.Block → tree.ClassCall span className name trees →
    (IsTypeName className ∧ IsName name) ∧ ∀ arg ∈ trees, arg.Line
  | .last (.staticAccess hclass hname), .access => ⟨⟨hclass, hname⟩, List.forall_mem_nil _⟩
  | .last (.call (.staticAccess hclass hname) _ lines), .call => ⟨⟨hclass, hname⟩, lines⟩

/-- The name, the target and the arguments of a call on a value. -/
theorem lines_of_memberCall {receiver : Tree.Expr} :
    tree.Block → tree.MemberCall span receiver name trees →
    (IsOperator name ∧ trees.length = 1 ∨ IsName name ∧ trees ≠ []) ∧
      receiver.Line ∧ ∀ arg ∈ trees, arg.Line
  | .last (.operatorCall left hname right), .operator =>
    ⟨.inl ⟨hname, rfl⟩, left, List.forall_mem_singleton.2 right⟩
  | .last (.call (.property target hname) some_arg lines), .call =>
    ⟨.inr ⟨hname, some_arg⟩, target, lines⟩

/-- What each argument or hole has if its tree is a line, they all have. -/
theorem forall_of_lines {α β : Type} {ts : List α} {items : List β} {P : α → Prop} {Q : β → Prop}
    (count : items.length = ts.length) (lines : ∀ t ∈ ts, P t)
    (each : ∀ (i : Nat) t item, ts[i]? = some t → items[i]? = some item → P t → Q item) :
    ∀ item ∈ items, Q item := by
  intro item hitem
  obtain ⟨i, hi⟩ := List.mem_iff_getElem?.1 hitem
  exact Typed.forall_of_each count (fun i t item ht hi => each i t item ht hi
    (lines t (List.mem_of_getElem? ht))) hi

end Forms

end ClassLang
