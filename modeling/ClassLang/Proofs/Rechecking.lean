import ClassLang.Proofs.ErasedPlaces
import ClassLang.Proofs.ParsedNames

/-!
# Checking what is written

`Expr.tree` is the tree that a typed expression is written as: the receiver goes without saying, and
a static method stands behind the name of its class where that name can be written. The main
statement is `Elaborates.written`: where a tree with words that can be written is elaborated, the tree
that its typed form is written as is elaborated to that form again, up to places.
-/

set_option autoImplicit false

namespace ClassLang.Typed

open List

/-! ## Trees as they are written -/

/-- The receiver, which goes without saying. -/
def Expr.isReceiver : Expr → Bool
  | .receiver _ _ => true
  | _ => false

/-- What stands before the arguments of a call through a type. -/
def staticTree (table : ClassTable) : Callee → Tree.Expr
  | .builtin b => .staticAccess .nowhere b.owner.name b.name
  | .method ref =>
    if startsUpper (table.className ref.owner) then
      .staticAccess .nowhere (table.className ref.owner) ref.name
    else .access .nowhere ref.name

/-- A member of a target, whose tree is given. -/
def memberOf (target : Expr) (tree : Tree.Expr) (name : String) : Tree.Expr :=
  if target.isReceiver then .access .nowhere name else .property .nowhere tree name

def Pattern.tree : Pattern → Tree.Pattern
  | .ignore _ => .ignore .nowhere
  | .single _ _ _ name => .single .nowhere name

mutual

/-- The tree that an expression is written as. -/
def Expr.tree (table : ClassTable) : Expr → Tree.Expr
  | .localVar _ _ _ name => .access .nowhere name
  | .param _ _ _ name => .access .nowhere name
  | .receiver _ _ => .access .nowhere "self"
  | .slot _ _ ref target => memberOf target (target.tree table) ref.name
  | .methodCall _ _ callee target args =>
    match isOperatorName callee.name, trees table args with
    | true, [right] => .operatorCall .nowhere (target.tree table) callee.name right
    | _, args => Grammar.callTree (memberOf target (target.tree table) callee.name) args
  | .staticCall _ _ callee args => Grammar.callTree (staticTree table callee) (trees table args)
  | .letIn _ pattern value body =>
    .letIn .nowhere pattern.tree (value.tree table) (body.tree table)
  | .seq _ first body => .seq .nowhere (first.tree table) (body.tree table)
  | .literal _ value => .literal .nowhere value
  | .quote _ head holes => .quote .nowhere head (holeTrees table holes)

def trees (table : ClassTable) : List Expr → List Tree.Expr
  | [] => []
  | e :: rest => e.tree table :: trees table rest

def holeTrees (table : ClassTable) : List (Expr × String) → List (Tree.Expr × String)
  | [] => []
  | (hole, text) :: rest => (hole.tree table, text) :: holeTrees table rest

end

theorem trees_eq (table : ClassTable) (es : List Expr) :
    trees table es = es.map (Expr.tree table) := by
  induction es with
  | nil => rfl
  | cons e es ih => rw [trees, ih, map_cons]

/-- The types in scope are shown under the names by which they are looked up, and the class itself
can be looked up where its name stands before its static methods. -/
structure BodyContext.Prints (ctx : BodyContext) (table : ClassTable) : Prop where
  owner : ctx.table.get? ctx.owner.id = some ctx.owner
  prims : ∀ name p, ctx.types.lookup? name = some (.prim p) → p.name = name
  classes : ∀ name id className, ctx.types.lookup? name = some (.object id className) →
    table.className id = name
  ownName : table.className ctx.owner.id = ctx.owner.name
  own : startsUpper ctx.owner.name = true →
    IsTypeName ctx.owner.name ∧ ctx.types.lookup? ctx.owner.name = some ctx.owner.ty

variable {name : String} {signature : Signature} {table : ClassTable} {ty : Ty} {callee : Callee}
  {className : String}

theorem isOperatorName_of_isName (h : IsName name) : isOperatorName name = false := by
  obtain ⟨first, tail, rfl, hfirst, -, -⟩ := h
  rw [isOperatorName, String.toList_ofList, head?_cons, Option.any_some]
  simp [isAlphanum_eq, hfirst]

theorem startsUpper_of_isTypeName (h : IsTypeName name) : startsUpper name = true := by
  obtain ⟨first, tail, rfl, hfirst, -⟩ := h
  rw [startsUpper, String.toList_ofList, head?_cons, Option.any_some]
  exact hfirst

theorem isOperatorName_of_isOperator (h : IsOperator name) : isOperatorName name = true := by
  obtain ⟨first, tail, rfl, hfirst, -, -⟩ := h
  obtain ⟨hdigit, hlower, hupper⟩ := classes_of_operatorChar hfirst
  rw [isOperatorName, String.toList_ofList, head?_cons, Option.any_some]
  simp [isAlphanum_eq, hdigit, hlower, hupper]

theorem name_of_find?_method (h : find? table ty name = some (.method callee signature)) :
    callee.name = name := by
  rcases find?_method_inv h with ⟨b, rfl, -, hname, -⟩ | ⟨ref, -, -, -, rfl, -, hname, -⟩
  · exact hname
  · exact hname

/-- A method that was looked up through a type is shown behind the name that was looked up, if the
types themselves are. -/
theorem static_cases {ctx : BodyContext}
    (prims : ∀ name p, ctx.types.lookup? name = some (.prim p) → p.name = name)
    (classes : ∀ name id className, ctx.types.lookup? name = some (.object id className) →
      table.className id = name) (known : ctx.types.lookup? className = some ty)
    (found : find? ctx.table ty name = some (.method callee signature)) :
    (∃ b, callee = .builtin b ∧ b.owner.name = className ∧ b.name = name) ∨
      ∃ ref, callee = .method ref ∧ table.className ref.owner = className ∧ ref.name = name := by
  rcases find?_method_inv found with
    ⟨b, rfl, rfl, hname, -⟩ | ⟨ref, cname, -, -, rfl, rfl, hname, -⟩
  · exact .inl ⟨b, rfl, prims className _ known, hname⟩
  · exact .inr ⟨ref, rfl, classes className _ cname known, hname⟩

theorem BodyContext.Prints.staticTree_eq {ctx : BodyContext} (prints : ctx.Prints table)
    (hclass : IsTypeName className) (known : ctx.types.lookup? className = some ty)
    (found : find? ctx.table ty name = some (.method callee signature)) :
    staticTree table callee = .staticAccess .nowhere className name := by
  rcases static_cases prints.prims prints.classes known found with
    ⟨b, rfl, howner, hname⟩ | ⟨ref, rfl, howner, hname⟩
  · rw [staticTree, howner, hname]
  · rw [staticTree, howner, hname, if_pos (startsUpper_of_isTypeName hclass)]

/-! ## Elaborating what is written -/

theorem eraseExprs_eq (es : List Expr) : eraseExprs es = es.map Expr.erase := by
  induction es with
  | nil => rfl
  | cons e es ih => rw [eraseExprs, ih, map_cons]

theorem length_eraseExprs (es : List Expr) : (eraseExprs es).length = es.length := by
  rw [eraseExprs_eq, length_map]

theorem eraseHoles_eq (holes : List (Expr × String)) :
    eraseHoles holes = holes.map fun hole => (hole.1.erase, hole.2) := by
  induction holes with
  | nil => rfl
  | cons hole holes ih => rw [eraseHoles, ih, map_cons]

theorem holeTrees_eq (table : ClassTable) (holes : List (Expr × String)) :
    holeTrees table holes = holes.map fun hole => (hole.1.tree table, hole.2) := by
  induction holes with
  | nil => rfl
  | cons hole holes ih => rw [holeTrees, ih, map_cons]

section Written

variable {ctx : BodyContext} {scope : Scope}

/-- The receiver is given for no tree of its own. -/
theorem Elaborates.not_receiver {tree : Tree.Expr} {n k : Nat} {e : Expr}
    (h : Elaborates ctx scope tree n e k) : e.isReceiver = false := by
  cases h <;> rfl

variable {args : List Expr} {ts : List Tree.Expr} {steps : Nat → Nat}

/-- A call between its operands. -/
theorem tree_operator {span : Span} {result : Ty} {target arg : Expr}
    (hname : IsOperator callee.name) :
    (Expr.methodCall span result callee target [arg]).tree table =
      .operatorCall .nowhere (target.tree table) callee.name (arg.tree table) := by
  rw [Expr.tree, isOperatorName_of_isOperator hname, trees, trees]

/-- A call with its arguments behind it. -/
theorem tree_method {span : Span} {result : Ty} {target : Expr} (hname : IsName callee.name) :
    (Expr.methodCall span result callee target args).tree table =
      Grammar.callTree (memberOf target (target.tree table) callee.name) (trees table args) := by
  rw [Expr.tree, isOperatorName_of_isName hname]

/-- A member of the class itself is found in the table too. -/
theorem BodyContext.Prints.find?_own (prints : ctx.Prints table) {index : Nat} {m : Method}
    (member : ctx.owner.member? name = some (.method index m)) :
    find? ctx.table ctx.owner.ty name =
      some (.method (.method ⟨ctx.owner.id, index, name⟩) m.signature) := by
  rw [Class.ty, find?, prints.owner, Option.bind_some, member]
  rfl

/-- The arguments of a call, as they are written. -/
theorem elaborates_trees {params : List Ty} (fits : args.map Expr.ty = params)
    (count : args.length = ts.length) (lines : ∀ t ∈ ts, t.Line)
    (each : ∀ i t arg, ts[i]? = some t → args[i]? = some arg → t.Block →
      Elaborates ctx scope (arg.tree table) (steps i) arg.erase (steps (i + 1))) :
    ElaboratesArgs ctx scope (trees table args) params (eraseExprs args) steps := by
  rw [trees_eq, eraseExprs_eq]
  refine ⟨?_, ?_, ?_⟩
  · rw [← fits, map_map]
    exact map_congr_left fun arg _ => arg.ty_erase
  · rw [length_map, length_map]
  · intro i t e ht he
    rw [getElem?_map, Option.map_eq_some_iff] at ht he
    obtain ⟨arg, harg, rfl⟩ := ht
    obtain ⟨arg', harg', rfl⟩ := he
    cases harg.symm.trans harg'
    exact forall_of_each count (fun i t arg ht harg =>
      each i t arg ht harg (.last (lines t (mem_of_getElem? ht)))) harg

/-- A call through a type, with or without arguments. -/
theorem ElaboratesArgs.classHead (h : ElaboratesArgs ctx scope ts signature.params args steps)
    (found : ctx.staticMethod .nowhere className name = .ok (callee, signature)) :
    Elaborates ctx scope (Grammar.callTree (.staticAccess .nowhere className name) ts) (steps 0)
      (.staticCall .nowhere signature.result callee args) (steps args.length) := by
  obtain ⟨_, form, hspan⟩ := exists_classCall .nowhere className name ts
  obtain rfl := hspan rfl
  exact .classCall form found h.fits h.count h.each

/-- A call by a bare name, with or without arguments. -/
theorem ElaboratesArgs.bareHead {target? : Option Expr}
    (h : ElaboratesArgs ctx scope ts signature.params args steps) (free : scope.lookup? name = none)
    (hown : ctx.ownMethod .nowhere name = .ok (callee, signature, target?)) :
    Elaborates ctx scope (Grammar.callTree (.access .nowhere name) ts) (steps 0)
      (ownCall .nowhere callee signature target? args) (steps args.length) := by
  obtain ⟨_, form, hspan⟩ := exists_bareCall .nowhere name ts
  obtain rfl := hspan rfl
  exact elaborates_ownCall form free hown h

/-- What is written for a typed form is elaborated to that form. The induction is on the elaboration
that it came from, one case for each form of a tree. -/
theorem Elaborates.written (prints : ctx.Prints table) {tree : Tree.Expr} {n k : Nat} {e : Expr}
    (h : Elaborates ctx scope tree n e k) (block : tree.Block) :
    Elaborates ctx scope (e.tree table) n e.erase k := by
  induction h with
  | ignore _ _ ihValue ihBody =>
    obtain ⟨line, others⟩ := block.letIn_inv
    exact .ignore (ihValue (.last line)) (ihBody others)
  | @declare _ _ _ name _ _ value _ _ m _ free _ _ ihValue ihBody =>
    obtain ⟨line, others⟩ := block.letIn_inv
    have hbody := ihBody others
    rw [← value.ty_erase] at hbody
    rw [Expr.tree, Expr.erase, Pattern.erase, ← value.ty_erase]
    exact .declare free (ihValue (.last line)) hbody
  | seq _ _ ihFirst ihBody =>
    obtain ⟨line, others⟩ := block.seq_inv
    exact .seq (ihFirst (.last line)) (ihBody others)
  | param bound hbinding => exact .param bound hbinding
  | localVar bound hbinding => exact .localVar bound hbinding
  | ownSlot free found present => exact .ownSlot free found present
  | ownStatic form free found static fits count _ ih =>
    have lines := (lines_of_bareCall block form).2
    have hargs := elaborates_trees fits count lines ih
    rw [Expr.tree, staticTree, prints.ownName, ← length_eraseExprs]
    split
    · -- behind the name of the class
      next hupper =>
        have hknown := (prints.own hupper).2
        exact hargs.classHead (staticMethod_of_find? hknown (prints.find?_own found) static)
    · exact hargs.bareHead free (ownMethod_of_static found static)
  | @ownInstance _ _ _ name _ _ index _ _ form free found notStatic present fits count _ ih =>
    obtain ⟨hname, lines⟩ := lines_of_bareCall block form
    have hargs := elaborates_trees fits count lines ih
    have hcallee : IsName (Callee.method ⟨ctx.owner.id, index, name⟩).name := hname
    rw [tree_method hcallee, ← length_eraseExprs]
    exact hargs.bareHead free (ownMethod_of_member found notStatic present)
  | classCall form found fits count _ ih =>
    obtain ⟨⟨hclass, -⟩, lines⟩ := lines_of_classCall block form
    have hargs := elaborates_trees fits count lines ih
    obtain ⟨ty, known, hfound, static⟩ := staticMethod_inv found
    rw [Expr.tree, prints.staticTree_eq hclass known hfound, ← length_eraseExprs]
    exact hargs.classHead (staticMethod_of_find? known hfound static)
  | @memberCall _ _ _ _ _ _ target args _ _ _ _ form htarget found fits count _ ihTarget ih =>
    obtain ⟨hform, line, lines⟩ := lines_of_memberCall block form
    have hargs := elaborates_trees fits count lines ih
    obtain ⟨hfound, notStatic⟩ := instanceMethod_inv found
    obtain rfl := name_of_find?_method hfound
    rw [← target.ty_erase] at hfound
    have hmethod := @instanceMethod_of_find? _ _ ctx .nowhere _ _ hfound notStatic
    rw [← length_eraseExprs]
    rcases hform with ⟨hname, hone⟩ | ⟨hname, some_arg⟩
    · obtain ⟨arg, rfl⟩ := length_eq_one_iff.1 (count.trans hone)
      rw [tree_operator hname]
      exact .memberCall .operator (ihTarget (.last line)) hmethod hargs.fits hargs.count hargs.each
    have hsome : (trees table args).isEmpty = false := by
      rw [trees_eq, isEmpty_map, isEmpty_eq_false_iff]
      rintro rfl
      exact some_arg (eq_nil_of_length_eq_zero count.symm)
    rw [tree_method hname, memberOf, htarget.not_receiver, Grammar.callTree, hsome]
    exact .memberCall .call (ihTarget (.last line)) hmethod hargs.fits hargs.count hargs.each
  | @slot _ _ _ _ target _ _ _ _ htarget found ih =>
    obtain ⟨-, -, -, -, rfl, -⟩ := find?_slot_inv found
    rw [← target.ty_erase] at found
    rw [Expr.tree, memberOf, htarget.not_receiver]
    cases block with
    | last line =>
      cases line with
      | property target_line hname => exact .slot (ih (.last target_line)) found
  | literal => exact .literal
  | @quote _ _ _ _ holes _ fits texts _ ih =>
    have count := congrArg length texts
    rw [length_map, length_map] at count
    cases block with
    | last line =>
      cases line with
      | quote _ _ lines _ =>
        have hcount : (eraseHoles holes).length = holes.length := by
          rw [eraseHoles_eq, length_map]
        rw [Expr.tree, Expr.erase, holeTrees_eq, ← hcount, eraseHoles_eq]
        refine .quote ?_ ?_ ?_
        · intro hole hmem
          obtain ⟨hole', hmem', rfl⟩ := mem_map.1 hmem
          exact hole'.1.ty_erase.trans (fits hole' hmem')
        · rw [map_map, map_map]
          rfl
        · intro i t hole ht hhole
          rw [getElem?_map, Option.map_eq_some_iff] at ht hhole
          obtain ⟨hole₁, hhole₁, rfl⟩ := ht
          obtain ⟨hole₂, hhole₂, rfl⟩ := hhole
          cases hhole₁.symm.trans hhole₂
          exact forall_of_each count (fun i t hole ht hhole => ih i t hole ht hhole
            (.last (lines t (mem_of_getElem? ht)))) hhole₁

end Written

end ClassLang.Typed
