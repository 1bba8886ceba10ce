import ClassLang.Proofs.Rechecking

/-!
# The text of a typed body

The three forms in which an expression is printed, and the lines of a body, are read as derivations
of the grammar whose tree is the one that the expression is written as. `Forms.Phrased` says so of
the forms of one expression: a whole line, the left side of an operator, and an argument or target.
The main statements are `Elaborates.phrased`, by induction on the elaboration of a line, and
`Elaborates.exists_block`, which reads the printed lines one after the other.
-/

set_option autoImplicit false

namespace ClassLang.Typed

open List Grammar Expr

/-! ## Forms -/

/-- What may follow any phrase, with the dot that only a target has behind it. -/
def phraseEnds : List Char := '.' :: lineEnds

/-- What may follow an argument or a target of this type: only an object has members. -/
def atomEnds : Ty → List Char
  | .prim _ => lineEnds
  | .object _ _ => phraseEnds

theorem atomEnds_subset (ty : Ty) : atomEnds ty ⊆ phraseEnds := by
  cases ty with
  | prim p => exact subset_cons_self _ _
  | object id name => exact Subset.refl _

theorem lineEnds_subset (ty : Ty) : lineEnds ⊆ atomEnds ty := by
  cases ty with
  | prim p => exact Subset.refl _
  | object id name => exact subset_cons_self _ _

theorem toList_intercalate_cons (sep first : String) {others : List String} (h : others ≠ []) :
    (sep.intercalate (first :: others)).toList =
      first.toList ++ (sep.toList ++ (sep.intercalate others).toList) := by
  obtain ⟨next, others, rfl⟩ := exists_cons_of_ne_nil h
  rw [String.toList_intercalate, String.toList_intercalate, map_cons, map_cons,
    intercalate_cons_cons, append_assoc]

variable {tree : Tree.Expr} {tokens : List Token} {w : List Char}

namespace Forms

/-- The text of an expression on the left side of an operator. -/
def operand (forms : Forms) : String :=
  if forms.isOperatorCall then "(" ++ forms.line ++ ")" else forms.call

/-- The forms are read as phrases with this tree, and what is no whole line may be followed by
`ends`. -/
structure Phrased (forms : Forms) (ends : List Char) (tree : Tree.Expr) : Prop where
  line : ∃ g : Grammar.Expr, Spells lineEnds forms.line.toList g.tokens ∧ g.tree = tree
  operand : ∃ (first : Part) (others : List Part),
    Spells lineEnds forms.operand.toList ((first :: others).flatMap Part.tokens) ∧
    callTree first.tree (partTrees others) = tree
  atom : ∃ part : Part, Spells ends forms.atom.toList part.tokens ∧ part.tree = tree
  explicit : forms.isReceiver = false

variable {ends : List Char}

theorem phrased_ofAtom {text : String} {part : Grammar.Part}
    (spells : Spells ends text.toList part.tokens) (htree : part.tree = tree)
    (hends : lineEnds ⊆ ends) : (ofAtom text).Phrased ends tree where
  line := by
    refine ⟨.parts part [], ?_, htree⟩
    rw [tokens_parts, flatMap_singleton]
    exact spells.mono hends
  operand := by
    refine ⟨part, [], ?_, htree⟩
    rw [flatMap_singleton]
    exact spells.mono hends
  atom := ⟨part, spells, htree⟩
  explicit := rfl

/-- A phrase in parentheses. -/
theorem exists_paren {text : String} {g : Grammar.Expr} (spells : Spells lineEnds text.toList g.tokens)
    (hends : ends ⊆ phraseEnds) : ∃ part : Grammar.Part,
      Spells ends ("(" ++ text ++ ")").toList part.tokens ∧ part.tree = g.tree := by
  refine ⟨.mk (.paren g) [], ?_, rfl⟩
  have hparen := (spells.paren (by decide) '.' lineEnds).mono hends
  have htokens : (Grammar.Part.mk (.paren g) []).tokens =
      .leftParen :: (g.tokens ++ [.rightParen]) := by
    simp [Part.tokens, Head.tokens, memberTokens]
  rw [htokens, String.toList_append, String.toList_append]
  exact hparen

/-- The forms of arguments, with their trees. -/
def ArgsPhrased (args : List Forms) (trees : List Tree.Expr) : Prop :=
  Forall₂ (fun forms tree => ∃ ends, lineEnds ⊆ ends ∧ forms.Phrased ends tree) args trees

/-- Arguments behind a head, each behind a space. -/
theorem spells_args {head : String} (hhead : Spells lineEnds head.toList tokens) {args : List Forms}
    {trees : List Tree.Expr} (hargs : ArgsPhrased args trees) : ∃ others : List Part,
      Spells lineEnds (" ".intercalate (head :: args.map Forms.atom)).toList
        (tokens ++ others.flatMap Part.tokens) ∧ partTrees others = trees := by
  induction hargs generalizing head tokens with
  | nil =>
    refine ⟨[], ?_, rfl⟩
    simpa using hhead
  | @cons forms tree args trees hfirst _ ih =>
    obtain ⟨ends, hends, phrased⟩ := hfirst
    obtain ⟨part, hpart, htree⟩ := phrased.atom
    obtain ⟨others, hothers, htrees⟩ := ih (hpart.mono hends)
    refine ⟨part :: others, ?_, ?_⟩
    · rw [map_cons, toList_intercalate_cons _ _ (cons_ne_nil _ _), flatMap_cons]
      exact hhead.space hothers (by decide)
    · rw [partTrees, htree, htrees]

theorem phrased_ofCall {head : String} {first : Part}
    (hhead : Spells phraseEnds head.toList first.tokens) {args : List Forms}
    {trees : List Tree.Expr} (hargs : ArgsPhrased args trees) (hends : ends ⊆ phraseEnds) :
    (ofCall head args).Phrased ends (callTree first.tree trees) := by
  obtain ⟨others, hspells, htrees⟩ := spells_args (hhead.mono (subset_cons_self _ _)) hargs
  have hparts : Spells lineEnds (" ".intercalate (head :: args.map Forms.atom)).toList
      ((first :: others).flatMap Part.tokens) := hspells
  have htree : callTree first.tree (partTrees others) =
      Grammar.callTree first.tree trees := by rw [htrees]
  refine ⟨⟨.parts first others, ?_, htree⟩, ⟨first, others, hparts, htree⟩, ?_, rfl⟩
  · rw [tokens_parts]
    exact hparts
  · -- a call without arguments needs no parentheses
    cases hargs with
    | nil =>
      refine ⟨first, ?_, rfl⟩
      have htext : (" ".intercalate [head]).toList = head.toList := by
        simp
      change Spells ends (" ".intercalate [head]).toList first.tokens
      rw [htext]
      exact hhead.mono hends
    | cons _ _ =>
      rw [← tokens_parts] at hparts
      obtain ⟨part, hpart, hparttree⟩ := exists_paren hparts hends
      exact ⟨part, hpart, hparttree.trans htree⟩

theorem phrased_ofOperator {left right : Forms} {operator : String} {leftEnds rightEnds : List Char}
    {leftTree rightTree : Tree.Expr} (hleft : left.Phrased leftEnds leftTree)
    (hoperator : IsOperator operator) (hright : right.Phrased rightEnds rightTree)
    (hends : ends ⊆ phraseEnds) : (ofOperator left operator right).Phrased ends
      (.operatorCall .nowhere leftTree operator rightTree) := by
  obtain ⟨first, others, hoperand, hlefttree⟩ := hleft.operand
  obtain ⟨g, hline, hrighttree⟩ := hright.line
  have htree : (Grammar.Expr.operator first others operator g).tree =
      .operatorCall .nowhere leftTree operator rightTree := by
    rw [Grammar.Expr.tree, hlefttree, hrighttree]
  have hspells : Spells lineEnds
      (left.operand ++ " " ++ operator ++ " " ++ right.line).toList
      (Grammar.Expr.operator first others operator g).tokens := by
    have hall := hoperand.space ((spells_operator hoperator).space hline (by decide)) (by decide)
    rw [tokens_operator]
    simpa [String.toList_append] using hall
  obtain ⟨part, hpart, hparttree⟩ := exists_paren hspells hends
  obtain ⟨part', hpart', hparttree'⟩ := exists_paren hspells (subset_cons_self _ _)
  refine ⟨⟨_, hspells, htree⟩, ⟨part', [], ?_, hparttree'.trans htree⟩,
    ⟨part, hpart, hparttree.trans htree⟩, rfl⟩
  rw [flatMap_singleton]
  exact hpart'

variable {name : String}

theorem phrased_name (hname : IsName name) (hends : lineEnds ⊆ ends) (hends' : ends ⊆ phraseEnds) :
    (ofAtom name).Phrased ends (.access .nowhere name) := by
  have hpart : Spells ends name.toList (Grammar.Part.mk (.name name) []).tokens :=
    (spells_name hname).mono hends'
  exact phrased_ofAtom hpart rfl hends

/-- A member behind its target, as a part of a line. -/
theorem exists_member {target : Forms} (h : target.Phrased phraseEnds tree) (hname : IsName name) :
    ∃ part : Part,
      Spells phraseEnds (target.memberHead name).toList part.tokens ∧
      part.tree = .property .nowhere tree name := by
  obtain ⟨⟨head, names⟩, hpart, rfl⟩ := h.atom
  refine ⟨.mk head (names ++ [name]), ?_, Tree.Parse.memberTree_concat _ names name⟩
  have htext : (target.memberHead name).toList = target.atom.toList ++ '.' :: name.toList := by
    rw [memberHead, h.explicit]
    simp
  have htokens : (Grammar.Part.mk head (names ++ [name])).tokens =
      (Grammar.Part.mk head names).tokens ++ [.dot, .name name] := by
    simp [Part.tokens, memberTokens]
  rw [htext, htokens]
  exact hpart.append (spells_member hname) (by simp [phraseEnds])

/-- A method without the name of its class. -/
theorem spells_bareName (hname : IsName name) :
    Spells phraseEnds name.toList (Grammar.Part.mk (.name name) []).tokens :=
  spells_name hname

/-- A method behind the name of its class. -/
theorem spells_staticName {className : String} (hclass : IsTypeName className) (hname : IsName name) :
    Spells phraseEnds (className ++ "." ++ name).toList
      (Grammar.Part.mk (.staticName className name) []).tokens := by
  have hall := (spells_typeName hclass).append (spells_member hname) (by simp)
  have htext : (className ++ "." ++ name).toList = className.toList ++ '.' :: name.toList := by simp
  rw [htext]
  exact hall

end Forms

/-! ## Lines -/

section Lines

open Forms (Phrased)

variable {ctx : BodyContext} {scope : Scope} {table : ClassTable}

mutual

/-- No floating-point literal stands in the expression. -/
def Expr.floatFree : Expr → Bool
  | .localVar _ _ _ _ => true
  | .param _ _ _ _ => true
  | .receiver _ _ => true
  | .slot _ _ _ target => target.floatFree
  | .methodCall _ _ _ target args => target.floatFree && floatFreeList args
  | .staticCall _ _ _ args => floatFreeList args
  | .letIn _ _ value body => value.floatFree && body.floatFree
  | .seq _ first body => first.floatFree && body.floatFree
  | .literal _ (.float _) => false
  | .literal _ _ => true
  | .quote _ _ holes => floatFreeHoles holes

def floatFreeList : List Expr → Bool
  | [] => true
  | e :: rest => e.floatFree && floatFreeList rest

def floatFreeHoles : List (Expr × String) → Bool
  | [] => true
  | (hole, _) :: rest => hole.floatFree && floatFreeHoles rest

end

theorem floatFreeList_eq (args : List Expr) : floatFreeList args = args.all floatFree := by
  induction args with
  | nil => rfl
  | cons e rest ih => rw [floatFreeList, ih, all_cons]

theorem floatFreeHoles_eq (holes : List (Expr × String)) :
    floatFreeHoles holes = holes.all fun hole => hole.1.floatFree := by
  induction holes with
  | nil => rfl
  | cons hole rest ih => rw [floatFreeHoles, ih, all_cons]

theorem argsPhrased {args : List Expr}
    (h : ∀ arg ∈ args, (arg.forms table).Phrased (atomEnds arg.ty) (arg.tree table)) :
    Forms.ArgsPhrased (formsList table args) (trees table args) := by
  induction args with
  | nil => exact .nil
  | cons arg args ih =>
    obtain ⟨hfirst, hrest⟩ := forall_mem_cons.1 h
    exact .cons ⟨_, lineEnds_subset arg.ty, hfirst⟩ (ih hrest)

/-- The holes of a quote behind the brace that opens the first. -/
theorem exists_holes {holes : List (Expr × String)} (some_hole : holes ≠ [])
    (h : ∀ hole ∈ holes, (hole.1.forms table).Phrased (atomEnds hole.1.ty) (hole.1.tree table))
    (texts : ∀ hole ∈ holes, IsQuoteText hole.2) : ∃ (d : Grammar.Holes) (w : List Char),
      (String.join (holeSources table holes)).toList ++ ['"'] = '{' :: w ∧
      SpellsHoles w d.tokens ∧ d.tree = holeTrees table holes := by
  induction holes with
  | nil => exact absurd rfl some_hole
  | cons hole holes ih =>
    obtain ⟨e, text⟩ := hole
    obtain ⟨hfirst, hrest⟩ := forall_mem_cons.1 h
    obtain ⟨htext, htexts⟩ := forall_mem_cons.1 texts
    obtain ⟨g, hline, htree⟩ := hfirst.line
    have hsource : (String.join (holeSources table ((e, text) :: holes))).toList ++ ['"'] =
        '{' :: ((e.forms table).line.toList ++ '}' :: ((escapedText text).toList ++
          ((String.join (holeSources table holes)).toList ++ ['"']))) := by
      rw [holeSources, String.join_cons]
      simp
    rw [hsource]
    cases holes with
    | nil =>
      refine ⟨.last g text, _, rfl, ?_, ?_⟩
      · exact SpellsHoles.last hline htext
      · rw [Grammar.Holes.tree, htree]
        rfl
    | cons next others =>
      obtain ⟨d, w, hw, hspells, htrees⟩ := ih (by simp) hrest htexts
      rw [hw]
      refine ⟨.more g text d, _, rfl, SpellsHoles.more hline htext hspells, ?_⟩
      rw [Grammar.Holes.tree, htree, htrees]
      rfl

/-- Only operators are called on values of the builtin types. -/
theorem not_isName_of_instance {b : Builtin} (h : b.isStatic = false) : ¬ IsName b.name := by
  have hoperator : isOperatorName b.name = true := by
    revert h
    cases b <;> decide
  intro hname
  rw [isOperatorName_of_isName hname] at hoperator
  cases hoperator

/-- What has a member with a name of its own is an object, which may be followed by a dot. -/
theorem atomEnds_of_slot {ty slotTy : Ty} {name : String} {ref : SlotRef}
    (found : find? ctx.table ty name = some (.slot ref slotTy)) : atomEnds ty = phraseEnds := by
  cases ty with
  | prim p =>
    obtain ⟨b, -, heq⟩ := Option.map_eq_some_iff.1 found
    cases heq
  | object id className => rfl

variable {callee : Callee}

theorem atomEnds_of_method {ty : Ty} {name : String} {signature : Signature} (hname : IsName name)
    (found : find? ctx.table ty name = some (.method callee signature))
    (called : signature.isStatic = false) : atomEnds ty = phraseEnds := by
  have hcallee := name_of_find?_method found
  cases ty with
  | prim p =>
    obtain ⟨b, -, heq⟩ := Option.map_eq_some_iff.1 found
    cases heq
    obtain rfl : b.name = name := hcallee
    exact absurd hname (not_isName_of_instance called)
  | object id className => rfl

/-- The text before the arguments of a method that was looked up through a type. -/
theorem staticHead_eq (prims : ∀ name p, ctx.types.lookup? name = some (.prim p) → p.name = name)
    (classes : ∀ name id className, ctx.types.lookup? name = some (.object id className) →
      table.className id = name) {className name : String} (hclass : IsTypeName className) {ty : Ty}
    (known : ctx.types.lookup? className = some ty) {signature : Signature}
    (found : find? ctx.table ty name = some (.method callee signature)) :
    staticHead table callee = className ++ "." ++ name := by
  rcases static_cases prims classes known found with
    ⟨b, rfl, howner, hname⟩ | ⟨ref, rfl, howner, hname⟩
  · rw [staticHead, Builtin.fullName, howner, hname]
  · rw [staticHead, howner, hname, if_pos (startsUpper_of_isTypeName hclass)]

theorem forms_operator {span : Span} {result : Ty} {target arg : Expr}
    (hname : IsOperator callee.name) :
    (Expr.methodCall span result callee target [arg]).forms table =
      .ofOperator (target.forms table) callee.name (arg.forms table) := by
  rw [Expr.forms, isOperatorName_of_isOperator hname, formsList, formsList]

theorem forms_method {span : Span} {result : Ty} {target : Expr} {args : List Expr}
    (hname : IsName callee.name) :
    (Expr.methodCall span result callee target args).forms table =
      .ofCall ((target.forms table).memberHead callee.name) (formsList table args) := by
  rw [Expr.forms, isOperatorName_of_isName hname]

/-- The forms of a typed line are read as the tree that the line is written as. -/
theorem Elaborates.phrased (prints : ctx.Prints table) {n k : Nat} {e : Expr}
    (h : Elaborates ctx scope tree n e k) (line : tree.Line) (free : e.floatFree = true) :
    (e.forms table).Phrased (atomEnds e.ty) (e.tree table) := by
  induction h with
  | ignore => cases line
  | declare => cases line
  | seq => cases line
  | param | localVar | ownSlot =>
    cases line with
    | access hname => exact Forms.phrased_name hname (lineEnds_subset _) (atomEnds_subset _)
  | @slot _ _ _ _ _ _ ty _ _ htarget found ih =>
    obtain ⟨-, -, -, -, rfl, -⟩ := find?_slot_inv found
    cases line with
    | property target_line hname =>
      have target := ih target_line free
      rw [atomEnds_of_slot found] at target
      obtain ⟨part, hpart, htree⟩ := Forms.exists_member target hname
      rw [Expr.forms, Expr.tree, memberOf, htarget.not_receiver]
      exact Forms.phrased_ofAtom (hpart.mono (atomEnds_subset ty)) htree (lineEnds_subset ty)
  | @ownInstance _ _ _ name _ _ index m _ form _ _ _ _ _ count _ ih =>
    obtain ⟨hname, lines⟩ := lines_of_bareCall (.last line) form
    have hcallee : IsName (Callee.method ⟨ctx.owner.id, index, name⟩).name := hname
    rw [forms_method hcallee, tree_method hcallee]
    rw [Expr.floatFree, Bool.and_eq_true, floatFreeList_eq, all_eq_true] at free
    have hargs := fun arg harg => forall_of_lines count lines ih arg harg (free.2 arg harg)
    exact Forms.phrased_ofCall (Forms.spells_bareName hname) (argsPhrased hargs)
      (atomEnds_subset m.returnType)
  | @ownStatic _ _ _ _ _ _ _ m _ form _ _ _ _ count _ ih =>
    obtain ⟨hname, lines⟩ := lines_of_bareCall (.last line) form
    rw [Expr.floatFree, floatFreeList_eq, all_eq_true] at free
    have hargs := argsPhrased fun arg harg =>
      forall_of_lines count lines ih arg harg (free arg harg)
    rw [Expr.forms, Expr.tree, staticHead, staticTree]
    dsimp only
    rw [prints.ownName]
    split
    · next hupper =>
      have hhead := Forms.spells_staticName (prints.own hupper).1 hname
      exact Forms.phrased_ofCall hhead hargs (atomEnds_subset m.returnType)
    · exact Forms.phrased_ofCall (Forms.spells_bareName hname) hargs (atomEnds_subset m.returnType)
  | @memberCall _ _ _ _ _ _ target args _ signature _ _ form htarget found _ count _ ihTarget ih =>
    obtain ⟨hform, target_line, lines⟩ := lines_of_memberCall (.last line) form
    obtain ⟨hfound, notStatic⟩ := instanceMethod_inv found
    rw [Expr.floatFree, Bool.and_eq_true, floatFreeList_eq, all_eq_true] at free
    have hargs := fun arg harg => forall_of_lines count lines ih arg harg (free.2 arg harg)
    have htargetForms := ihTarget target_line free.1
    rcases hform with ⟨hname, hone⟩ | ⟨hname, some_arg⟩
    · obtain rfl := name_of_find?_method hfound
      obtain ⟨arg, rfl⟩ := length_eq_one_iff.1 (count.trans hone)
      rw [forms_operator hname, tree_operator hname]
      exact Forms.phrased_ofOperator htargetForms hname (hargs arg mem_cons_self)
        (atomEnds_subset signature.result)
    rw [atomEnds_of_method hname hfound notStatic] at htargetForms
    obtain rfl := name_of_find?_method hfound
    obtain ⟨part, hpart, htree⟩ := Forms.exists_member htargetForms hname
    rw [forms_method hname, tree_method hname, memberOf, htarget.not_receiver,
      if_neg (by simp), ← htree]
    exact Forms.phrased_ofCall hpart (argsPhrased hargs) (atomEnds_subset signature.result)
  | @classCall _ _ _ _ _ _ _ _ signature _ form found _ count _ ih =>
    obtain ⟨⟨hclass, hname⟩, lines⟩ := lines_of_classCall (.last line) form
    obtain ⟨ty, known, hfound, -⟩ := staticMethod_inv found
    rw [Expr.forms, Expr.tree, staticHead_eq prints.prims prints.classes hclass known hfound,
      prints.staticTree_eq hclass known hfound]
    rw [Expr.floatFree, floatFreeList_eq, all_eq_true] at free
    have hargs := argsPhrased fun arg harg =>
      forall_of_lines count lines ih arg harg (free arg harg)
    exact Forms.phrased_ofCall (Forms.spells_staticName hclass hname) hargs
      (atomEnds_subset signature.result)
  | @literal _ _ value _ =>
    have hpart : Spells (atomEnds (Expr.literal .nowhere value).ty) (literalSource value).toList
        (Grammar.Part.mk (.literal value) []).tokens := by
      cases line with
      | literal hvalue =>
        cases value with
        | int value => exact spells_int value
        | float value => cases free
        | str text =>
          have hsource : (literalSource (.str text)).toList =
              '"' :: ((escapedText text).toList ++ ['"']) := by
            simp [literalSource]
          rw [hsource]
          exact spells_text hvalue ' ' _
    exact Forms.phrased_ofAtom hpart rfl (lineEnds_subset _)
  | @quote _ _ head _ holes _ _ texts _ ih =>
    cases line with
    | quote hhead some_hole lines htexts =>
      have count := congrArg List.length texts
      rw [length_map, length_map] at count
      rw [Expr.floatFree, floatFreeHoles_eq, all_eq_true] at free
      have hsome : holes ≠ [] := by
        rintro rfl
        exact some_hole (eq_nil_of_length_eq_zero count.symm)
      have hquoted : ∀ hole ∈ holes, IsQuoteText hole.2 := by
        intro hole hmem
        have htext := mem_map_of_mem (f := Prod.snd) hmem
        rw [texts] at htext
        obtain ⟨t, ht, heq⟩ := mem_map.1 htext
        exact heq ▸ htexts t ht
      obtain ⟨d, w, hw, hspells, htrees⟩ := exists_holes hsome (fun hole hmem =>
        forall_of_lines count lines ih hole hmem (free hole hmem)) hquoted
      have hpart : Spells lineEnds
          ("\"" ++ escapedText head ++ String.join (holeSources table holes) ++ "\"").toList
          (Grammar.Part.mk (.quote head d) []).tokens := by
        have hquote := hspells.quote hhead lineEnds
        rw [← hw] at hquote
        have htokens : (Grammar.Part.mk (.quote head d) []).tokens =
            .quoteStart head :: d.tokens := by
          simp [Part.tokens, Head.tokens, memberTokens]
        rw [htokens]
        simpa using hquote
      rw [Expr.forms, Expr.tree, ← htrees]
      exact Forms.phrased_ofAtom hpart rfl (Subset.refl _)

end Lines

/-! ## Blocks -/

/-- From behind the tab of the first line, lines one level deep are read as these tokens, up to the
end of the last line. -/
structure SpellsLines (w : List Char) (tokens : List Token) : Prop where
  starts : ∃ first tail, w = first :: tail ∧ first ∉ gapChars
  reads : ∀ rest pos, (Lexer.inLine (w ++ '\n' :: rest) pos 1).Passes tokens
    (Lexer.inLine ('\n' :: rest) (pos + byteLength w) 1)

theorem SpellsLines.startsCode (h : SpellsLines w tokens) (more : List Char) :
    StartsCode (w ++ more) := by
  obtain ⟨first, tail, rfl, hfirst⟩ := h.starts
  intro c hc
  obtain rfl : first = c := by simpa using hc
  exact hfirst

theorem SpellsLines.last {tokens : List Token} (h : Spells lineEnds w tokens) :
    SpellsLines w tokens := by
  refine ⟨h.starts, ?_⟩
  intro rest pos
  exact h.reads ('\n' :: rest) ⟨'\n', rest, rfl, by decide⟩ 0 pos 1

theorem SpellsLines.cons {w' : List Char} {tokens tokens' : List Token}
    (h : Spells lineEnds w tokens) (others : SpellsLines w' tokens') :
    SpellsLines (w ++ '\n' :: '\t' :: w') (tokens ++ .newline :: tokens') := by
  obtain ⟨first, tail, hw, hfirst⟩ := h.starts
  refine ⟨⟨first, _, by rw [hw, cons_append], hfirst⟩, ?_⟩
  intro rest pos
  have hline := (SpellsLines.last h).reads ('\t' :: (w' ++ '\n' :: rest)) pos
  -- the next line is as deep as this one
  have hgives : (Lexer.inLine ('\n' :: '\t' :: (w' ++ '\n' :: rest)) (pos + byteLength w) 1).Gives
      _ _ := @Lexer.Gives.lineBreak [] [] _ 1 _ 1 .none .nil (others.startsCode _) (by decide)
  have hbreak := Lexer.Hands.passes ⟨_, Lexer.nextToken_of_gives hgives⟩ rfl
  have hothers := others.reads rest (pos + byteLength w + 2)
  have hpos : pos + byteLength (w ++ '\n' :: '\t' :: w') = pos + byteLength w + 2 + byteLength w' := by
    simp only [byteLength_append, byteLength_cons, utf8Size_newline, utf8Size_tab]
    omega
  rw [hpos, append_assoc]
  exact hline.append (hbreak.append hothers)

/-- A declaration before its value. -/
theorem spells_declaration {pattern : List Char} {tokens' : List Token}
    (hpattern : Spells lineEnds pattern tokens) (hvalue : Spells lineEnds w tokens') :
    Spells lineEnds (pattern ++ ' ' :: '=' :: ' ' :: w) (tokens ++ .equals :: tokens') :=
  hpattern.space (spells_equals.space hvalue (by decide)) (by decide)

section Blocks

variable {ctx : BodyContext} {table : ClassTable}

theorem Elaborates.sourceLines_eq {scope : Scope} {n k : Nat} {e : Expr}
    (h : Elaborates ctx scope tree n e k) (line : tree.Line) :
    e.sourceLines table = [(e.forms table).line] := by
  cases h with
  | ignore => cases line
  | declare => cases line
  | seq => cases line
  | _ => rfl

theorem sourceLines_ne_nil (e : Expr) : e.sourceLines table ≠ [] := by
  cases e <;> simp [sourceLines]

theorem toList_source_one (e : Expr) : (e.source table 1).toList =
    '\t' :: ("\n\t".intercalate (e.sourceLines table)).toList := by
  have hlines : ∀ (others : List String) (first : String),
      ("\n".intercalate ((first :: others).map ("\t" ++ ·))).toList =
        '\t' :: ("\n\t".intercalate (first :: others)).toList := by
    intro others
    induction others with
    | nil =>
      intro first
      simp
    | cons next others ih =>
      intro first
      rw [map_cons, toList_intercalate_cons "\n" _ (by simp), ih next,
        toList_intercalate_cons "\n\t" first (cons_ne_nil next others), String.toList_append]
      rfl
  obtain ⟨first, others, hcons⟩ := exists_cons_of_ne_nil (@sourceLines_ne_nil table e)
  rw [source, hcons]
  exact hlines others first

/-- The printed lines of a block are read as a block with the tree that it is written as. -/
theorem Elaborates.exists_block (prints : ctx.Prints table) (block : tree.Block) {scope : Scope}
    {n k : Nat} {e : Expr} (h : Elaborates ctx scope tree n e k) (free : e.floatFree = true) :
    ∃ (d : Grammar.Block) (tokens : List Token),
      d.tokens = tokens ++ [.dedent] ∧ d.tree = e.tree table ∧
      SpellsLines ("\n\t".intercalate (e.sourceLines table)).toList tokens := by
  induction block generalizing scope n e with
  | last line =>
    obtain ⟨g, hline, htree⟩ := (h.phrased prints line free).line
    refine ⟨.last g, g.tokens, rfl, htree, ?_⟩
    rw [h.sourceLines_eq line, String.intercalate_singleton]
    exact .last hline
  | seq line _ ih =>
    cases h with
    | @seq _ _ _ _ _ rest _ _ _ hfirst hbody =>
      rw [floatFree, Bool.and_eq_true] at free
      obtain ⟨g, hline, htree⟩ := (hfirst.phrased prints line free.1).line
      obtain ⟨d, tokens, htokens, hrest, hspells⟩ := ih hbody free.2
      refine ⟨.line g d, g.tokens ++ .newline :: tokens, ?_, ?_, ?_⟩
      · rw [Block.tokens, htokens, append_assoc]
        rfl
      · rw [Grammar.Block.tree, htree, hrest, Expr.tree]
      · rw [sourceLines, toList_intercalate_cons _ _ (sourceLines_ne_nil rest)]
        exact .cons hline hspells
    | ownStatic form | ownInstance form | classCall form | memberCall form => cases form
  | letIn hpattern line _ ih =>
    cases h with
    | @ignore _ _ _ _ _ _ rest _ _ _ hvalue hbody =>
      rw [floatFree, Bool.and_eq_true] at free
      obtain ⟨g, hline, htree⟩ := (hvalue.phrased prints line free.1).line
      obtain ⟨d, tokens, htokens, hrest, hspells⟩ := ih hbody free.2
      refine ⟨.declaration .ignore g d,
        (.underscore :: .equals :: g.tokens) ++ .newline :: tokens, ?_, ?_, ?_⟩
      · rw [Grammar.Block.tokens, htokens, Grammar.Pattern.tokens]
        simp
      · rw [Grammar.Block.tree, htree, hrest, Expr.tree]
        rfl
      · have hunderscore : Spells lineEnds ['_'] [.underscore] := spells_punctuation rfl rfl _ _
        rw [sourceLines, toList_intercalate_cons _ _ (sourceLines_ne_nil rest)]
        have hall := spells_declaration hunderscore hline
        exact .cons (by simpa using hall) hspells
    | @declare _ _ _ name _ _ _ rest _ _ _ _ hvalue hbody =>
      rw [floatFree, Bool.and_eq_true] at free
      obtain ⟨g, hline, htree⟩ := (hvalue.phrased prints line free.1).line
      obtain ⟨d, tokens, htokens, hrest, hspells⟩ := ih hbody free.2
      refine ⟨.declaration (.names (.bare name) []) g d,
        (.name name :: .equals :: g.tokens) ++ .newline :: tokens, ?_, ?_, ?_⟩
      · rw [Grammar.Block.tokens, htokens, Grammar.Pattern.tokens]
        simp [BareName.tokens]
      · rw [Block.tree, htree, hrest, Expr.tree]
        rfl
      · have hname : Spells lineEnds name.toList [.name name] :=
          (spells_name hpattern).mono (subset_cons_self _ _)
        rw [sourceLines, toList_intercalate_cons _ _ (sourceLines_ne_nil rest)]
        have hall := spells_declaration hname hline
        exact .cons (by simpa using hall) hspells
    | ownStatic form | ownInstance form | classCall form | memberCall form => cases form

end Blocks

end ClassLang.Typed
