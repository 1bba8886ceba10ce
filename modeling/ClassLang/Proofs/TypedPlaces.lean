import ClassLang.Proofs.ErasedPlaces
import ClassLang.Proofs.ParserFaults

/-!
# Places from the text to the typed tree

The places in the tree of a text nest (`nested_of_parse`), and the checker keeps them: a typed tree
is made of a tree node by node, and each node has the place of the one that it is made of
(`SamePlaces`). A receiver that goes without saying has the place of the access or the call that needs
it. The main statement, `locations_of_parse`, is about both.
-/

set_option autoImplicit false

namespace ClassLang.Typed

/-- The typed tree is made of the tree, and each of its nodes has the place of what it is made of. -/
inductive SamePlaces : Tree.Expr → Expr → Prop where
  | localVar {span : Span} {ty : Ty} {id : Nat} {name : String} :
      SamePlaces (.access span name) (.localVar span ty id name)
  | param {span : Span} {ty : Ty} {index : Nat} {name : String} :
      SamePlaces (.access span name) (.param span ty index name)
  | ownSlot {span : Span} {ty owner : Ty} {ref : SlotRef} {name : String} :
      SamePlaces (.access span name) (.slot span ty ref (.receiver span owner))
  | ownStatic {tree : Tree.Expr} {span : Span} {name : String} {trees : List Tree.Expr} {ty : Ty}
      {callee : Callee} {args : List Expr} (form : tree.BareCall span name trees)
      (count : args.length = trees.length)
      (each : ∀ (i : Nat) tree arg, trees[i]? = some tree → args[i]? = some arg → SamePlaces tree arg) :
      SamePlaces tree (.staticCall span ty callee args)
  | ownInstance {tree : Tree.Expr} {span : Span} {name : String} {trees : List Tree.Expr}
      {ty owner : Ty} {callee : Callee} {args : List Expr} (form : tree.BareCall span name trees)
      (count : args.length = trees.length)
      (each : ∀ (i : Nat) tree arg, trees[i]? = some tree → args[i]? = some arg → SamePlaces tree arg) :
      SamePlaces tree (.methodCall span ty callee (.receiver span owner) args)
  | classCall {tree : Tree.Expr} {span : Span} {className name : String} {trees : List Tree.Expr}
      {ty : Ty} {callee : Callee} {args : List Expr}
      (form : tree.ClassCall span className name trees)
      (count : args.length = trees.length)
      (each : ∀ (i : Nat) tree arg, trees[i]? = some tree → args[i]? = some arg → SamePlaces tree arg) :
      SamePlaces tree (.staticCall span ty callee args)
  | memberCall {tree receiver : Tree.Expr} {span : Span} {name : String} {trees : List Tree.Expr}
      {ty : Ty} {callee : Callee} {target : Expr} {args : List Expr}
      (form : tree.MemberCall span receiver name trees) (htarget : SamePlaces receiver target)
      (count : args.length = trees.length)
      (each : ∀ (i : Nat) tree arg, trees[i]? = some tree → args[i]? = some arg → SamePlaces tree arg) :
      SamePlaces tree (.methodCall span ty callee target args)
  | slot {tree : Tree.Expr} {span : Span} {name : String} {ty : Ty} {ref : SlotRef} {target : Expr}
      (htarget : SamePlaces tree target) : SamePlaces (.property span tree name) (.slot span ty ref target)
  | ignore {span patternSpan : Span} {value body : Tree.Expr} {value' body' : Expr}
      (hvalue : SamePlaces value value') (hbody : SamePlaces body body') :
      SamePlaces (.letIn span (.ignore patternSpan) value body)
        (.letIn span (.ignore patternSpan) value' body')
  | declare {span patternSpan : Span} {name : String} {ty : Ty} {id : Nat} {value body : Tree.Expr}
      {value' body' : Expr} (hvalue : SamePlaces value value') (hbody : SamePlaces body body') :
      SamePlaces (.letIn span (.single patternSpan name) value body)
        (.letIn span (.single patternSpan ty id name) value' body')
  | seq {span : Span} {first body : Tree.Expr} {first' body' : Expr} (hfirst : SamePlaces first first')
      (hbody : SamePlaces body body') : SamePlaces (.seq span first body) (.seq span first' body')
  | literal {span : Span} {value : Literal} : SamePlaces (.literal span value) (.literal span value)
  | quote {span : Span} {head : String} {trees : List (Tree.Expr × String)}
      {holes : List (Expr × String)} (texts : holes.map Prod.snd = trees.map Prod.snd)
      (each : ∀ (i : Nat) tree hole, trees[i]? = some tree → holes[i]? = some hole →
        SamePlaces tree.1 hole.1) :
      SamePlaces (.quote span head trees) (.quote span head holes)

theorem Elaborates.samePlaces {ctx : BodyContext} {scope : Scope} {tree : Tree.Expr} {n k : Nat}
    {e : Expr} (h : Elaborates ctx scope tree n e k) : SamePlaces tree e := by
  induction h with
  | ignore _ _ ihValue ihBody => exact .ignore ihValue ihBody
  | declare _ _ _ ihValue ihBody => exact .declare ihValue ihBody
  | seq _ _ ihFirst ihBody => exact .seq ihFirst ihBody
  | param _ _ => exact .param
  | localVar _ _ => exact .localVar
  | ownSlot _ _ _ => exact .ownSlot
  | ownStatic form _ _ _ _ count _ ih => exact .ownStatic form count ih
  | ownInstance form _ _ _ _ _ count _ ih => exact .ownInstance form count ih
  | classCall form _ _ count _ ih => exact .classCall form count ih
  | memberCall form _ _ _ count _ ihTarget ih => exact .memberCall form ihTarget count ih
  | slot _ _ ih => exact .slot ih
  | literal => exact .literal
  | quote _ texts _ ih => exact .quote texts ih

/-- **Locations.** In the tree of a text the place of each method encloses those of its return type,
its parameters and its body, and the place of each node of a body encloses those of its children, in
their order and apart from each other; a name that is accessed is spelled at its place. And in what
the checker makes of the tree, each node of a body has the place of the node that it is made of. -/
theorem locations_of_parse {source name : String} {tree : Tree.Module}
    (h : Tree.parse source name = .ok tree) :
    (∀ m ∈ tree.classDecl.methods, m.Nested (Lexer.normalized source)) ∧
    ∀ (table table' : ClassTable) (path : ModulePath) (imports : List (Span × ClassId)),
      checkModule table path tree imports = .ok table' →
      ∃ c, table'.get? table.size = some c ∧ ∀ (i : Nat) m, c.methods[i]? = some m →
        ∃ t e, tree.classDecl.methods[i]? = some t ∧ m.body = some e ∧ SamePlaces t.body e := by
  refine ⟨(Tree.nested_of_parse h).classDecl.methods, fun table table' path imports hcheck => ?_⟩
  obtain ⟨types, outline, checked, -, hchecked, rfl⟩ := checkModule_eq_ok.1 hcheck
  refine ⟨_, ClassTable.get?_push_size, fun i m hm => ?_⟩
  obtain ⟨m₀, t, e, -, ht, rfl, k, hbody⟩ := checkBodies_getElem? hchecked hm
  exact ⟨t, e, ht, rfl, (elaborates_of_checkExpr t.body hbody).1.samePlaces⟩

/-- The last method of the example has a quote with two holes, one of them with a call in it. -/
theorem locations_of_pointText : ∃ tree t m e, Tree.parse pointText "Point" = .ok tree ∧
    tree.classDecl.methods[2]? = some t ∧ t.Nested (Lexer.normalized pointText) ∧
    pointClass.methods[2]? = some m ∧ m.body = some e ∧ SamePlaces t.body e := by
  obtain ⟨tree, hparse, hcheck⟩ := checked_pointText
  obtain ⟨nested, placed⟩ := locations_of_parse hparse
  obtain ⟨c, hc, methods⟩ := placed _ _ _ _ hcheck
  obtain rfl : pointClass = c := Option.some.inj (get?_pointTable.symm.trans hc)
  have hsome : pointClass.methods[2]?.isSome = true := by decide +kernel
  obtain ⟨m, hm⟩ := Option.isSome_iff_exists.1 hsome
  obtain ⟨t, e, ht, he, hplaced⟩ := methods 2 m hm
  exact ⟨tree, t, m, e, hparse, ht, nested t (List.mem_of_getElem? ht), hm, he, hplaced⟩

end ClassLang.Typed
