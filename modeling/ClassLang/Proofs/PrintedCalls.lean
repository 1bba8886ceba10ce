import ClassLang.Proofs.PrintedBodies
import ClassLang.Proofs.ResolvedLocals

/-!
# Heads of printed calls

A call through a type is printed with a head, the bare name of its method or this name behind that of
its class. `Tree.readLine` reads such a text, and `BodyContext.Gives` says what the checker makes of a
tree at a place within a body. An expression within a body stands behind the declarations that
`Expr.Holds` lists, so its scope is known (`Elaborates.holds`, by one step for each part of a tree).
The main statement is `printed_head_selects_iff`: with the head that is printed for a call the checker
arrives at the same call again, unless it is a method of the class itself and the name of the class
cannot be written or is that of an import, which is found first.
-/

set_option autoImplicit false

namespace ClassLang

open List Grammar

/-! ## Texts of one line -/

variable {source name className : String} {head : Tree.Expr} {trees : List Tree.Expr} {span : Span}
  {n k : Nat} {ty : Ty}

namespace Tree

namespace Parse

variable {σ : Type} [Supply σ]

/-- An expression that is the only line of a text. -/
def onlyLine : ParseFrom σ Expr := do
  let (e, _) ← withBound fun bound => exprFrom bound .lineRest []
  let lexed ← next
  if lexed.token = .eof then return e else fail lexed.span (.unexpected lexed.token)

end Parse

/-- The expression that a text of one line is read as. -/
def readLine (source : String) : Except CompileError Expr :=
  Parse.onlyLine.run' (Parser.ofText source)

/-- The tokens of an expression and a line break are read as the tree of the expression. -/
theorem readLine_complete (d : Grammar.Expr) {r : Reader}
    (h : (Reader.ofText source).Takes (d.tokens ++ [.newline]) r) (hends : r.Ends) :
    ∃ e, readLine source = .ok e ∧ e.erase = d.tree := by
  have hahead : Parse.Ahead (.word 0) (Parser.ofText source) (d.tokens ++ [.newline]) :=
    .taken (Lexer.clean_ofText source) h hends
  have hbound := hahead.length_le
  rw [length_append, length_singleton] at hbound
  have hfollow : Parse.Context.lineRest.follow? .newline = some .another := rfl
  have hexpr := Parse.reads_all.1 d hahead hfollow (by omega : _ ≤ (Parser.ofText source).bound)
  have hline : Parse.Reaches Parse.onlyLine (Parser.ofText source) fun e _ => e.erase = d.tree := by
    apply Parse.Reaches.bind (.withBound hexpr)
    rintro ⟨e, _⟩ p ⟨htree, rfl, h⟩
    apply Parse.Reaches.bind (Parse.next_eof h)
    rintro _ p' ⟨span, rfl⟩
    exact .pure htree
  obtain ⟨e, p, hline, htree⟩ := hline
  refine ⟨e, ?_, htree⟩
  rw [readLine, StateT.run', hline]
  rfl

/-- What is read is the tree of an expression whose tokens the text begins with. -/
theorem readLine_sound {e : Expr} (h : readLine source = .ok e) :
    ∃ (d : Grammar.Expr) (l : Lexer), (Lexer.ofText source).Passes d.tokens l ∧ d.tree = e.erase := by
  obtain ⟨⟨e', p⟩, hline, he⟩ := Except.bind_eq_ok.1 h
  obtain rfl : e' = e := Except.ok.inj he
  obtain ⟨⟨e'', follow⟩, q, hexpr, hrest⟩ := Parse.bind_eq_ok.1 hline
  obtain ⟨lexed, q', -, hlast⟩ := Parse.bind_eq_ok.1 hrest
  -- whatever token follows, the tree is the one of the expression
  obtain rfl : e'' = e' := by
    split at hlast
    · cases hlast
      rfl
    · cases hlast
  have hstart : (plainMirror source).Stands (.word 0) (Lexer.ofText source) ⟨Lexer.ofText source, none⟩
      (Parser.ofText source) := .taken .nil rfl
  have hbound := (Parser.ofText source).left_lt_bound
  have hruns := ((plainMirror source).exprsRun 0 (Parser.ofText source).bound).expr .lineRest 0 hstart
    (by omega) (.nil _ _)
  rcases hruns with ⟨result, s, p', -, hplain, phrase⟩ | ⟨_, -, hplain, -⟩
  · cases Except.ok.inj (hexpr.symm.trans hplain)
    obtain ⟨token, l, derives, -⟩ := phrase.derived
    obtain ⟨d, hpasses, htree, -⟩ := derives.value Parse.Context.noConfusion
    exact ⟨d, l, hpasses, htree⟩
  · cases hexpr.symm.trans hplain

/-- What is read from a text is the tree of a line. -/
theorem line_of_readLine {e : Expr} (h : readLine source = .ok e) : e.Line := by
  obtain ⟨d, l, hpasses, htree⟩ := readLine_sound h
  exact line_of_erase e (htree ▸ Grammar.line_tree.1 d hpasses.spelled)

end Tree

/-! ## Texts that begin with an upper-case letter -/

/-- The first word of a text that begins with an upper-case letter is the name of a type, whatever
follows the letters. -/
theorem Lexer.hands_typeName (h : Typed.startsUpper source = true) :
    ∃ text l, (Lexer.ofText source).Hands (.typeName text) l := by
  obtain ⟨first, rest, hsource, hfirst⟩ : ∃ first rest, normalized source = first :: rest ∧
      first.isUpper = true := by
    unfold Typed.startsUpper at h
    cases hlist : source.toList with
    | nil => simp [hlist] at h
    | cons first rest =>
      rw [hlist] at h
      unfold normalized
      rw [hlist]
      split
      · exact ⟨first, rest, rfl, h⟩
      · exact ⟨first, rest ++ ['\n'], rfl, h⟩
  have hword : WordText (first :: rest.takeWhile Char.isAlphanum) (.typeName _)
      (rest.dropWhile Char.isAlphanum) :=
    .typeName hfirst (fun _ hc => mem_takeWhile_imp hc) (stops_dropWhile _ _)
  have hgives := @Gives.word 0 0 0 _ _ _ hword
  rw [replicate_zero, nil_append, cons_append, takeWhile_append_dropWhile,
    ← hsource] at hgives
  have hstart : StartsCode (normalized source) := by
    rw [hsource]
    intro c hc
    cases hc
    exact not_mem_of_class hfirst (by decide)
  exact ⟨_, _, _, (nextToken_ofText hstart).trans (nextToken_of_gives hgives)⟩

/-- Whether a tree is a bare name or a call of one. -/
def Tree.Expr.isBare : Tree.Expr → Bool
  | .access _ _ => true
  | .call _ (.access _ _) _ => true
  | _ => false

theorem Tree.Expr.isBare_erase (e : Tree.Expr) : e.erase.isBare = e.isBare := by
  cases e with
  | call span target args => cases target <;> simp [erase, isBare]
  | _ => simp [erase, isBare]

/-- A call by a bare name has a bare head. -/
theorem Tree.Expr.BareCall.isBare {args : List Tree.Expr}
    (h : (callTree head trees).BareCall span name args) : head.isBare = true := by
  cases trees with
  | nil =>
    change head.BareCall span name args at h
    cases h <;> rfl
  | cons tree trees =>
    change (Tree.Expr.call .nowhere head (tree :: trees)).BareCall span name args at h
    cases h
    rfl

/-- A call through a type names the type as its head does. -/
theorem Tree.Expr.ClassCall.isTypeName (line : head.Line) {args : List Tree.Expr}
    (h : (callTree head trees).ClassCall span className name args) : IsTypeName className := by
  cases trees with
  | nil =>
    change head.ClassCall span className name args at h
    exact (lines_of_classCall (.last line) h).1.1
  | cons tree trees =>
    change (Tree.Expr.call .nowhere head (tree :: trees)).ClassCall span className name args at h
    cases h with
    | call => exact (lines_of_classCall (.last line) .access).1.1

namespace Grammar

theorem isBare_memberTree (className method : String) (names : List String)
    (trees : List Tree.Expr) :
    (callTree (memberTree (.staticAccess .nowhere className method) names) trees).isBare = false := by
  rcases eq_nil_or_concat names with rfl | ⟨before, last, rfl⟩
  · cases trees <;> rfl
  · rw [concat_eq_append, Tree.Parse.memberTree_concat]
    cases trees <;> rfl

theorem Expr.exists_tokens (d : Expr) : ∃ token tokens, d.tokens = token :: tokens := by
  rcases d with ⟨⟨head, names⟩, others⟩ | ⟨⟨head, names⟩, others, text, right⟩ <;>
    cases head <;> exact ⟨_, _, rfl⟩

/-- An expression that begins with the name of a type is no bare name and no call of one. -/
theorem isBare_of_typeName {d : Expr} (h : d.tokens.head? = some (.typeName className)) :
    d.tree.isBare = false := by
  -- the first part of the expression is a static name with its members
  have first : ∀ (part : Part) (k : List Token),
      (part.tokens ++ k).head? = some (.typeName className) → ∃ method names,
        part.tree = memberTree (.staticAccess .nowhere className method) names := by
    rintro ⟨head, names⟩ k hk
    cases head with
    | staticName text method =>
      cases hk
      exact ⟨method, names, rfl⟩
    | _ => cases hk
  cases d with
  | parts part others =>
    obtain ⟨method, names, htree⟩ := first part _ h
    rw [Expr.tree, htree]
    exact isBare_memberTree className method names _
  | operator part others text right => rfl

end Grammar

/-- A text that begins with an upper-case letter is read as no bare name and no call of one. -/
theorem Tree.isBare_of_readLine {e : Tree.Expr} (h : Tree.readLine source = .ok e)
    (hupper : Typed.startsUpper source = true) : e.isBare = false := by
  obtain ⟨d, l, hpasses, htree⟩ := Tree.readLine_sound h
  obtain ⟨text, l', hhands⟩ := Lexer.hands_typeName hupper
  obtain ⟨token, tokens, htokens⟩ := d.exists_tokens
  rw [htokens] at hpasses
  obtain ⟨_, hfirst, -⟩ := (hpasses 0).first
  obtain ⟨rfl, -⟩ := hfirst.unique hhands
  rw [← e.isBare_erase, ← htree]
  exact Grammar.isBare_of_typeName (congrArg head? htokens)

namespace Typed

/-! ## Places in a body -/

/-- In this scope the checker gives the expression for the tree. -/
def BodyContext.Gives (ctx : BodyContext) (scope : Scope) (tree : Tree.Expr) (e : Expr) : Prop :=
  ∃ n k want, BodyCheck.expr ctx (.infer none) tree ⟨scope, n⟩ = .ok ((e, want), ⟨scope, k⟩)

variable {scope : Scope} {e : Expr} {callee : Callee} {table : ClassTable}
  {imports : List (Span × ClassId)} {id : ClassId}

/-- The checker gives what can be elaborated. -/
theorem BodyContext.gives_iff {ctx : BodyContext} {tree : Tree.Expr} :
    ctx.Gives scope tree e ↔ ∃ n k, Elaborates ctx scope tree n e k := by
  constructor
  · rintro ⟨n, k, want, h⟩
    have hfollows := expr_follows ctx tree scope .infer n
    rw [Demand.expectation, h] at hfollows
    cases hcheck : checkExpr ctx scope .infer tree n with
    | error fault =>
      rw [hcheck] at hfollows
      cases hfollows
    | ok result =>
      rw [hcheck] at hfollows
      cases hfollows
      exact ⟨n, result.2, (elaborates_of_checkExpr tree hcheck).1⟩
  · rintro ⟨n, k, h⟩
    have hfollows := expr_follows ctx tree scope .infer n
    rw [h.checks (Demand.admits_infer _)] at hfollows
    exact ⟨n, k, _, hfollows⟩

/-- The locals that a pattern declares. -/
def Pattern.vars : Pattern → List LocalVar
  | .ignore _ => []
  | .single _ ty id name => [⟨id, name, ty⟩]

/-- The parts of an expression, each with the locals that are declared for it. -/
def Expr.parts : Expr → List (List LocalVar × Expr)
  | .localVar _ _ _ _ => []
  | .param _ _ _ _ => []
  | .receiver _ _ => []
  | .slot _ _ _ target => [([], target)]
  | .methodCall _ _ _ target args => ([], target) :: args.map ([], ·)
  | .staticCall _ _ _ args => args.map ([], ·)
  | .letIn _ pattern value body => [([], value), (pattern.vars, body)]
  | .seq _ first body => [([], first), ([], body)]
  | .literal _ _ => []
  | .quote _ _ holes => holes.map fun hole => ([], hole.1)

/-- The second expression stands in the first one, behind the declarations of the locals, the last of
which comes first. -/
inductive Expr.Holds : Expr → List LocalVar → Expr → Prop where
  | here {e : Expr} : Holds e [] e
  | part {e part inner : Expr} {new vars : List LocalVar} (hpart : (new, part) ∈ e.parts)
      (hinner : Holds part vars inner) : Holds e (vars ++ new) inner

/-- A local as it stands in a scope. -/
def LocalVar.entry (v : LocalVar) : ScopeEntry := ⟨v.name, .localVar v.id, v.ty⟩

/-- An expression comes from the tree of some lines, or is the receiver that goes without saying. -/
def Placed (ctx : BodyContext) (scope : Scope) (e : Expr) : Prop :=
  e.isReceiver = true ∨ ∃ tree n k, Tree.Expr.Block tree ∧ Elaborates ctx scope tree n e k

section Places

variable {ctx : BodyContext} {tree : Tree.Expr}

/-- Items that are elaborated one by one come from lines. -/
theorem placed_of_each {α β : Type} {f : α → Tree.Expr} {g : β → Expr} {trees : List α}
    {items : List β} {steps : Nat → Nat} (lines : ∀ tree ∈ trees, (f tree).Line)
    (count : items.length = trees.length)
    (each : ∀ i tree item, trees[i]? = some tree → items[i]? = some item →
      Elaborates ctx scope (f tree) (steps i) (g item) (steps (i + 1)))
    {item : β} (hitem : item ∈ items) : Placed ctx scope (g item) := by
  obtain ⟨i, hi⟩ := mem_iff_getElem?.1 hitem
  have hlt : i < trees.length := count ▸ (List.getElem?_eq_some_iff.1 hi).1
  have htree := getElem?_eq_getElem hlt
  exact .inr ⟨_, _, _, .last (lines _ (getElem_mem hlt)), each i _ item htree hi⟩

/-- The parts of an expression that was elaborated from lines are elaborated from lines too. -/
theorem Elaborates.part (h : Elaborates ctx scope tree n e k) (block : tree.Block)
    {new : List LocalVar} {part : Expr} (hpart : (new, part) ∈ e.parts) :
    Placed ctx (new.map LocalVar.entry ++ scope) part := by
  cases h with
  | ignore hvalue hbody =>
    obtain ⟨line, others⟩ := block.letIn_inv
    rcases mem_pair.1 hpart with heq | heq <;> cases heq
    · exact .inr ⟨_, _, _, .last line, hvalue⟩
    · exact .inr ⟨_, _, _, others, hbody⟩
  | declare _ hvalue hbody =>
    -- the name is in scope for the rest of the block, not for its own value
    obtain ⟨line, others⟩ := block.letIn_inv
    rcases mem_pair.1 hpart with heq | heq <;> cases heq
    · exact .inr ⟨_, _, _, .last line, hvalue⟩
    · exact .inr ⟨_, _, _, others, hbody⟩
  | seq hfirst hbody =>
    obtain ⟨line, others⟩ := block.seq_inv
    rcases mem_pair.1 hpart with heq | heq <;> cases heq
    · exact .inr ⟨_, _, _, .last line, hfirst⟩
    · exact .inr ⟨_, _, _, others, hbody⟩
  | param => cases hpart
  | localVar => cases hpart
  | ownSlot =>
    cases mem_singleton.1 hpart
    exact .inl rfl
  | ownStatic form _ _ _ _ count each =>
    obtain ⟨arg, harg, heq⟩ := mem_map.1 hpart
    cases heq
    exact placed_of_each (lines_of_bareCall block form).2 count each harg
  | ownInstance form _ _ _ _ _ count each =>
    rcases mem_cons.1 hpart with heq | hpart
    · cases heq
      exact .inl rfl
    · obtain ⟨arg, harg, heq⟩ := mem_map.1 hpart
      cases heq
      exact placed_of_each (lines_of_bareCall block form).2 count each harg
  | classCall form _ _ count each =>
    obtain ⟨arg, harg, heq⟩ := mem_map.1 hpart
    cases heq
    exact placed_of_each (lines_of_classCall block form).2 count each harg
  | memberCall form htarget _ _ count each =>
    obtain ⟨-, line, lines⟩ := lines_of_memberCall block form
    rcases mem_cons.1 hpart with heq | hpart
    · cases heq
      exact .inr ⟨_, _, _, .last line, htarget⟩
    · obtain ⟨arg, harg, heq⟩ := mem_map.1 hpart
      cases heq
      exact placed_of_each lines count each harg
  | slot htarget _ =>
    cases mem_singleton.1 hpart
    cases block with
    | last line =>
      cases line with
      | property target_line _ => exact .inr ⟨_, _, _, .last target_line, htarget⟩
  | literal => cases hpart
  | quote _ texts each =>
    have count := congrArg length texts
    rw [length_map, length_map] at count
    obtain ⟨hole, hhole, heq⟩ := mem_map.1 hpart
    cases heq
    cases block with
    | last line =>
      cases line with
      | quote _ _ lines _ => exact placed_of_each lines count each hhole

/-- What stands in an expression that was elaborated from lines is elaborated, behind the
declarations before it, from lines too. -/
theorem Elaborates.holds {inner : Expr} {vars : List LocalVar} (h : Elaborates ctx scope tree n e k)
    (block : tree.Block) (hinner : e.Holds vars inner) :
    Placed ctx (vars.map LocalVar.entry ++ scope) inner := by
  induction hinner generalizing scope tree n k with
  | here => exact .inr ⟨tree, n, k, block, h⟩
  | @part e part inner new vars hpart hinner ih =>
    rcases h.part block hpart with hreceiver | ⟨tree', n', k', block', h'⟩
    · -- nothing stands in the receiver but itself
      cases hinner with
      | here => exact .inl hreceiver
      | part hpart' _ =>
        cases part with
        | receiver => cases hpart'
        | _ => cases hreceiver
    · have hplaced := ih h' block'
      rwa [← append_assoc, ← map_append] at hplaced

end Places

/-! ## Heads that can be read -/

section Heads

variable {ctx : BodyContext} {args : List Expr} {steps : Nat → Nat}

/-- A part of a line is read when it is the whole text. -/
theorem exists_readLine {ends : List Char} {head : Head}
    (hspells : Spells ends source.toList (Grammar.Part.mk head []).tokens) (hends : '\n' ∈ ends)
    (hline : '\n' ∉ source.toList) : ∃ e, Tree.readLine source = .ok e ∧ e.erase = head.tree := by
  obtain ⟨token, tokens, htokens⟩ := (Grammar.Expr.parts (.mk head []) []).exists_tokens
  rw [Expr.tokens, partTokens, append_nil] at htokens
  rw [htokens] at hspells
  obtain ⟨r, htakes, hr⟩ := hspells.takes_ofText hends hline
  rw [← htokens] at htakes
  refine Tree.readLine_complete (.parts (.mk head []) []) ?_ hr
  rwa [Expr.tokens, partTokens, append_nil]

/-- A static method is arrived at through the name of its class. -/
theorem exists_classHead (hclass : IsTypeName className) (hname : IsName name)
    {signature : Signature} (known : ctx.types.lookup? className = some ty)
    (found : find? ctx.table ty name = some (.method callee signature))
    (called : signature.isStatic = true)
    (hargs : ElaboratesArgs ctx scope trees signature.params args steps) :
    ∃ head span, Tree.readLine (className ++ "." ++ name) = .ok head ∧
      ctx.Gives scope (callTree head trees)
        (.staticCall span signature.result callee args) := by
  have hline : '\n' ∉ (className ++ "." ++ name).toList := by
    have hclassLine := newline_notMem_of_class hclass.isAlphanum rfl
    have hnameLine := newline_notMem_of_class hname.isAlphanum rfl
    simp [hclassLine, hnameLine]
  obtain ⟨head, hread, herase⟩ := exists_readLine (Forms.spells_staticName hclass hname)
    (by decide) hline
  obtain ⟨headSpan, rfl⟩ : ∃ span, head = .staticAccess span className name := by
    cases head with
    | staticAccess span className' name' =>
      cases herase
      exact ⟨span, rfl⟩
    | _ => cases herase
  obtain ⟨span, form, -⟩ := exists_classCall headSpan className name trees
  exact ⟨_, span, hread, BodyContext.gives_iff.2 ⟨_, _, .classCall form
    (staticMethod_of_find? known found called) hargs.fits hargs.count hargs.each⟩⟩

/-- A static method of the class itself is arrived at by its bare name where nothing hides it. -/
theorem exists_bareHead (hname : IsName name) (free : scope.lookup? name = none) {index : Nat}
    {method : Method} (found : ctx.owner.member? name = some (.method index method))
    (static : method.isStatic = true)
    (hargs : ElaboratesArgs ctx scope trees method.paramTypes args steps) :
    ∃ head span, Tree.readLine name = .ok head ∧
      ctx.Gives scope (callTree head trees)
        (.staticCall span method.returnType (.method ⟨ctx.owner.id, index, name⟩) args) := by
  have hspells : Spells ('.' :: lineEnds) name.toList (Grammar.Part.mk (.name name) []).tokens :=
    spells_name hname
  have hline : '\n' ∉ name.toList := newline_notMem_of_class hname.isAlphanum rfl
  obtain ⟨head, hread, herase⟩ := exists_readLine hspells (by decide) hline
  obtain ⟨headSpan, rfl⟩ : ∃ span, head = .access span name := by
    cases head with
    | access span name' =>
      cases herase
      exact ⟨span, rfl⟩
    | _ => cases herase
  obtain ⟨span, form, -⟩ := exists_bareCall headSpan name trees
  exact ⟨_, span, hread, BodyContext.gives_iff.2 ⟨_, _, .ownStatic form free found static hargs.fits
    hargs.count hargs.each⟩⟩

end Heads

/-! ## Heads that are printed -/

/-- The name of a class that was imported is an imported name. -/
theorem exists_lookup_importsFrom {known found : List (String × Ty)}
    (h : TypeScope.importsFrom table known imports = .ok found)
    (hname : (known.lookup name).isSome = true ∨ ∃ span id c,
      (span, id) ∈ imports ∧ table.get? id = some c ∧ c.name = name) :
    (found.lookup name).isSome = true := by
  induction imports generalizing known with
  | nil =>
    cases h
    rcases hname with hknown | ⟨_, _, _, hmem, -⟩
    · exact hknown
    · cases hmem
  | cons entry imports ih =>
    obtain ⟨span, id⟩ := entry
    -- what is known behind the first import has all names before it and that of its class
    have later : ∀ known', (∀ n, (known.lookup n).isSome = true → (known'.lookup n).isSome = true) →
        (∀ c, table.get? id = some c → (known'.lookup c.name).isSome = true) →
        TypeScope.importsFrom table known' imports = .ok found →
        (found.lookup name).isSome = true := by
      intro known' hkept hfirst h'
      refine ih h' ?_
      rcases hname with hknown | ⟨span', id', c, hmem, hc, rfl⟩
      · exact .inl (hkept name hknown)
      rcases mem_cons.1 hmem with heq | hmem
      · cases heq
        exact .inl (hfirst c hc)
      · exact .inr ⟨span', id', c, hmem, hc, rfl⟩
    simp only [TypeScope.importsFrom] at h
    split at h
    · next hnone => exact later known (fun _ hn => hn) (fun c hc => by simp [hnone] at hc) h
    · next c hc =>
      split at h
      · refine later _ ?_ ?_ h
        · intro n hn
          rw [lookup_cons]
          split
          · rfl
          · exact hn
        · intro c' hc'
          cases hc.symm.trans hc'
          simp
      · next previous hprevious =>
        split at h
        · refine later known (fun _ hn => hn) ?_ h
          intro c' hc'
          cases hc.symm.trans hc'
          simp [hprevious]
        · cases h

/-- No class of the table has the number of the next one. -/
theorem ty_ne_next (typed : table.Typed) {c : Class} (hc : table.get? id = some c)
    (className : String) : c.ty ≠ .object table.size className := by
  intro heq
  have hid : c.id = table.size := (Ty.object.inj heq).1
  have hlt := ClassTable.lt_size_of_get? hc
  rw [← (typed id c hc).id_eq, hid] at hlt
  exact Nat.lt_irrefl _ hlt

theorem startsUpper_append {first : String} (h : startsUpper first = true) (rest : String) :
    startsUpper (first ++ rest) = true := by
  unfold startsUpper at h ⊢
  rw [String.toList_append]
  cases hlist : first.toList with
  | nil => simp [hlist] at h
  | cons c cs => simpa [hlist] using h

section Outlines

variable {shown : ClassTable} {path : ModulePath} {tree : Tree.Module} {types : TypeScope}
  {outline : Class} (outlines : Outlines table path tree imports types outline)
  (typed : table.Typed)

include outlines typed

/-- The module knows the class itself by its name only where no import has this name. -/
theorem Outlines.not_imported
    (known : types.lookup? tree.classDecl.name = some (.object table.size className)) {c : Class}
    (himport : (span, id) ∈ imports) (hc : table.get? id = some c) :
    c.name ≠ tree.classDecl.name := by
  intro hname
  have hsome := exists_lookup_importsFrom outlines.imported (.inr ⟨span, id, c, himport, hc, hname⟩)
  obtain ⟨ty, hty⟩ := Option.isSome_iff_exists.1 hsome
  -- an imported name comes first, and leads to a class that was there before
  rw [TypeScope.lookup?, hty] at known
  cases known
  obtain ⟨before, behind, himports, -⟩ := lookup_eq_some_iff.1 hty
  have hmem : (tree.classDecl.name, Ty.object table.size className) ∈ types.imports := by
    simp [himports]
  rcases mem_importsFrom outlines.imported hmem with hnil | ⟨_, id', c', -, hc', heq⟩
  · cases hnil
  · exact ty_ne_next typed hc' className (Prod.mk.inj heq).2.symm

/-- Where the printed head of a method of the class itself leads to this method, the name of the class
can be written and no import has it. -/
theorem Outlines.ownNameFree (hshown : shown.className table.size = tree.classDecl.name)
    {m : Method} {ref : MethodRef} (howner : ref.owner = table.size)
    (hread : Tree.readLine (staticHead shown (.method ref)) = .ok head) {args : List Expr}
    (hgives : (bodyContext table types outline m).Gives scope (callTree head trees)
      (.staticCall span ty (.method ref) args)) :
    OwnNameFree table imports tree.classDecl.name := by
  intro hupper
  obtain ⟨n, k, h⟩ := BodyContext.gives_iff.1 hgives
  have htext : startsUpper (staticHead shown (.method ref)) = true := by
    rw [staticHead, howner, hshown, if_pos hupper, String.append_assoc]
    exact startsUpper_append hupper _
  generalize hcall : Expr.staticCall span ty (.method ref) args = call at h
  generalize htree : callTree head trees = tree' at h
  cases h with
  | ownStatic form =>
    subst htree
    have hbare := form.isBare
    rw [Tree.isBare_of_readLine hread htext] at hbare
    cases hbare
  | classCall form found =>
    subst htree
    cases hcall
    obtain ⟨ty, known, hfound, -⟩ := staticMethod_inv found
    rcases find?_method_inv hfound with ⟨_, heq, -⟩ | ⟨_, className', -, -, heq, rfl, -⟩
    · cases heq
    cases heq
    rw [howner] at known
    rcases outlines.lookup?_cases known with ⟨_, _, c, -, hc, -, heq⟩ | ⟨rfl, -⟩ | ⟨_, heq, -⟩
    · exact absurd heq.symm (ty_ne_next typed hc className')
    · have hclass := form.isTypeName (Tree.line_of_readLine hread)
      exact ⟨hclass.isAlphanum, fun _ _ _ => outlines.not_imported typed known⟩
    · cases heq
  | _ => cases hcall

/-- A call that was elaborated from a line is arrived at with its printed head, unless this head does
not lead to the class itself. -/
theorem Outlines.selects_iff
    (names : ∀ id c, (table.push outline).get? id = some c → shown.className id = c.name)
    {m : Method} {line : Tree.Expr} (block : line.Block) {args : List Expr}
    (h : Elaborates (bodyContext table types outline m) scope line n
      (.staticCall span ty callee args) k) :
    (∃ head trees span', Tree.readLine (staticHead shown callee) = .ok head ∧
      (bodyContext table types outline m).Gives scope (callTree head trees)
        (.staticCall span' ty callee args)) ↔
      ∀ ref, callee = .method ref → ref.owner = table.size →
        OwnNameFree table imports tree.classDecl.name := by
  obtain ⟨hid, hname⟩ := outlines.outline_eq
  constructor
  · rintro ⟨head, trees, span', hread, hgives⟩ ref rfl howner
    have hshown : shown.className table.size = tree.classDecl.name :=
      (names _ _ ClassTable.get?_push_size).trans hname
    exact outlines.ownNameFree typed hshown howner hread hgives
  · intro own
    generalize hcall : Expr.staticCall span ty callee args = call at h
    cases h with
    | @ownStatic _ _ _ name trees _ index method _ form free found static fits count each =>
      cases hcall
      have prints := outlines.prints typed names (own _ rfl hid) m
      obtain ⟨hmethod, -⟩ := lines_of_bareCall block form
      rw [staticHead]
      dsimp only
      rw [prints.ownName]
      split
      · -- behind the name of the class
        next hupper =>
          obtain ⟨hclass, known⟩ := prints.own hupper
          obtain ⟨head, span', hread, hgives⟩ := exists_classHead hclass hmethod known
            (prints.find?_own found) static ⟨fits, count, each⟩
          exact ⟨head, trees, span', hread, hgives⟩
      · obtain ⟨head, span', hread, hgives⟩ := exists_bareHead hmethod free found static
          ⟨fits, count, each⟩
        exact ⟨head, trees, span', hread, hgives⟩
    | @classCall _ _ _ className name trees _ _ _ _ form found fits count each =>
      cases hcall
      obtain ⟨ty, known, hfound, called⟩ := staticMethod_inv found
      obtain ⟨⟨hclass, hmethod⟩, -⟩ := lines_of_classCall block form
      obtain ⟨head, span', hread, hgives⟩ := exists_classHead hclass hmethod known hfound called
        ⟨fits, count, each⟩
      rw [staticHead_eq outlines.prims (outlines.classes typed names) hclass known hfound]
      exact ⟨head, trees, span', hread, hgives⟩
    | _ => cases hcall

end Outlines

/-- **Heads of printed calls.** With the head that is printed for a call through a type, the checker
gives this call again at the place where it stands, with the same class and imports, except for
methods of the class itself whose name cannot be written or is also that of an import. The table by
which the head is printed may have grown since the check. -/
theorem printed_head_selects_iff {table table' shown : ClassTable} (reached : table.Reached)
    {source name : String} {path : ModulePath} {tree : Tree.Module}
    {imports : List (Span × ClassId)} (hparse : Tree.parse source name = .ok tree)
    (hcheck : checkModule table path tree imports = .ok table') (later : table'.Extends shown)
    {types : TypeScope} {outline : Class}
    (outlines : Outlines table path tree imports types outline) {c : Class} {i : Nat} {m : Method}
    {e : Expr} (hm : outline.methods[i]? = some m) (hc : table'.get? table.size = some c)
    (hbody : c.methods[i]? = some { m with body := some e }) {vars : List LocalVar} {span : Span}
    {ty : Ty} {callee : Callee} {args : List Expr}
    (hcall : e.Holds vars (.staticCall span ty callee args)) :
    (∃ head trees span', Tree.readLine (staticHead shown callee) = .ok head ∧
      (bodyContext table types outline m).Gives (Scope.behind m.params vars)
        (Grammar.callTree head trees) (.staticCall span' ty callee args)) ↔
      ∀ ref, callee = .method ref → ref.owner = table.size → OwnNameFree table imports name := by
  obtain ⟨types', outline', checked, outlines', hchecked, rfl⟩ := checkModule_eq_ok.1 hcheck
  obtain ⟨rfl, rfl⟩ := outlines.unique outlines'
  obtain ⟨-, -, -, -, -, hname, -⟩ := Tree.parse_front hparse
  obtain rfl := Option.some.inj (ClassTable.get?_push_size.symm.trans hc)
  -- the body comes from the tree at `i`
  obtain ⟨m₀, t, e₀, hm₀, ht, heq, k, hcheckExpr⟩ := checkBodies_getElem? hchecked hbody
  obtain rfl := Option.some.inj (hm.symm.trans hm₀)
  obtain rfl : e = e₀ := Option.some.inj (congrArg Method.body heq)
  have hblock := Tree.block_of_parse hparse ht
  have hplaced := (elaborates_of_checkExpr t.body hcheckExpr).1.holds hblock hcall
  obtain hreceiver | ⟨tree', n, k, block, h⟩ := hplaced
  · cases hreceiver
  · rw [← hname]
    exact outlines.selects_iff reached.typed (fun _ _ => later.className_eq) block h

/-! ## An example -/

/-- The expressions that stand in another one up to this depth, each with the locals before it. -/
def Expr.heldTo : (depth : Nat) → Expr → List (List LocalVar × Expr)
  | 0, e => [([], e)]
  | depth + 1, e => ([], e) :: e.parts.flatMap fun item =>
    (item.2.heldTo depth).map fun inner => (inner.1 ++ item.1, inner.2)

theorem Expr.holds_of_mem_heldTo {depth : Nat} {inner : Expr} {vars : List LocalVar}
    (h : (vars, inner) ∈ e.heldTo depth) : e.Holds vars inner := by
  induction depth generalizing e vars inner with
  | zero =>
    cases mem_singleton.1 h
    exact .here
  | succ depth ih =>
    rcases mem_cons.1 h with heq | h
    · cases heq
      exact .here
    obtain ⟨item, hitem, hinner⟩ := mem_flatMap.1 h
    obtain ⟨found, hfound, heq⟩ := mem_map.1 hinner
    cases heq
    exact .part hitem (ih hfound)

/-- The method that an expression calls through a type. -/
def Expr.staticCallee? : Expr → Option Callee
  | .staticCall _ _ callee _ => some callee
  | _ => none

theorem Expr.exists_of_staticCallee? (h : e.staticCallee? = some callee) :
    ∃ span ty args, e = .staticCall span ty callee args := by
  cases e with
  | staticCall span ty callee' args =>
    cases h
    exact ⟨span, ty, args, rfl⟩
  | _ => cases h

/-- A class whose second method calls the first one, behind a declaration. -/
def callerText : String := "fun Int g()\n\t2\nfun Int f()\n\tn = 1\n\tn + g\n"

def callerPath : ModulePath := ⟨["b", "Foo"]⟩

/-- Whether the second method of a class calls its first one behind a declaration. -/
def callsFirst (table : ClassTable) (id : ClassId) : Bool :=
  (table.get? id).any fun c => (c.methods[1]?).any fun m => m.body.any fun e =>
    (e.heldTo 2).any fun inner =>
      decide (inner.1.length = 1 ∧ inner.2.staticCallee? = some (.method ⟨id, 0, "g"⟩))

/-- What the check of `callerText` gives, if it passes with these imports. -/
theorem exists_call (hid : table.size = id)
    (h : ((Tree.parse callerText "Foo").toOption.bind fun tree =>
      (checkModule table callerPath tree imports).toOption).any (callsFirst · id) = true) :
    ∃ tree table' types outline c m e vars span ty args,
      Tree.parse callerText "Foo" = .ok tree ∧
      checkModule table callerPath tree imports = .ok table' ∧
      Outlines table callerPath tree imports types outline ∧ outline.methods[1]? = some m ∧
      table'.get? id = some c ∧ c.methods[1]? = some { m with body := some e } ∧
      vars.length = 1 ∧ e.Holds vars (.staticCall span ty (.method ⟨id, 0, "g"⟩) args) := by
  subst hid
  obtain ⟨table', htable, hcalls⟩ := (Option.any_eq_true _ _).1 h
  obtain ⟨tree, htree, hchecked⟩ := Option.bind_eq_some_iff.1 htable
  have hcheck := eq_ok_of_toOption hchecked
  -- the call in the table
  obtain ⟨c, hc, hcalls⟩ := (Option.any_eq_true _ _).1 hcalls
  obtain ⟨m', hm', hcalls⟩ := (Option.any_eq_true _ _).1 hcalls
  obtain ⟨e, he, hcalls⟩ := (Option.any_eq_true _ _).1 hcalls
  obtain ⟨⟨vars, inner⟩, hinner, hcallee⟩ := any_eq_true.1 hcalls
  obtain ⟨hvars, hcallee⟩ := of_decide_eq_true hcallee
  obtain ⟨span, ty, args, rfl⟩ := Expr.exists_of_staticCallee? hcallee
  -- the method of the outline that it came from
  obtain ⟨types, outline, checked, outlines, hbodies, rfl⟩ := checkModule_eq_ok.1 hcheck
  cases ClassTable.get?_push_size.symm.trans hc
  obtain ⟨m, _, e', hm, -, rfl, -⟩ := checkBodies_getElem? hbodies hm'
  obtain rfl : e' = e := Option.some.inj he
  exact ⟨tree, _, types, outline, _, m, e', vars, span, ty, args, eq_ok_of_toOption htree, hcheck,
    outlines, hm, hc, hm', hvars, Expr.holds_of_mem_heldTo hinner⟩

/-- Without imports the printed head leads back to the first method, behind a declaration. -/
theorem printed_head_selects_iff_caller : ∃ tree table' types outline c m e vars span ty args,
    Tree.parse callerText "Foo" = .ok tree ∧
    checkModule .empty callerPath tree [] = .ok table' ∧
    Outlines .empty callerPath tree [] types outline ∧ outline.methods[1]? = some m ∧
    table'.get? 0 = some c ∧ c.methods[1]? = some { m with body := some e } ∧
    vars.length = 1 ∧ e.Holds vars (.staticCall span ty (.method ⟨0, 0, "g"⟩) args) ∧
    ∃ head trees span', Tree.readLine (staticHead table' (.method ⟨0, 0, "g"⟩)) = .ok head ∧
      (bodyContext .empty types outline m).Gives (Scope.behind m.params vars)
        (Grammar.callTree head trees) (.staticCall span' ty (.method ⟨0, 0, "g"⟩) args) := by
  obtain ⟨tree, table', types, outline, c, m, e, vars, span, ty, args, hparse, hcheck, outlines, hm,
    hc, hbody, hvars, hcall⟩ := @exists_call .empty [] 0 rfl (by decide +kernel)
  refine ⟨tree, table', types, outline, c, m, e, vars, span, ty, args, hparse, hcheck, outlines, hm,
    hc, hbody, hvars, hcall, ?_⟩
  refine (printed_head_selects_iff .empty hparse hcheck (.refl _) outlines hm hc hbody hcall).2 ?_
  intro _ _ _ _
  exact ⟨all_eq_true.1 (by decide), fun _ _ _ hmem => absurd hmem not_mem_nil⟩

/-- The table with another class of the same name. -/
def namesakeTable : ClassTable :=
  ((Tree.parse "fun Int g()\n\t1\n" "Foo").toOption.map fun tree =>
    ClassTable.empty.afterCheck ⟨["a", "Foo"]⟩ tree []).getD .empty

theorem reached_namesakeTable : namesakeTable.Reached := by
  unfold namesakeTable
  cases (Tree.parse "fun Int g()\n\t1\n" "Foo").toOption with
  | none => exact .empty
  | some tree => exact .check _ _ _ .empty

theorem size_namesakeTable : namesakeTable.size = 1 := by decide +kernel

/-- With an import of the same name the printed head of the call is `Foo.g`, which does not lead to the
class itself. -/
theorem own_head_hidden : ∃ tree table' types outline c m e vars span ty args,
    Tree.parse callerText "Foo" = .ok tree ∧
    checkModule namesakeTable callerPath tree [(⟨0, 0⟩, 0)] = .ok table' ∧
    Outlines namesakeTable callerPath tree [(⟨0, 0⟩, 0)] types outline ∧
    outline.methods[1]? = some m ∧ table'.get? 1 = some c ∧
    c.methods[1]? = some { m with body := some e } ∧
    e.Holds vars (.staticCall span ty (.method ⟨1, 0, "g"⟩) args) ∧
    staticHead table' (.method ⟨1, 0, "g"⟩) = "Foo.g" ∧
    ¬ ∃ head trees span', Tree.readLine "Foo.g" = .ok head ∧
      (bodyContext namesakeTable types outline m).Gives (Scope.behind m.params vars)
        (Grammar.callTree head trees) (.staticCall span' ty (.method ⟨1, 0, "g"⟩) args) := by
  obtain ⟨tree, table', types, outline, c, m, e, vars, span, ty, args, hparse, hcheck, outlines, hm,
    hc, hbody, -, hcall⟩ := @exists_call _ [(⟨0, 0⟩, 0)] 1 size_namesakeTable (by decide +kernel)
  obtain ⟨-, -, -, -, -, hname, -⟩ := Tree.parse_front hparse
  have hshown : table'.className namesakeTable.size = tree.classDecl.name := by
    obtain ⟨_, _, _, outlines', -, rfl⟩ := checkModule_eq_ok.1 hcheck
    exact (ClassTable.Extends.className_eq (.refl _) ClassTable.get?_push_size).trans
      outlines'.outline_eq.2
  have hhead : staticHead table' (.method ⟨1, 0, "g"⟩) = "Foo.g" := by
    rw [size_namesakeTable, hname] at hshown
    rw [staticHead, hshown]
    decide
  refine ⟨tree, table', types, outline, c, m, e, vars, span, ty, args, hparse, hcheck, outlines, hm,
    hc, hbody, hcall, hhead, ?_⟩
  rintro ⟨head, trees, span', hread, hgives⟩
  rw [← hhead] at hread
  have own := outlines.ownNameFree reached_namesakeTable.typed hshown size_namesakeTable.symm hread
    hgives
  rw [hname] at own
  -- the imported class has this name
  have htaken : (namesakeTable.get? 0).any (fun c => decide (c.name = "Foo")) = true := by
    decide +kernel
  obtain ⟨first, hfirst, hsame⟩ := (Option.any_eq_true _ _).1 htaken
  exact (own (by decide)).2 _ _ _ (mem_singleton_self _) hfirst (of_decide_eq_true hsame)

end Typed

end ClassLang
