import ClassLang.Proofs.Splicing

/-!
# Bodies that are printed and checked again

The body that the checker gives is printed, its lines are put in the place of the old ones, and the
module is read and checked again. What a body was read from is a tree of lines, and the names that
stand before static methods are those by which the module knows their classes
(`Typed.Outlines.prints`), so that the new module has the same body, up to places
(`Typed.printed_body_alike`).
-/

set_option autoImplicit false

namespace ClassLang

open List Tree.Method Typed.ClassTable

/-! ## Names that are looked up -/

namespace Typed

/-- An imported name is the name of a class that was imported. -/
theorem mem_importsFrom {table : ClassTable} {known found : List (String × Ty)}
    {imports : List (Span × ClassId)} (h : TypeScope.importsFrom table known imports = .ok found)
    {item : String × Ty} (hitem : item ∈ found) :
    item ∈ known ∨ ∃ span id c, (span, id) ∈ imports ∧ table.get? id = some c ∧
      item = (c.name, c.ty) := by
  induction imports generalizing known with
  | nil =>
    cases h
    exact .inl hitem
  | cons entry imports ih =>
    obtain ⟨span, id⟩ := entry
    -- what the later imports give is known before them or comes from one of them
    have later : ∀ known', TypeScope.importsFrom table known' imports = .ok found →
        item ∈ known' ∨ ∃ span' id' c, (span', id') ∈ (span, id) :: imports ∧
          table.get? id' = some c ∧ item = (c.name, c.ty) := by
      intro known' h'
      rcases ih h' with hknown | ⟨span', id', c, hmem, hc, heq⟩
      · exact .inl hknown
      · exact .inr ⟨span', id', c, mem_cons_of_mem _ hmem, hc, heq⟩
    simp only [TypeScope.importsFrom] at h
    split at h
    · exact later known h
    · next c hc =>
      split at h
      · rcases later _ h with hknown | hlater
        · rcases mem_cons.1 hknown with rfl | hknown
          · exact .inr ⟨span, id, c, mem_cons_self, hc, rfl⟩
          · exact .inl hknown
        · exact .inr hlater
      · split at h
        · exact later known h
        · cases h

/-- The names of the classes do not depend on the bodies of the last one and on what was checked
since then. -/
theorem ClassTable.Extends.className_eq {table shown : ClassTable} {outline : Class}
    {methods : List Method} (later : (table.push { outline with methods := methods }).Extends shown)
    {id : ClassId} {c : Class} (hc : (table.push outline).get? id = some c) :
    shown.className id = c.name := by
  obtain ⟨d, hd, hname⟩ : ∃ d, (table.push { outline with methods := methods }).get? id = some d ∧
      d.name = c.name := by
    rcases get?_push_eq_some hc with hold | ⟨rfl, rfl⟩
    · refine ⟨c, ?_, rfl⟩
      rw [get?_push_of_lt (lt_size_of_get? hold)]
      exact hold
    · exact ⟨_, get?_push_size, rfl⟩
  obtain ⟨d', hd', same⟩ := later id d hd
  rw [className, hd']
  exact same.name.trans hname

section Prints

variable {table shown : ClassTable} {path : ModulePath} {tree : Tree.Module}
  {imports : List (Span × ClassId)} {types : TypeScope} {outline : Class}

/-- The name of the class can be written before its static methods, if it stands there at all. -/
def OwnNameFree (table : ClassTable) (imports : List (Span × ClassId)) (name : String) : Prop :=
  startsUpper name = true → (∀ c ∈ name.toList, c.isAlphanum = true) ∧
    ∀ span id c, (span, id) ∈ imports → table.get? id = some c → c.name ≠ name

theorem isTypeName_of_startsUpper {name : String} (hupper : startsUpper name = true)
    (hletters : ∀ c ∈ name.toList, c.isAlphanum = true) : IsTypeName name := by
  rw [startsUpper] at hupper
  cases hname : name.toList with
  | nil =>
    rw [hname] at hupper
    cases hupper
  | cons first tail =>
    rw [hname] at hupper hletters
    refine ⟨first, tail, ?_, hupper, (forall_mem_cons.1 hletters).2⟩
    rw [← hname, String.ofList_toList]

section Outlines

variable (outlines : Outlines table path tree imports types outline)

include outlines

/-- What a module looks up is a class that it imports, its own class or a builtin type. -/
theorem Outlines.lookup?_cases {name : String} {ty : Ty} (h : types.lookup? name = some ty) :
    (∃ span id c, (span, id) ∈ imports ∧ table.get? id = some c ∧ c.name = name ∧ ty = c.ty) ∨
      (name = tree.classDecl.name ∧ ty = .object table.size name) ∨
        ∃ p, ty = .prim p ∧ p.name = name := by
  unfold TypeScope.lookup? at h
  split at h
  · next found hfound =>
    obtain rfl := Option.some.inj h
    obtain ⟨before, behind, himports, -⟩ := lookup_eq_some_iff.1 hfound
    have hmem : (name, found) ∈ types.imports := by simp [himports]
    rcases mem_importsFrom outlines.imported hmem with hnil | ⟨span, id, c, himport, hc, heq⟩
    · cases hnil
    · cases heq
      exact .inl ⟨span, id, c, himport, hc, rfl, rfl⟩
  · split at h
    · next hown =>
      cases h
      refine .inr (.inl ⟨hown.trans outlines.ownName, ?_⟩)
      rw [outlines.ownType, hown, outlines.ownName]
    · obtain ⟨p, hp, rfl⟩ := Option.map_eq_some_iff.1 h
      have hfound := find?_some hp
      exact .inr (.inr ⟨p, rfl, of_decide_eq_true hfound⟩)

theorem Outlines.outline_eq :
    outline.id = table.size ∧ outline.name = tree.classDecl.name := by
  obtain ⟨draft, -⟩ := shape_drafted outlines.shaped
  exact ⟨draft.id_eq, draft.name_eq⟩

/-- A builtin type is known under its own name only. -/
theorem Outlines.prims (name : String) (p : Prim) (h : types.lookup? name = some (.prim p)) :
    p.name = name := by
  rcases outlines.lookup?_cases h with ⟨_, _, c, -, -, -, heq⟩ | ⟨-, heq⟩ | ⟨p', heq, hp⟩
  · cases heq
  · cases heq
  · cases heq
    exact hp

variable (typed : table.Typed)
  (names : ∀ id c, (table.push outline).get? id = some c → shown.className id = c.name)

include typed names

/-- A class is known under its own name only. -/
theorem Outlines.classes (name : String) (id : ClassId) (className : String)
    (h : types.lookup? name = some (.object id className)) : shown.className id = name := by
  rcases outlines.lookup?_cases h with ⟨span, id', c, -, hc, hcname, heq⟩ | ⟨hown, heq⟩ | ⟨_, heq, -⟩
  · cases heq
    have hkept : (table.push outline).get? c.id = some c := by
      rw [(typed id' c hc).id_eq, get?_push_of_lt (lt_size_of_get? hc)]
      exact hc
    rw [names _ _ hkept, hcname]
  · cases heq
    rw [names _ _ get?_push_size, outlines.outline_eq.2, hown]
  · cases heq

theorem Outlines.prints (own : OwnNameFree table imports tree.classDecl.name) (m : Method) :
    (bodyContext table types outline m).Prints shown := by
  obtain ⟨hid, hname⟩ := outlines.outline_eq
  have howner : (table.push outline).get? outline.id = some outline := by
    rw [hid]
    exact get?_push_size
  refine ⟨howner, outlines.prims, outlines.classes typed names, names _ _ howner, ?_⟩
  intro hupper
  change startsUpper outline.name = true at hupper
  change IsTypeName outline.name ∧ types.lookup? outline.name = some outline.ty
  rw [hname] at hupper
  obtain ⟨hletters, hfree⟩ := own hupper
  have hty : outline.ty = types.ownType := by
    rw [outlines.ownType, Class.ty, hid, hname]
  rw [hname, hty]
  refine ⟨isTypeName_of_startsUpper hupper hletters, ?_⟩
  -- no import hides the class itself
  have hlookup : types.imports.lookup tree.classDecl.name = none := by
    rw [lookup_eq_none_iff]
    intro item hitem
    rcases mem_importsFrom outlines.imported hitem with hnil | ⟨span, id, c, himport, hc, rfl⟩
    · cases hnil
    · simpa using (hfree span id c himport hc).symm
  rw [TypeScope.lookup?, hlookup, if_pos outlines.ownName.symm]

end Outlines

theorem Outlines.unique {types' : TypeScope} {outline' : Class}
    (h : Outlines table path tree imports types outline)
    (h' : Outlines table path tree imports types' outline') : types = types' ∧ outline = outline' := by
  obtain ⟨ownName, ownType, imported⟩ := types
  obtain ⟨ownName', ownType', imported'⟩ := types'
  obtain ⟨himported, rfl, rfl, hshaped⟩ := h
  obtain ⟨himported', rfl, rfl, hshaped'⟩ := h'
  cases himported.symm.trans himported'
  exact ⟨rfl, Except.ok.inj (hshaped.symm.trans hshaped')⟩

/-- A body that was checked is checked again from the tree as which it is written. -/
theorem ChecksTo.printed {m : Method} {body : Tree.Expr} {e : Expr}
    (h : ChecksTo table types outline m body e) (hblock : body.Block)
    (prints : (bodyContext table types outline m).Prints shown) :
    ChecksTo table types outline m (e.tree shown) e.erase := by
  obtain ⟨k, h⟩ := h
  obtain ⟨elaborates, wanted⟩ := elaborates_of_checkExpr body h
  rw [← e.ty_erase] at wanted
  exact ⟨k, (elaborates.written prints hblock).checks wanted⟩

end Prints

section Methods

variable {methods methods' : List Tree.Method} {i : Nat} {t : Tree.Method} {body : Tree.Expr}

/-- The methods where one has got another body: what they are up to places. -/
theorem erase_getElem?
    (h : methods'.map erase =
      (methods.map erase).set i { t.erase with body := body })
    (ht : methods[i]? = some t) {j : Nat} {tj t' : Tree.Method} (htj : methods[j]? = some tj)
    (ht' : methods'[j]? = some t') :
    t'.erase = { tj.erase with body := if j = i then body else tj.body.erase } := by
  have hj := congrArg (·[j]?) h
  simp only [getElem?_map, ht', Option.map_some] at hj
  by_cases hi : j = i
  · subst hi
    cases ht.symm.trans htj
    have hlength : j < (methods.map erase).length := by
      rw [length_map]
      exact (List.getElem?_eq_some_iff.1 ht).1
    rw [getElem?_set_self hlength] at hj
    rw [Option.some.inj hj, if_pos rfl]
  · rw [getElem?_set_ne (Ne.symm hi), getElem?_map, htj, Option.map_some] at hj
    rw [Option.some.inj hj, if_neg hi]
    rfl

theorem forall₂_alike
    (h : methods'.map erase =
      (methods.map erase).set i { t.erase with body := body })
    (ht : methods[i]? = some t) : Forall₂ Alike methods methods' := by
  have hlength := congrArg length h
  simp only [length_map, length_set] at hlength
  refine forall₂_iff_get.2 ⟨hlength.symm, ?_⟩
  intro j hj hj'
  have herase := erase_getElem? h ht (getElem?_eq_getElem hj) (getElem?_eq_getElem hj')
  exact ⟨(congrArg isStatic herase :), (congrArg returnType herase :).symm,
    (congrArg name herase :), (congrArg params herase :).symm⟩

theorem forall₂_of_map_eq {α β : Type} {f : α → β} {as bs : List α} (h : as.map f = bs.map f) :
    Forall₂ (fun a b => f a = f b) as bs := by
  rw [← forall₂_eq_eq_eq, forall₂_map_left_iff, forall₂_map_right_iff] at h
  exact h

end Methods

/-- A body without floating-point literals is printed in such a way that the module with the printed
lines in the place of the body's lines is accepted again, in the same table and with the same
imports, and has the same body up to places. The table by which it is printed may have grown since
the check. -/
theorem printed_body_alike {table table' shown : ClassTable} (reached : table.Reached)
    {source name : String} {path : ModulePath} {tree : Tree.Module}
    {imports : List (Span × ClassId)} (hparse : Tree.parse source name = .ok tree)
    (hcheck : checkModule table path tree imports = .ok table') (later : table'.Extends shown)
    (own : OwnNameFree table imports name) {i : Nat} {t : Tree.Method} {c : Class} {m : Method}
    {e : Expr} (ht : tree.classDecl.methods[i]? = some t) (hc : table'.get? table.size = some c)
    (hm : c.methods[i]? = some m) (he : m.body = some e) (free : e.floatFree = true) :
    ∃ tree' table'' c' m' e',
      Tree.parse (replaceLines source t.body.span (e.source shown 1)) name = .ok tree' ∧
      tree'.imports.map Tree.Import.erase = tree.imports.map Tree.Import.erase ∧
      checkModule table path tree' imports = .ok table'' ∧ table''.get? table.size = some c' ∧
      c'.methods[i]? = some m' ∧ m'.body = some e' ∧ e'.Alike e := by
  obtain ⟨types, outline, checked, outlines, hchecked, rfl⟩ := checkModule_eq_ok.1 hcheck
  obtain ⟨-, -, -, -, -, hname, -⟩ := Tree.parse_front hparse
  -- the body comes from the tree at `i`
  obtain rfl := Option.some.inj (ClassTable.get?_push_size.symm.trans hc)
  obtain ⟨m₀, t₀, e₀, hm₀, ht₀, rfl, hbody⟩ := checkBodies_getElem? hchecked hm
  obtain rfl := Option.some.inj (ht.symm.trans ht₀)
  obtain rfl : e₀ = e := Option.some.inj he
  have prints : (bodyContext table types outline m₀).Prints shown := by
    refine outlines.prints reached.typed (fun _ _ => later.className_eq) ?_ m₀
    rw [hname]
    exact own
  have hblock := Tree.block_of_parse hparse ht
  obtain ⟨d, tokens, htokens, hdtree, hw⟩ : ∃ (d : Grammar.Block) (tokens : List Token),
      d.tokens = tokens ++ [.dedent] ∧ d.tree = e₀.tree shown ∧
      SpellsLines ("\n\t".intercalate (e₀.sourceLines shown)).toList tokens := by
    obtain ⟨k, hcheckExpr⟩ := hbody
    exact (elaborates_of_checkExpr t.body hcheckExpr).1.exists_block prints hblock free
  obtain ⟨tree', hparse', herase⟩ :=
    Tree.parse_replaceLines hparse ht htokens hw (toList_source_one e₀)
  have hmethods := congrArg (·.classDecl.methods) herase
  have hslots := congrArg (·.classDecl.slots) herase
  have himports := congrArg (·.imports) herase
  have hname' : tree'.classDecl.name = name := congrArg (·.classDecl.name) herase
  obtain ⟨table'', hcheck', hbodies⟩ := checkModule_again hcheck (hname'.trans hname.symm)
    (forall₂_of_map_eq hslots.symm) (forall₂_alike hmethods ht) (by
      intro types' outline' outlines' j m' tj t' e' hm' htj ht' hbody'
      obtain ⟨rfl, rfl⟩ := outlines.unique outlines'
      have hnew : t'.body.erase = if j = i then d.tree else tj.body.erase :=
        congrArg Tree.Method.body (erase_getElem? hmethods ht htj ht')
      by_cases hj : j = i
      · -- the printed body
        subst hj
        obtain rfl := Option.some.inj (hm₀.symm.trans hm')
        obtain rfl := Option.some.inj (ht.symm.trans htj)
        obtain rfl := hbody.unique hbody'
        rw [if_pos rfl, hdtree] at hnew
        exact ⟨e₀.erase, hnew ▸ hbody.printed hblock prints, e₀.erase_erase⟩
      · rw [if_neg hj] at hnew
        exact hnew ▸ hbody'.erased)
  obtain ⟨c', m', e', hc', hm', he', halike⟩ := hbodies i _ _ e₀ hc hm rfl
  exact ⟨tree', table'', c', m', e', hparse', himports, hcheck', hc', hm', he', halike⟩

/-- The last method of the example, a quote with two holes, is printed, read and checked again. -/
theorem printed_body_alike_show : ∃ tree t m e, Tree.parse pointText "Point" = .ok tree ∧
    tree.classDecl.methods[2]? = some t ∧ pointClass.methods[2]? = some m ∧ m.body = some e ∧
    ∃ tree' table'' c' m' e',
      Tree.parse (replaceLines pointText t.body.span (e.source pointTable 1)) "Point" = .ok tree' ∧
      tree'.imports.map Tree.Import.erase = tree.imports.map Tree.Import.erase ∧
      checkModule .empty pointPath tree' [] = .ok table'' ∧ table''.get? 0 = some c' ∧
      c'.methods[2]? = some m' ∧ m'.body = some e' ∧ e'.Alike e := by
  obtain ⟨tree, hparse, hcheck⟩ := checked_pointText
  have hbody : (pointClass.methods[2]?).any (fun m => m.body.any Expr.floatFree) = true := by
    decide +kernel
  obtain ⟨m, hm, hfree⟩ := (Option.any_eq_true _ _).1 hbody
  obtain ⟨e, he, hfree⟩ := (Option.any_eq_true _ _).1 hfree
  -- the method was made from one of the tree
  obtain ⟨types, outline, checked, -, hchecked, htable⟩ := checkModule_eq_ok.1 hcheck
  have hclass : some { outline with methods := checked } = some pointClass := by
    rw [← get?_pointTable, htable]
    exact ClassTable.get?_push_size.symm
  have hmethod : checked[2]? = some m := by
    rw [← hm, ← Option.some.inj hclass]
  obtain ⟨m₀, t, e₀, -, ht, -, -⟩ := checkBodies_getElem? hchecked hmethod
  have own : OwnNameFree .empty [] "Point" :=
    fun _ => ⟨all_eq_true.1 (by decide), fun _ _ _ hmem => absurd hmem not_mem_nil⟩
  exact ⟨tree, t, m, e, hparse, ht, hm, he, printed_body_alike .empty hparse hcheck (.refl _) own ht
    get?_pointTable hm he hfree⟩

end Typed

end ClassLang
