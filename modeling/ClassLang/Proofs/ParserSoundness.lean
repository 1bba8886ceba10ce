import ClassLang.Proofs.ParsedPlaces

/-!
# The parser follows the grammar

The parsers of slots, methods and modules, on a supply that mirrors the lexer. A module that is
accepted is read to its end, its places nest, and it has a derivation (`Mirror.wholeModule_runs`). On
the lexer itself this says that whatever the parser accepts has a derivation, and that the tree is the
derivation's tree up to places. The main statement is `Tree.parse_sound`.
-/

set_option autoImplicit false

namespace ClassLang.Tree

open List Grammar Parse

namespace Parse

/-- A method is its head, the line break before its body and the block of the body. -/
def Splits (text : List Char) (l₀ : Lexer) (m : Method) (l' : Lexer) : Prop :=
  ∃ (d : Grammar.Method) (l l₁ : Lexer), l₀.Passes d.headTokens l ∧ l.Hands .indent l₁ ∧
    Block text l₁ m.body l' ∧ l₁.Passes d.body.tokens l' ∧ d.tree = m.erase

/-- From here on the text has these methods one after the other, and then it ends. -/
inductive Lists (text : List Char) : Lexer → List Method → Prop where
  | nil {l l' : Lexer} (heof : l.Hands .eof l') : Lists text l []
  | cons {l l' m others} (first : Splits text l m l')
      (rest : Lists text l' others) : Lists text l (m :: others)

variable {text : List Char} {l l' : Lexer}

theorem Splits.sound {m : Method} (h : Splits text l m l') :
    ∃ d : Grammar.Method, l.Passes d.tokens l' ∧ d.tree = m.erase := by
  obtain ⟨d, l₀, l₁, hhead, hindent, -, hbody, htree⟩ := h
  exact ⟨d, hhead.append ((hindent.passes rfl).append hbody), htree⟩

theorem Lists.sound {methods : List Method} (h : Lists text l methods) :
    ∃ (ds : List Grammar.Method) (m l' : Lexer), l.Passes (ds.flatMap Grammar.Method.tokens) m ∧
      m.Hands .eof l' ∧ ds.map Grammar.Method.tree = methods.map Method.erase := by
  induction h with
  | @nil l l' heof => exact ⟨[], l, l', .nil, heof, rfl⟩
  | cons first _ ih =>
    obtain ⟨d, hd, htree⟩ := first.sound
    obtain ⟨ds, m, l', hds, heof, htrees⟩ := ih
    exact ⟨d :: ds, m, l', hd.append hds, heof, by rw [map_cons, htree, htrees]; rfl⟩

end Parse

/-- A class up to its methods, which it has from `l'` on. -/
structure ClassDecl.Front (text : List Char) (decl : ClassDecl) (name : String)
    (slots : List Grammar.Slot) (l l' : Lexer) : Prop where
  passes : l.Passes (Grammar.blockTokens .slotsWord Grammar.Slot.tokens slots) l'
  methods : Lists text l' decl.methods
  name : decl.name = name
  trees : slots.map Grammar.Slot.tree = decl.slots.map Slot.erase

/-- No part of the class stands before `l`. Where it has no slots, its head is the place behind the
token that is looked at. -/
structure ClassDecl.From (decl : ClassDecl) (l : Lexer) : Prop where
  head : l.pos ≤ decl.headSpan.start
  noSlots : decl.slots = [] →
    ∃ lexed l', l.nextToken = (.ok lexed, l') ∧ decl.headSpan = .emptyAt l'.pos
  slots : ∀ slot ∈ decl.slots, l.pos ≤ slot.span.start
  methods : ∀ m ∈ decl.methods, l.pos ≤ m.span.start

/-- A module up to its methods. -/
def Module.Front (text : List Char) (tree : Module) (name : String) (l : Lexer) : Prop :=
  ∃ (imports : List Grammar.Import) (slots : List Grammar.Slot) (l' : Lexer),
    l.Passes (Grammar.blockTokens .importWord Grammar.Import.tokens imports ++
      Grammar.blockTokens .slotsWord Grammar.Slot.tokens slots) l' ∧
    Lists text l' tree.classDecl.methods ∧ tree.classDecl.name = name ∧
    imports.map Grammar.Import.tree = tree.imports.map Import.erase ∧
    slots.map Grammar.Slot.tree = tree.classDecl.slots.map Slot.erase

/-- Behind the imports, at `l'`, is the class. Its place starts there, or behind its first token if
there are no imports, and goes on to the end of the text. -/
structure Module.Opens (text : List Char) (tree : Module) (name : String)
    (imports : List Grammar.Import) (l l' : Lexer) : Prop where
  passes : l.Passes (Grammar.blockTokens .importWord Grammar.Import.tokens imports) l'
  trees : imports.map Grammar.Import.tree = tree.imports.map Import.erase
  front : ∃ slots l'', tree.classDecl.Front text name slots l' l''
  behind : tree.classDecl.From l'
  start : if tree.imports = [] then
      ∃ lexed l₁, l'.nextToken = (.ok lexed, l₁) ∧ tree.classDecl.span.start = l₁.pos
    else tree.classDecl.span.start = l'.pos
  stop : tree.classDecl.span.stop = byteLength text

namespace Mirror

variable {σ : Type} [Supply σ] {m : Mirror σ} {s : Parser σ} {p : Parser} {l : Lexer} {holes : Nat}

/-! ## Slots and parameters -/

theorem slot_runs {start : Nat} (h : m.Stands (.word holes) l s p) (hstart : start ≤ l.pos) :
    m.Runs s p slot slot (m.LineRead Slot.tokens Slot.tree Slot.erase
      (fun slot => slot.Nested m.text ∧ start ≤ slot.span.start) holes l p) := by
  apply Runs.bind (next_runs h)
  rintro ⟨token, span⟩ s' p' took
  have behind : ∀ mutable : Bool, token = (if mutable then .varWord else .valWord) →
      m.Runs s' p'
        (do
          let ty ← typeExpr
          let named ← name
          return (⟨span.cover named.2, mutable, ty, named.1⟩ : Slot))
        (do
          let ty ← typeExpr
          let named ← name
          return (⟨span.cover named.2, mutable, ty, named.1⟩ : Slot))
        (m.LineRead Slot.tokens Slot.tree Slot.erase
          (fun slot => slot.Nested m.text ∧ start ≤ slot.span.start) holes l p) := by
    rintro mutable rfl
    have passed := took.passed (by cases mutable <;> rfl)
    apply Runs.bind (typeExpr_runs passed.stands)
    rintro ty s'' p'' ⟨d, l₂, passed', htree, hrow, hty⟩
    apply Runs.bind (name_runs passed'.stands)
    rintro ⟨text, place⟩ s₃ p₃ named
    have hbetween := took.row.append (hrow.append named.row)
    obtain ⟨hplace, hcovered⟩ := took.piece.covers named.spelled.piece hbetween
    refine .pure ⟨⟨mutable, d, text⟩, p₃.lexer, passed.trans (passed'.trans (i := 2) named.toPassed), ?_,
      ⟨hplace.sublist ((sublist_append_left [ty.span] _).cons _), hty⟩, hstart.trans hcovered.1⟩
    rw [Slot.tree, htree, Slot.erase]
  cases token
  case varWord => exact behind true rfl
  case valWord => exact behind false rfl
  all_goals exact took.fail rfl

theorem head_runs (h : m.Stands (.word holes) l s p) :
    m.Runs s p head head fun head s' p' =>
      ∃ (ds : List Grammar.Slot) (l' : Lexer), m.Passed 0
        (Grammar.blockTokens .slotsWord Grammar.Slot.tokens ds) holes l l' p s' p' ∧
        ds.map Grammar.Slot.tree = head.2.map Slot.erase ∧ head.1.Piece m.text ∧
        l.pos ≤ head.1.start ∧ (head.2 = [] →
          ∃ lexed l', l.nextToken = (.ok lexed, l') ∧ head.1 = .emptyAt l'.pos) ∧
        ∀ slot ∈ head.2, slot.Nested m.text ∧ l.pos ≤ slot.span.start := by
  apply Runs.bind (peek_runs h)
  intro token s' p' saw
  apply Runs.ite
  · rintro rfl
    apply Runs.bind saw.next_runs
    rintro ⟨token, span⟩ s'' p'' ⟨took, rfl⟩
    have passed := took.passed rfl
    apply Runs.bind (expect_runs passed.stands rfl _)
    intro _ s₃ p₃ passed'
    have hbound := p₃.left_lt_bound
    apply Runs.bind (.withBound passed'.stands fun _ =>
      linesFrom_runs slot_runs passed'.stands (passed.le.trans passed'.le) (by omega))
    rintro slots _ _ ⟨first, others, passed'', htrees, hslots⟩
    have hhead : ∀ place, place = slots.getLast?.elim span (span.cover ·.span) →
        place.Piece m.text ∧ l.pos ≤ place.start := by
      -- the word covers up to the last slot, where there is one
      rintro _ rfl
      cases hlast : slots.getLast? with
      | none => exact ⟨took.piece, took.row.1⟩
      | some last =>
        obtain ⟨hnested, hle⟩ := hslots last (mem_of_getLast? hlast)
        exact ⟨took.piece.cover hnested.place.piece, Nat.le_min.2 ⟨took.row.1, hle⟩⟩
    refine .pure ⟨first :: others, _,
      saw.toPassed.trans (passed.trans (i := 0) (passed'.trans (i := 0) passed'')), htrees,
      (hhead _ rfl).1, (hhead _ rfl).2, ?_, hslots⟩
    rintro rfl
    cases htrees
  · intro _
    apply Runs.bind (.pos saw.stands.pos_eq)
    rintro _ _ _ ⟨rfl, rfl, rfl⟩
    have hpos := saw.stands.boundary
    obtain ⟨lexed, hnext⟩ := saw.next
    exact .pure ⟨[], l, saw.toPassed, rfl, ⟨hpos, hpos, Nat.le_refl _⟩, saw.stands.le,
      fun _ => ⟨lexed, _, hnext, rfl⟩, forall_mem_nil _⟩

theorem paramsFrom_runs {extra bound : Nat} (h : m.Stands (.word holes) l s p)
    (hbound : p.left < bound) :
    m.Runs s p (paramsFrom (extra + bound)) (paramsFrom bound) fun params s' p' =>
      ∃ first others, m.Passed 0 (paramTokens (first :: others)) holes l p'.lexer p s' p' ∧
        (first :: others).map Param.tree = params.map Param.erase ∧
        Row l.pos p'.lexer.pos (params.map Param.span) ∧ ∀ param ∈ params, param.Nested m.text := by
  induction bound generalizing s p l with
  | zero => cases hbound
  | succ bound ih =>
    rw [← Nat.add_assoc, paramsFrom, paramsFrom]
    apply Runs.bind (typeExpr_runs h)
    rintro ty s' p' ⟨d, l₁, passed, htree, hrow, hty⟩
    apply Runs.bind (name_runs passed.stands)
    rintro ⟨text, place⟩ s'' p'' named
    have passed' : m.Passed 1 (Param.tokens ⟨d, text⟩) holes l p''.lexer p s'' p'' :=
      passed.trans named.toPassed
    have hbetween := hrow.append named.row
    obtain ⟨hplace, hrow'⟩ := hty.piece.covers named.spelled.piece hbetween
    have hparam : Param.Nested m.text ⟨ty.span.cover place, ty, text⟩ :=
      ⟨hplace.sublist (sublist_append_left [ty.span] _), hty⟩
    have herase : Param.tree ⟨d, text⟩ = Param.erase ⟨ty.span.cover place, ty, text⟩ := by
      rw [Param.tree, htree, Param.erase]
    apply Runs.bind (next_runs passed'.stands)
    rintro ⟨token, span⟩ s₃ p₃ took
    cases token
    case comma =>
      have passed'' := passed'.trans (i := 1) (took.passed rfl)
      have hleft := passed''.left
      apply Runs.bind (ih passed''.stands (by omega))
      rintro others _ _ ⟨second, ds, passed₃, htrees, hothers, hall⟩
      refine .pure ⟨⟨d, text⟩, second :: ds, ?_, ?_, (hrow'.until took.row.le).append hothers,
        forall_mem_cons.2 ⟨hparam, hall⟩⟩
      · simpa [paramTokens] using passed''.trans (i := 0) passed₃
      · rw [map_cons, htrees, herase, map_cons]
    case rightParen =>
      exact .pure ⟨⟨d, text⟩, [], passed'.trans (took.passed rfl),
        by rw [map_cons, herase]; rfl, hrow'.until took.row.le,
        forall_mem_singleton.2 hparam⟩
    all_goals exact took.fail rfl

/-! ## Methods -/

/-- The parsers have read a method that begins at `l`. -/
structure MethodRead (m : Mirror σ) (holes : Nat) (l : Lexer) (p : Parser) (method : Method)
    (s' : Parser σ) (p' : Parser) : Prop extends m.Gone 1 (.word holes) l p'.lexer p s' p' where
  nested : method.Nested m.text
  start : l.pos ≤ method.span.start
  splits : Splits m.text l method p'.lexer

/-- A method from the end of its parameters on. -/
theorem methodBody_runs {start : Span} {isStatic : Bool} {returnType : TypeExpr}
    {dty : Grammar.TypeExpr} {name : Grammar.MethodName} {params : List Param}
    {ds : List Grammar.Param} {l₀ l₁ l₂ : Lexer} {p₀ : Parser}
    (passed : m.Passed 1 ((if isStatic then .funWord else .defWord) :: (dty.tokens ++
      name.token :: .leftParen :: Grammar.paramTokens ds)) holes l₀ l p₀ s p)
    (hstart : start.Piece m.text) (hty : returnType.Nested m.text)
    (hparams : ∀ param ∈ params, param.Nested m.text)
    (hrow : Row l₀.pos l₁.pos [start]) (hrow' : Row l₁.pos l₂.pos [returnType.span])
    (hrow'' : Row l₂.pos l.pos (params.map Param.span)) (htree : dty.tree = returnType.erase)
    (hds : ds.map Grammar.Param.tree = params.map Param.erase) :
    m.Runs s p
      (do
        let _ ← expect .indent .methodBody
        let body ← block
        return (⟨start.cover body.span, isStatic, returnType, name.text, params, body⟩ : Method))
      (do
        let _ ← expect .indent .methodBody
        let body ← block
        return (⟨start.cover body.span, isStatic, returnType, name.text, params, body⟩ : Method))
      (m.MethodRead holes l₀ p₀) := by
  apply Runs.bind (expect_runs passed.stands rfl _)
  intro _ s' p' entered
  apply Runs.bind (.withBound entered.stands fun _ => blockFrom_runs entered.stands p'.left_lt_bound)
  rintro body _ _ ⟨gone, hblock⟩
  obtain ⟨hbody, hbodyRow⟩ := hblock.places
  obtain ⟨dbody, hpasses, hbtree⟩ := hblock.sound
  have hbetween := hrow.append ((hrow'.append (hrow''.until entered.le)).append hbodyRow)
  obtain ⟨hplace, hcovered⟩ := hstart.covers hbody.piece hbetween
  have hindent : l.Hands .indent p'.lexer := by
    obtain ⟨l', hhands, -, ts, hreads, hts⟩ := (entered.passes 0).first
    obtain rfl := map_eq_nil_iff.1 hts
    cases hreads
    exact hhands
  refine .pure ⟨passed.toGone.trans (entered.toGone.trans (i := 0) gone),
    ⟨hplace.sublist (sublist_cons_self _ _), hty, hparams, hbody⟩, hcovered.1,
    ⟨isStatic, dty, name, ds, dbody⟩, l, p'.lexer, passed.passes, hindent, hblock, hpasses, ?_⟩
  rw [Grammar.Method.tree, Method.erase, htree, hds, hbtree]

theorem method_runs {start : Span} {isStatic : Bool} {l₀ : Lexer} {p₀ : Parser}
    (word : m.Passed 1 [if isStatic then .funWord else .defWord] holes l₀ l p₀ s p)
    (hstart : start.Piece m.text) (hrow : Row l₀.pos l.pos [start]) :
    m.Runs s p (method start isStatic) (method start isStatic)
      (m.MethodRead holes l₀ p₀) := by
  apply Runs.bind (typeExpr_runs word.stands)
  rintro returnType s' p' ⟨d, l₁, passed, htree, hrow', hty⟩
  apply Runs.bind (next_runs passed.stands)
  rintro ⟨token, span⟩ s'' p'' took
  have behind : ∀ name : MethodName, token = name.token →
      m.Runs s'' p''
        (do
          let _ ← expect .leftParen .openingParen
          let params ← if ← tryTake .rightParen then pure [] else withBound paramsFrom
          let _ ← expect .indent .methodBody
          let body ← block
          return (⟨start.cover body.span, isStatic, returnType, name.text, params, body⟩ : Method))
        (do
          let _ ← expect .leftParen .openingParen
          let params ← if ← tryTake .rightParen then pure [] else withBound paramsFrom
          let _ ← expect .indent .methodBody
          let body ← block
          return (⟨start.cover body.span, isStatic, returnType, name.text, params, body⟩ : Method))
        (m.MethodRead holes l₀ p₀) := by
    rintro name rfl
    apply Runs.bind (expect_runs (took.passed (by cases name <;> rfl)).stands rfl _)
    intro _ s₃ p₃ opened
    have hhead : ∀ {ds l' s' p'}, m.Passed 0 (paramTokens ds) holes p₃.lexer l' p₃ s' p' →
        m.Passed 1 ((if isStatic then .funWord else .defWord) :: (d.tokens ++
          name.token :: .leftParen :: Grammar.paramTokens ds)) holes l₀ l' p₀ s' p' := fun hds =>
      word.trans (passed.trans (i := 0)
        ((took.passed (by cases name <;> rfl)).trans (i := 0) (opened.trans (i := 0) hds)))
    have hopened := took.row.le.trans opened.le
    apply Runs.bind (tryTake_runs opened.stands rfl)
    rintro taken s₄ p₄ ⟨l₄, tried, -⟩
    apply Runs.ite
    · intro htaken
      rw [if_pos htaken] at tried
      have none : m.Runs s₄ p₄ (pure []) (pure []) fun (params : List Param) s p =>
          params = [] ∧ s = s₄ ∧ p = p₄ :=
        .pure ⟨rfl, rfl, rfl⟩
      apply Runs.bind none
      rintro _ _ _ ⟨rfl, rfl, rfl⟩
      have noParams : m.Passed 0 (Grammar.paramTokens []) holes p₃.lexer l₄ p₃ _ _ := tried
      exact methodBody_runs (hhead noParams) hstart hty (forall_mem_nil _) hrow hrow'
        (hopened.trans tried.le) htree rfl
    · intro htaken
      rw [if_neg htaken] at tried
      have hbound := p₄.left_lt_bound
      apply Runs.bind (.withBound tried.stands fun _ => paramsFrom_runs tried.stands (by omega))
      rintro params s₅ p₅ ⟨first, others, passed', htrees, hparams, hnested⟩
      exact methodBody_runs (hhead (tried.trans passed')) hstart hty hnested hrow
        hrow' (hparams.widen (hopened.trans tried.le) (Nat.le_refl _)) htree htrees
  cases token
  case name text => exact behind (.name text) rfl
  case operator text => exact behind (.operator text) rfl
  all_goals exact took.fail rfl

theorem methodsFrom_runs {extra bound : Nat} (h : m.Stands (.word holes) l s p)
    (hbound : p.left < bound) :
    m.Runs s p (methodsFrom (extra + bound)) (methodsFrom bound) fun methods s' p' =>
      m.Finished s' p' ∧ (∀ method ∈ methods, method.Nested m.text ∧ l.pos ≤ method.span.start) ∧
        Lists m.text l methods := by
  induction bound generalizing s p l with
  | zero => cases hbound
  | succ bound ih =>
    rw [← Nat.add_assoc, methodsFrom, methodsFrom]
    apply Runs.bind (next_runs h)
    rintro ⟨token, span⟩ s' p' took
    cases token
    case funWord | defWord =>
      apply Runs.bind (method_runs (took.passed rfl) took.piece took.row)
      intro first s'' p'' read
      have hleft := read.left
      apply Runs.bind (ih read.stands (by omega))
      rintro others _ _ ⟨finished, hothers, hlists⟩
      refine .pure ⟨finished, forall_mem_cons.2 ⟨⟨read.nested, read.start⟩, fun other hother => ?_⟩,
        .cons read.splits hlists⟩
      exact (hothers other hother).imp_right read.le.trans
    case eof => exact .pure ⟨took.finished rfl, forall_mem_nil _, .nil took.hands⟩
    all_goals exact took.fail rfl

/-! ## Modules -/

variable {s' : Parser σ} {p' : Parser}

theorem Finished.pos_eq (h : m.Finished s' p') : s'.pos = p'.pos := by
  obtain ⟨ts, r, eof, -, -, -, same, -⟩ := h
  exact m.pos same

theorem Finished.boundary (h : m.Finished s' p') : Boundary m.text p'.pos := by
  obtain ⟨ts, r, eof, -, -, -, -, hpos⟩ := h
  exact ⟨m.text, [], (append_nil _).symm, hpos.symm⟩

theorem classDecl_runs (name : String) (h : m.Stands (.word holes) l s p) :
    m.Runs s p (classDecl name) (classDecl name) fun decl s' p' =>
      m.Finished s' p' ∧ decl.Nested m.text ∧ (∃ slots l', decl.Front m.text name slots l l') ∧
        decl.From l ∧ decl.span = ⟨p.pos, byteLength m.text⟩ := by
  apply Runs.bind (.pos h.pos_eq)
  rintro _ _ _ ⟨rfl, rfl, rfl⟩
  apply Runs.bind (head_runs h)
  rintro ⟨headSpan, slots⟩ s' p' ⟨ds, l', passed, htrees, hhead, hstart, hnone, hslots⟩
  have hbound := p'.left_lt_bound
  apply Runs.bind (.withBound passed.stands fun _ => methodsFrom_runs passed.stands (by omega))
  rintro methods s'' p'' ⟨finished, hmethods, hlists⟩
  have hstop : p''.pos = byteLength m.text := by
    obtain ⟨ts, r, eof, -, -, -, -, hpos⟩ := finished
    exact hpos
  apply Runs.bind (.pos finished.pos_eq)
  rintro _ _ _ ⟨rfl, rfl, rfl⟩
  refine .pure ⟨finished, ⟨⟨h.boundary, finished.boundary, hstop ▸ h.boundary.le⟩, hhead,
    fun slot hslot => (hslots slot hslot).1, fun method hmethod => (hmethods method hmethod).1⟩,
    ⟨ds, l', passed.passes, hlists, rfl, htrees⟩, ?_, by rw [hstop]⟩
  exact ⟨hstart, hnone, fun slot hslot => (hslots slot hslot).2, fun method hmethod =>
    passed.le.trans (hmethods method hmethod).2⟩

/-- A module that is accepted is read to its end. -/
theorem wholeModule_runs (name : String) (h : m.Stands (.word holes) l s p) :
    m.Runs s p (wholeModule name) (wholeModule name) fun tree s' p' =>
      m.Finished s' p' ∧ tree.Nested m.text ∧ ∃ imports l', tree.Opens m.text name imports l l' := by
  apply Runs.bind (imports_runs h)
  rintro items s' p' ⟨ds, l₁, passed, htrees, hitems, hseen⟩
  apply Runs.bind (classDecl_runs name passed.stands)
  rintro decl s'' p'' ⟨finished, hdecl, front, behind, hspan⟩
  apply Runs.bind (.pos finished.pos_eq)
  rintro _ _ _ ⟨rfl, rfl, rfl⟩
  refine .pure ⟨finished, ⟨⟨Nat.zero_le _, finished.boundary.le⟩, hitems, hdecl⟩, ds, l₁,
    passed.passes, htrees, front, behind, ?_, by rw [hspan]⟩
  dsimp only
  rw [hspan]
  split at hseen
  · next hnone =>
    obtain ⟨lexed, hnext⟩ := hseen
    rw [if_pos hnone]
    exact ⟨lexed, p'.lexer, hnext, rfl⟩
  · next hsome =>
    rw [if_neg hsome, hseen]
    rfl

end Mirror

/-- The lexer mirrors itself. -/
def plainMirror (source : String) : Mirror Lexer where
  start := Reader.ofText source
  text := Lexer.normalized source
  twin _ s l := s = l
  inText := Lexer.in_ofText source
  pos := by
    rintro ts _ l rfl
    rfl
  measure := by
    rintro ts _ l rfl
    exact Nat.le_refl _
  word := by
    rintro ts _ l holes - rfl
    exact ⟨rfl, fun _ _ => rfl⟩
  quote := by
    rintro ts _ l holes - rfl
    exact ⟨rfl, fun _ _ => rfl⟩

/-- The two ways in which the parser can end. -/
theorem parse_cases (source name : String) :
    (∃ tree, parse source name = .ok tree ∧ tree.Nested (Lexer.normalized source) ∧
      ∃ imports l, tree.Opens (Lexer.normalized source) name imports (.ofText source) l) ∨
    ∃ e, parse source name = .error e ∧ (plainMirror source).Refuses e := by
  have hruns := Mirror.wholeModule_runs (m := plainMirror source) name (.taken .nil rfl)
  rcases hruns with ⟨tree, s, p, -, hplain, -, hnested, hopens⟩ | ⟨e, -, hplain, hrefuses⟩
  · exact .inl ⟨tree, congrArg (Prod.fst <$> ·) hplain, hnested, hopens⟩
  · exact .inr ⟨e, congrArg (Prod.fst <$> ·) hplain, hrefuses⟩

section Parsed

variable {source name : String} {tree : Module}

theorem nested_opens_of_parse (h : parse source name = .ok tree) :
    tree.Nested (Lexer.normalized source) ∧
      ∃ imports l, tree.Opens (Lexer.normalized source) name imports (.ofText source) l := by
  rcases parse_cases source name with ⟨tree', hparse, hnested, hopens⟩ | ⟨e, hparse, -⟩
  · cases h.symm.trans hparse
    exact ⟨hnested, hopens⟩
  · cases h.symm.trans hparse

/-- **The tree of a text** has places that nest in the text. -/
theorem nested_of_parse (h : parse source name = .ok tree) :
    tree.Nested (Lexer.normalized source) :=
  (nested_opens_of_parse h).1

/-- A module up to its methods. -/
theorem parse_front (h : parse source name = .ok tree) :
    tree.Front (Lexer.normalized source) name (.ofText source) := by
  obtain ⟨-, imports, l, hopens⟩ := nested_opens_of_parse h
  obtain ⟨slots, l', front⟩ := hopens.front
  exact ⟨imports, slots, l', hopens.passes.append front.passes, front.methods, front.name,
    hopens.trees, front.trees⟩

/-- What the parser accepts has a derivation, and its tree is that of the derivation. -/
theorem parse_sound (h : parse source name = .ok tree) :
    ∃ (d : Grammar.Module) (m l' : Lexer), (Lexer.ofText source).Passes d.bodyTokens m ∧
      m.Hands .eof l' ∧ d.tree name = tree.erase := by
  obtain ⟨imports, slots, l, hfront, hmethods, hname, himports, hslots⟩ := parse_front h
  obtain ⟨methods, m, l', hpasses, heof, htrees⟩ := hmethods.sound
  have hbody := hfront.append hpasses
  rw [append_assoc] at hbody
  refine ⟨⟨imports, slots, methods⟩, m, l', hbody, heof, ?_⟩
  rw [Grammar.Module.tree, Module.erase, ClassDecl.erase, himports, hslots, htrees, hname]

end Parsed

end ClassLang.Tree
