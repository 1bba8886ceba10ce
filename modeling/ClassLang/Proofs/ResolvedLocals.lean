import ClassLang.Proofs.ErasedPlaces
import ClassLang.Proofs.Expectations

/-!
# Local variables are resolved exactly

`Resolved` says of a typed tree that each local stands behind the declaration that it is bound by, and
that no declaration takes a name that is already in scope. `Expr.declared` lists the declarations in
the order in which they are made. The checker resolves the names of every body that it accepts and
numbers its declarations from zero on (`Elaborates.resolution`). In the code of such a body each local
is stored once, and before it is read (`emit_storesFirst`). The main statement is `locals_resolved`.
-/

set_option autoImplicit false

namespace ClassLang.Typed

open List

/-! ## Declarations -/

mutual

/-- The locals that an expression declares, in the order in which they are bound. -/
def Expr.declared : Expr → List LocalVar
  | .localVar _ _ _ _ => []
  | .param _ _ _ _ => []
  | .receiver _ _ => []
  | .slot _ _ _ target => target.declared
  | .methodCall _ _ _ target args => target.declared ++ declaredList args
  | .staticCall _ _ _ args => declaredList args
  | .letIn _ (.single _ ty id name) value body => value.declared ++ ⟨id, name, ty⟩ :: body.declared
  | .letIn _ (.ignore _) value body => value.declared ++ body.declared
  | .seq _ first body => first.declared ++ body.declared
  | .literal _ _ => []
  | .quote _ _ holes => declaredHoles holes

def declaredList : List Expr → List LocalVar
  | [] => []
  | e :: rest => e.declared ++ declaredList rest

def declaredHoles : List (Expr × String) → List LocalVar
  | [] => []
  | (hole, _) :: rest => hole.declared ++ declaredHoles rest

end

/-- Locals with the numbers from `n` on and below `k`, in this order. -/
structure Numbered (n k : Nat) (vars : List LocalVar) : Prop where
  le : n ≤ k
  ids : vars.map LocalVar.id = range' n (k - n)

namespace Numbered

variable {n m k : Nat} {a b : List LocalVar}

theorem nil (n : Nat) : Numbered n n [] := ⟨Nat.le_refl n, by simp⟩

theorem append (ha : Numbered n m a) (hb : Numbered m k b) : Numbered n k (a ++ b) where
  le := Nat.le_trans ha.le hb.le
  ids := by
    have hle := ha.le
    have hle' := hb.le
    have hcount : k - n = (m - n) + (k - m) := by omega
    have hstart : n + (m - n) = m := by omega
    rw [map_append, ha.ids, hb.ids, hcount, ← range'_append_1, hstart]

/-- A declaration takes the next number behind those of its value. -/
theorem declare (ha : Numbered n m a) (name : String) (ty : Ty) (hb : Numbered (m + 1) k b) :
    Numbered n k (a ++ ⟨m, name, ty⟩ :: b) := by
  have hone : Numbered m (m + 1) [⟨m, name, ty⟩] := ⟨Nat.le_succ m, by simp⟩
  exact ha.append (hone.append hb)

end Numbered

/-! ## Names -/

/-- Every name leads to what it is bound to. The list holds the locals whose declarations the
expression stands behind. A declaration takes a name that is not in scope yet. -/
inductive Resolved (isStatic : Bool) (params : List Param) : List LocalVar → Expr → Prop where
  | localVar {vars : List LocalVar} {span : Span} {ty : Ty} {id : Nat} {name : String}
      (bound : ⟨id, name, ty⟩ ∈ vars) : Resolved isStatic params vars (.localVar span ty id name)
  | param {vars : List LocalVar} {span : Span} {index : Nat} {p : Param}
      (bound : params[index]? = some p) :
      Resolved isStatic params vars (.param span p.ty index p.name)
  | receiver {vars : List LocalVar} {span : Span} {ty : Ty} (present : isStatic = false) :
      Resolved isStatic params vars (.receiver span ty)
  | slot {vars : List LocalVar} {span : Span} {ty : Ty} {ref : SlotRef} {target : Expr}
      (htarget : Resolved isStatic params vars target) :
      Resolved isStatic params vars (.slot span ty ref target)
  | methodCall {vars : List LocalVar} {span : Span} {ty : Ty} {callee : Callee} {target : Expr}
      {args : List Expr} (htarget : Resolved isStatic params vars target)
      (hargs : ∀ arg ∈ args, Resolved isStatic params vars arg) :
      Resolved isStatic params vars (.methodCall span ty callee target args)
  | staticCall {vars : List LocalVar} {span : Span} {ty : Ty} {callee : Callee} {args : List Expr}
      (hargs : ∀ arg ∈ args, Resolved isStatic params vars arg) :
      Resolved isStatic params vars (.staticCall span ty callee args)
  | letSingle {vars : List LocalVar} {span patternSpan : Span} {id : Nat} {name : String}
      {value body : Expr} (notParam : ∀ p ∈ params, p.name ≠ name)
      (notLocal : ∀ v ∈ vars, v.name ≠ name) (hvalue : Resolved isStatic params vars value)
      (hbody : Resolved isStatic params (⟨id, name, value.ty⟩ :: vars) body) :
      Resolved isStatic params vars (.letIn span (.single patternSpan value.ty id name) value body)
  | letIgnore {vars : List LocalVar} {span patternSpan : Span} {value body : Expr}
      (hvalue : Resolved isStatic params vars value) (hbody : Resolved isStatic params vars body) :
      Resolved isStatic params vars (.letIn span (.ignore patternSpan) value body)
  | seq {vars : List LocalVar} {span : Span} {first body : Expr}
      (hfirst : Resolved isStatic params vars first) (hbody : Resolved isStatic params vars body) :
      Resolved isStatic params vars (.seq span first body)
  | literal {vars : List LocalVar} {span : Span} {value : Literal} :
      Resolved isStatic params vars (.literal span value)
  | quote {vars : List LocalVar} {span : Span} {head : String} {holes : List (Expr × String)}
      (hholes : ∀ hole ∈ holes, Resolved isStatic params vars hole.1) :
      Resolved isStatic params vars (.quote span head holes)

/-- The scope behind the declarations of some locals, the last of which comes first. -/
def Scope.behind (params : List Param) (vars : List LocalVar) : Scope :=
  vars.map (fun v => ⟨v.name, .localVar v.id, v.ty⟩) ++ Scope.ofParams params

namespace Scope

variable {params : List Param} {vars : List LocalVar} {name : String} {entry : ScopeEntry}

theorem mem_ofParams :
    entry ∈ ofParams params ↔ ∃ p index, params[index]? = some p ∧
      entry = ⟨p.name, .param index, p.ty⟩ := by
  unfold ofParams
  rw [mem_reverse, mem_map]
  constructor
  · rintro ⟨⟨p, index⟩, hp, rfl⟩
    exact ⟨p, index, mem_zipIdx_iff_getElem?.1 hp, rfl⟩
  · rintro ⟨p, index, hp, rfl⟩
    exact ⟨(p, index), mem_zipIdx_iff_getElem?.2 hp, rfl⟩

theorem behind_lookup?_eq_some (h : (behind params vars).lookup? name = some entry) :
    entry.name = name ∧ ((∃ v ∈ vars, entry = ⟨v.name, .localVar v.id, v.ty⟩) ∨
      ∃ p index, params[index]? = some p ∧ entry = ⟨p.name, .param index, p.ty⟩) := by
  unfold lookup? at h
  have hname := find?_some h
  refine ⟨of_decide_eq_true hname, ?_⟩
  rcases mem_append.1 (mem_of_find?_eq_some h) with hmem | hmem
  · obtain ⟨v, hv, rfl⟩ := mem_map.1 hmem
    exact .inl ⟨v, hv, rfl⟩
  · exact .inr (mem_ofParams.1 hmem)

/-- A name that is not in scope is the name of no parameter and of no local. -/
theorem behind_lookup?_eq_none (h : (behind params vars).lookup? name = none) :
    (∀ p ∈ params, p.name ≠ name) ∧ ∀ v ∈ vars, v.name ≠ name := by
  unfold lookup? at h
  rw [find?_eq_none] at h
  refine ⟨?_, ?_⟩
  · intro p hp hname
    obtain ⟨index, hindex⟩ := mem_iff_getElem?.1 hp
    refine h ⟨p.name, .param index, p.ty⟩ (mem_append_right _ ?_) (decide_eq_true hname)
    exact mem_ofParams.2 ⟨p, index, hindex, rfl⟩
  · intro v hv hname
    refine h ⟨v.name, .localVar v.id, v.ty⟩ (mem_append_left _ ?_) (decide_eq_true hname)
    exact mem_map_of_mem hv

end Scope

/-! ## What the checker resolves -/

/-- What the checker promises about the names of an expression. -/
structure Resolution (ctx : BodyContext) (vars : List LocalVar) (n k : Nat) (e : Expr) : Prop where
  resolved : Resolved ctx.method.isStatic ctx.method.params vars e
  numbered : Numbered n k e.declared

/-- Expressions that take their numbers one after the other. -/
theorem Numbered.list {args : List Expr} {steps : Nat → Nat}
    (h : ∀ i arg, args[i]? = some arg → Numbered (steps i) (steps (i + 1)) arg.declared) :
    Numbered (steps 0) (steps args.length) (declaredList args) := by
  induction args generalizing steps with
  | nil => exact .nil _
  | cons arg args ih =>
    have hrest : Numbered (steps 1) (steps (args.length + 1)) (declaredList args) :=
      @ih (fun i => steps (i + 1)) fun i arg harg => h (i + 1) arg harg
    exact (h 0 arg rfl).append hrest

theorem declaredHoles_eq (holes : List (Expr × String)) :
    declaredHoles holes = declaredList (holes.map Prod.fst) := by
  induction holes with
  | nil => rfl
  | cons hole holes ih => rw [declaredHoles, map_cons, declaredList, ih]

section Resolutions

variable {ctx : BodyContext} {vars : List LocalVar} {n k : Nat} {e : Expr} {args : List Expr}
  {span : Span} {ty : Ty} {callee : Callee} {steps : Nat → Nat}

/-- The arguments of a call, one after the other. -/
theorem resolution_args
    (each : ∀ i arg, args[i]? = some arg → Resolution ctx vars (steps i) (steps (i + 1)) arg) :
    (∀ arg ∈ args, Resolved ctx.method.isStatic ctx.method.params vars arg) ∧
      Numbered (steps 0) (steps args.length) (declaredList args) := by
  refine ⟨?_, .list fun i arg harg => (each i arg harg).numbered⟩
  intro arg harg
  obtain ⟨i, hi⟩ := mem_iff_getElem?.1 harg
  exact (each i arg hi).resolved

theorem resolution_staticCall
    (each : ∀ i arg, args[i]? = some arg → Resolution ctx vars (steps i) (steps (i + 1)) arg) :
    Resolution ctx vars (steps 0) (steps args.length) (.staticCall span ty callee args) := by
  obtain ⟨resolved, numbered⟩ := resolution_args each
  exact ⟨.staticCall resolved, numbered⟩

theorem resolution_methodCall (htarget : Resolution ctx vars n (steps 0) e)
    (each : ∀ i arg, args[i]? = some arg → Resolution ctx vars (steps i) (steps (i + 1)) arg) :
    Resolution ctx vars n (steps args.length) (.methodCall span ty callee e args) := by
  obtain ⟨resolved, numbered⟩ := resolution_args each
  exact ⟨.methodCall htarget.resolved resolved, htarget.numbered.append numbered⟩

theorem resolution_receiver (present : ctx.method.isStatic = false) :
    Resolution ctx vars n n (.receiver span ty) := ⟨.receiver present, .nil n⟩

end Resolutions

/-- **Expressions.** The locals in scope grow at declarations. -/
theorem Elaborates.resolution {ctx : BodyContext} {scope : Scope} {tree : Tree.Expr} {n k : Nat}
    {e : Expr} (h : Elaborates ctx scope tree n e k) {vars : List LocalVar}
    (hscope : scope = .behind ctx.method.params vars) : Resolution ctx vars n k e := by
  induction h generalizing vars with
  | ignore _ _ ihValue ihBody =>
    have valueOk := ihValue hscope
    have bodyOk := ihBody hscope
    exact ⟨.letIgnore valueOk.resolved bodyOk.resolved, valueOk.numbered.append bodyOk.numbered⟩
  | @declare _ _ _ name _ _ value _ _ m _ free _ _ ihValue ihBody =>
    subst hscope
    have valueOk := ihValue rfl
    have bodyOk : Resolution ctx (⟨m, name, value.ty⟩ :: vars) _ _ _ := ihBody rfl
    obtain ⟨notParam, notLocal⟩ := Scope.behind_lookup?_eq_none free
    exact ⟨.letSingle notParam notLocal valueOk.resolved bodyOk.resolved,
      valueOk.numbered.declare _ _ bodyOk.numbered⟩
  | seq _ _ ihFirst ihBody =>
    have firstOk := ihFirst hscope
    have bodyOk := ihBody hscope
    exact ⟨.seq firstOk.resolved bodyOk.resolved, firstOk.numbered.append bodyOk.numbered⟩
  | @param _ _ _ _ _ n bound hbinding =>
    subst hscope
    obtain ⟨rfl, ⟨v, -, rfl⟩ | ⟨p, index, hp, rfl⟩⟩ := Scope.behind_lookup?_eq_some bound
    · cases hbinding
    · cases hbinding
      exact ⟨.param hp, .nil n⟩
  | @localVar _ _ _ _ _ n bound hbinding =>
    subst hscope
    obtain ⟨rfl, ⟨v, hv, rfl⟩ | ⟨p, index, -, rfl⟩⟩ := Scope.behind_lookup?_eq_some bound
    · cases hbinding
      exact ⟨.localVar hv, .nil n⟩
    · cases hbinding
  | @ownSlot _ _ _ _ n _ _ _ present => exact ⟨.slot (.receiver present), .nil n⟩
  | ownStatic _ _ _ _ _ count _ ih =>
    exact resolution_staticCall fun _ _ =>
      forall_of_each count fun i tree arg htree harg => ih i tree arg htree harg hscope
  | ownInstance _ _ _ _ present _ count _ ih =>
    exact resolution_methodCall (resolution_receiver present) fun _ _ =>
      forall_of_each count fun i tree arg htree harg => ih i tree arg htree harg hscope
  | classCall _ _ _ count _ ih =>
    exact resolution_staticCall fun _ _ =>
      forall_of_each count fun i tree arg htree harg => ih i tree arg htree harg hscope
  | memberCall _ _ _ _ count _ ihTarget ih =>
    exact resolution_methodCall (ihTarget hscope) fun _ _ =>
      forall_of_each count fun i tree arg htree harg => ih i tree arg htree harg hscope
  | slot _ _ ih =>
    have targetOk := ih hscope
    exact ⟨.slot targetOk.resolved, targetOk.numbered⟩
  | @literal _ _ _ n => exact ⟨.literal, .nil n⟩
  | @quote _ _ _ trees holes steps _ texts _ ih =>
    have count : holes.length = trees.length := by
      simpa using congrArg length texts
    have each : ∀ i hole, holes[i]? = some hole →
        Resolution ctx vars (steps i) (steps (i + 1)) hole.1 := fun _ _ =>
      forall_of_each count fun i tree hole htree hhole => ih i tree hole htree hhole hscope
    obtain ⟨resolved, numbered⟩ := @resolution_args ctx vars (holes.map Prod.fst) steps (by
      intro i arg harg
      rw [getElem?_map] at harg
      obtain ⟨hole, hhole, rfl⟩ := Option.map_eq_some_iff.1 harg
      exact each i hole hhole)
    rw [length_map, ← declaredHoles_eq] at numbered
    exact ⟨.quote fun hole hhole => resolved _ (mem_map_of_mem hhole), numbered⟩

end ClassLang.Typed

namespace ClassLang.Code

open List
open Typed (Expr Callee ClassTable LocalVar Resolved declaredList declaredHoles)

/-! ## Stores and reads in code -/

/-- The instructions that read or store a local or an operand. -/
def Instr.usesLocal : Instr → Bool
  | .localGet _ => true
  | .localSet _ => true
  | _ => false

/-- Code in which the locals `declared` are stored once each, and no local behind the operands is
read before it is stored, those of `vars` apart. -/
structure StoresFirst (base : Nat) (vars declared : List LocalVar) (code : List Instr) : Prop where
  ready : ∀ before k after, code = before ++ .localGet k :: after → base ≤ k →
    (∃ v ∈ vars, k = base + v.id) ∨ .localSet k ∈ before
  count : ∀ k, code.count (.localSet k) = (declared.map fun v => base + v.id).count k

variable {instr : Instr} {pieces : List Piece}

namespace StoresFirst

variable {base : Nat} {vars vars' declared declared' : List LocalVar} {code code' : List Instr}

theorem nil : StoresFirst base vars [] [] := ⟨by simp, by simp⟩

theorem read {k : Nat} (h : base ≤ k → ∃ v ∈ vars, k = base + v.id) :
    StoresFirst base vars [] [.localGet k] := by
  refine ⟨?_, by simp⟩
  intro before k' after hcode hk
  have hmem : .localGet k' ∈ [Instr.localGet k] :=
    hcode ▸ mem_append_right _ mem_cons_self
  cases mem_singleton.1 hmem
  exact .inl (h hk)

theorem plain (h : instr.usesLocal = false) : StoresFirst base vars [] [instr] := by
  refine ⟨?_, ?_⟩
  · intro before k after hcode _
    have hmem : .localGet k ∈ [instr] := hcode ▸ mem_append_right _ mem_cons_self
    obtain rfl := mem_singleton.1 hmem
    cases h
  · intro k
    refine count_eq_zero.2 fun hmem => ?_
    obtain rfl := mem_singleton.1 hmem
    cases h

theorem store (v : LocalVar) : StoresFirst base vars [v] [.localSet (base + v.id)] := by
  refine ⟨?_, ?_⟩
  · intro before k after hcode _
    have hmem : .localGet k ∈ [Instr.localSet (base + v.id)] :=
      hcode ▸ mem_append_right _ mem_cons_self
    cases mem_singleton.1 hmem
  · intro k
    simp [count_singleton]

/-- Behind some code the locals that it stores may be read. -/
theorem append (ha : StoresFirst base vars declared code)
    (hb : StoresFirst base vars' declared' code')
    (hvars : ∀ v ∈ vars', v ∈ vars ∨ .localSet (base + v.id) ∈ code) :
    StoresFirst base vars (declared ++ declared') (code ++ code') := by
  have behind : ∀ {k} (before : List Instr), (∃ v ∈ vars', k = base + v.id) ∨ .localSet k ∈ before →
      (∃ v ∈ vars, k = base + v.id) ∨ .localSet k ∈ code ++ before := by
    rintro k before (⟨v, hv, rfl⟩ | hmem)
    · rcases hvars v hv with hv | hstored
      · exact .inl ⟨v, hv, rfl⟩
      · exact .inr (mem_append_left _ hstored)
    · exact .inr (mem_append_right _ hmem)
  refine ⟨?_, ?_⟩
  · intro before k after hcode hk
    rcases append_eq_append_iff.1 hcode with ⟨passed, rfl, hrest⟩ | ⟨left, rfl, hrest⟩
    · exact behind passed (hb.ready passed k after hrest hk)
    cases left with
    | nil =>
      have hready := behind [] (hb.ready [] k after hrest.symm hk)
      rw [append_nil, append_nil] at hready
      exact hready
    | cons instr left =>
      obtain ⟨rfl, -⟩ := cons.inj hrest
      exact ha.ready before k left rfl hk
  · intro k
    rw [count_append, ha.count, hb.count, map_append, count_append]

theorem concat (ha : StoresFirst base vars declared code)
    (hb : StoresFirst base vars declared' code') :
    StoresFirst base vars (declared ++ declared') (code ++ code') :=
  ha.append hb fun _ hv => .inl hv

/-- More code that uses no local. -/
theorem then_plain (h : StoresFirst base vars declared code) (hinstr : instr.usesLocal = false) :
    StoresFirst base vars declared (code ++ [instr]) := by
  have hall := h.concat (.plain hinstr)
  rwa [append_nil] at hall

end StoresFirst

theorem usesLocal_of_inlineInstr? {b : Builtin} (h : inlineInstr? b = some instr) :
    instr.usesLocal = false := by
  cases b <;> cases h <;> rfl

/-- A call uses the stack only. -/
theorem usesLocal_of_callInstr {ctx : CodeContext} {span : Span} {callee : Callee}
    (h : ctx.callInstr span callee = .ok instr) : instr.usesLocal = false := by
  unfold CodeContext.callInstr at h
  cases callee with
  | builtin b =>
    dsimp only at h
    cases hinline : inlineInstr? b with
    | some instr' =>
      rw [hinline] at h
      cases h
      exact usesLocal_of_inlineInstr? hinline
    | none =>
      rw [hinline] at h
      cases hindex : ctx.plan.host.idxOf? b with
      | none =>
        rw [hindex] at h
        cases h
      | some index =>
        rw [hindex] at h
        cases h
        rfl
  | method ref =>
    dsimp only at h
    split at h
    · next hinline => cases hinline
    · cases h
      rfl
    · cases h

/-- What the numbers of locals are counted behind: the receiver, where there is one, and the
parameters. -/
structure CodeContext.Behind (ctx : CodeContext) (isStatic : Bool) (params : List Typed.Param) :
    Prop where
  receiver : isStatic = false → 0 < ctx.localBase
  params : ctx.localBase = ctx.paramBase + params.length

section Emitted

variable {ctx : CodeContext} {vars : List LocalVar}

theorem textCode_storesFirst (text : String) :
    StoresFirst ctx.localBase vars [] (instrsOf (ctx.textCode text)) := by
  have hbase : StoresFirst ctx.localBase vars [] [.globalGet 0] := .plain rfl
  exact (hbase.then_plain rfl).then_plain rfl

theorem emitList_storesFirst {args : List Expr}
    (h : ∀ arg ∈ args, ∀ pieces, emit ctx arg = .ok pieces →
      StoresFirst ctx.localBase vars arg.declared (instrsOf pieces))
    (hemit : emitList ctx args = .ok pieces) :
    StoresFirst ctx.localBase vars (declaredList args) (instrsOf pieces) := by
  induction args generalizing pieces with
  | nil =>
    cases hemit
    exact .nil
  | cons arg args ih =>
    obtain ⟨harg, hargs⟩ := forall_mem_cons.1 h
    simp only [emitList, Except.bind_eq_ok, Except.pure_eq_ok] at hemit
    obtain ⟨first, hfirst, rest, hrest, rfl⟩ := hemit
    rw [instrsOf_append]
    exact (harg first hfirst).concat (ih hargs hrest)

theorem emitHoles_storesFirst {holes : List (Expr × String)}
    (h : ∀ hole ∈ holes, ∀ pieces, emit ctx hole.1 = .ok pieces →
      StoresFirst ctx.localBase vars hole.1.declared (instrsOf pieces))
    (hemit : emitHoles ctx holes = .ok pieces) :
    StoresFirst ctx.localBase vars (declaredHoles holes) (instrsOf pieces) := by
  induction holes generalizing pieces with
  | nil =>
    cases hemit
    exact .nil
  | cons hole holes ih =>
    obtain ⟨e, text⟩ := hole
    obtain ⟨hhole, hholes⟩ := forall_mem_cons.1 h
    simp only [emitHoles, Except.bind_eq_ok, Except.pure_eq_ok] at hemit
    obtain ⟨code, hcode, concat, hconcat, rest, hrest, rfl⟩ := hemit
    have hplain := usesLocal_of_callInstr hconcat
    have hjoined : StoresFirst ctx.localBase vars []
        (instrsOf (if text.isEmpty then [] else ctx.textCode text ++ [.op concat])) := by
      split
      · exact .nil
      · rw [instrsOf_append]
        exact (textCode_storesFirst text).then_plain hplain
    rw [instrsOf_append, instrsOf_append, instrsOf_append, declaredHoles]
    have hfront := ((hhole code hcode).then_plain hplain).concat hjoined
    rw [append_nil] at hfront
    exact hfront.concat (ih hholes hrest)

/-- **Code.** The induction follows the rules for names; a declaration stores its local in front of
the code that may read it. -/
theorem emit_storesFirst {isStatic : Bool} {params : List Typed.Param} {e : Expr}
    (h : Resolved isStatic params vars e) (behind : ctx.Behind isStatic params)
    (hemit : emit ctx e = .ok pieces) :
    StoresFirst ctx.localBase vars e.declared (instrsOf pieces) := by
  induction h generalizing pieces with
  | localVar bound =>
    cases hemit
    exact .read fun _ => ⟨_, bound, rfl⟩
  | param bound =>
    cases hemit
    refine .read fun hle => absurd hle ?_
    have hlt := (List.getElem?_eq_some_iff.1 bound).1
    have hbase := behind.params
    omega
  | receiver present =>
    cases hemit
    refine .read fun hle => absurd hle ?_
    have hpos := behind.receiver present
    omega
  | slot _ ih =>
    rw [emit, Except.bind_eq_ok] at hemit
    obtain ⟨target, htarget, hemit⟩ := hemit
    cases hemit
    rw [instrsOf_append]
    exact (ih htarget).then_plain rfl
  | methodCall _ _ ihTarget ihArgs =>
    simp only [emit, Except.bind_eq_ok, Except.pure_eq_ok] at hemit
    obtain ⟨target, htarget, args, hargs, call, hcall, rfl⟩ := hemit
    rw [instrsOf_append, instrsOf_append]
    have hargsCode := emitList_storesFirst (fun arg harg _ => ihArgs arg harg) hargs
    exact ((ihTarget htarget).concat hargsCode).then_plain (usesLocal_of_callInstr hcall)
  | staticCall _ ihArgs =>
    simp only [emit, Except.bind_eq_ok, Except.pure_eq_ok] at hemit
    obtain ⟨args, hargs, call, hcall, rfl⟩ := hemit
    rw [instrsOf_append]
    have hargsCode := emitList_storesFirst (fun arg harg _ => ihArgs arg harg) hargs
    exact hargsCode.then_plain (usesLocal_of_callInstr hcall)
  | @letSingle vars span pspan id name value body _ _ _ _ ihValue ihBody =>
    simp only [emit, Except.bind_eq_ok, Except.pure_eq_ok] at hemit
    obtain ⟨valueCode, hvalue, bodyCode, hbody, rfl⟩ := hemit
    rw [instrsOf_append, instrsOf_append]
    have hstore := (ihValue hvalue).concat (.store ⟨id, name, value.ty⟩)
    have hall := hstore.append (ihBody hbody) fun v hv => by
      rcases mem_cons.1 hv with rfl | hv
      · exact .inr (mem_append_right _ mem_cons_self)
      · exact .inl hv
    rw [append_assoc] at hall
    exact hall
  | letIgnore _ _ ihValue ihBody =>
    simp only [emit, Except.bind_eq_ok, Except.pure_eq_ok] at hemit
    obtain ⟨valueCode, hvalue, bodyCode, hbody, rfl⟩ := hemit
    rw [instrsOf_append, instrsOf_append]
    exact ((ihValue hvalue).then_plain rfl).concat (ihBody hbody)
  | seq _ _ ihFirst ihBody =>
    simp only [emit, Except.bind_eq_ok, Except.pure_eq_ok] at hemit
    obtain ⟨firstCode, hfirst, bodyCode, hbody, rfl⟩ := hemit
    rw [instrsOf_append, instrsOf_append]
    exact ((ihFirst hfirst).then_plain rfl).concat (ihBody hbody)
  | @literal _ _ value =>
    cases value with
    | int value | float value =>
      cases hemit
      exact .plain rfl
    | str text =>
      cases hemit
      exact textCode_storesFirst text
  | quote _ ih =>
    rw [emit, Except.bind_eq_ok] at hemit
    obtain ⟨holes, hholes, hemit⟩ := hemit
    cases hemit
    rw [instrsOf_append]
    exact (textCode_storesFirst _).concat
      (emitHoles_storesFirst (fun hole hhole _ => ih hole hhole) hholes)

end Emitted

/-- In the code of a method the locals come behind the operands. -/
theorem methodContext_behind (table : ClassTable) (c : Typed.Class) (plan : ImportPlan)
    (texts : List String) (lines : LineIndex) (m : Typed.Method) :
    (methodContext table c plan texts lines m).Behind m.isStatic m.params := by
  have hlen : m.paramTypes.length = m.params.length := length_map _
  refine ⟨?_, ?_⟩
  · intro hstatic
    simp [methodContext, operandTypes_eq, hstatic]
  · cases hstatic : m.isStatic <;> simp [methodContext, operandTypes_eq, hstatic, hlen, Nat.add_comm]

/-- Each local of a method is stored once, and in front of every read. -/
theorem stored_before_read {table : ClassTable} {c : Typed.Class} {source : String} {a : Artifact}
    (h : generateClass table c source = .ok a) {i : Nat} {m : Typed.Method} {body : Expr} {n : Nat}
    (hm : c.methods[i]? = some m) (hbody : m.body = some body)
    (resolved : Resolved m.isStatic m.params [] body) (numbered : Typed.Numbered 0 n body.declared)
    {code : MethodCode} (hcode : a.methods[i]? = some code) {before after : List Instr} {k : Nat}
    (hread : code.code = before ++ .localGet k :: after) (hk : code.type.params.length ≤ k) :
    .localSet k ∈ before ∧ code.code.count (.localSet k) = 1 := by
  obtain ⟨code', hcode', hmethod⟩ := forall₂_getElem?_left (generateClass_eq_ok h).1 hm
  cases hcode.symm.trans hcode'
  obtain ⟨body', pieces, hbody', hemit, -, hstatic, hparams, -, -, hinstrs⟩ :=
    generateMethod_eq_ok hmethod
  cases hbody.symm.trans hbody'
  have stores : StoresFirst code.type.params.length [] body.declared code.code := by
    have hstores := emit_storesFirst resolved (methodContext_behind ..) hemit
    have hbase : code.type.params = operandTypes m.isStatic m.paramTypes := by
      rw [MethodCode.type, hstatic, hparams]
    rw [hbase, hinstrs, append_cons]
    exact (hstores.then_plain rfl).then_plain rfl
  have hstored : .localSet k ∈ before :=
    (stores.ready before k after hread hk).resolve_left (by simp)
  refine ⟨hstored, ?_⟩
  -- no number is given twice, so no store is made twice
  have hnodup : (body.declared.map fun v => code.type.params.length + v.id).Nodup := by
    have hids : (body.declared.map LocalVar.id).Nodup := numbered.ids ▸ nodup_range'
    have hall := hids.map (f := (code.type.params.length + ·)) fun _ _ => Nat.add_left_cancel
    rw [map_map] at hall
    exact hall
  have hmem : .localSet k ∈ code.code := hread ▸ mem_append_left _ hstored
  have hpos := count_pos_iff.2 hmem
  have hle := nodup_iff_count_le_one.1 hnodup k
  rw [← stores.count] at hle
  omega

end ClassLang.Code

namespace ClassLang.Typed

open List

/-! ## Bodies -/

/-- A check leaves the scope as it was. -/
theorem scope_of_expr {ctx : BodyContext} {want : Expectation} {tree : Tree.Expr} {s s' : BodyState}
    {r : Expr × Expectation} (h : BodyCheck.expr ctx want tree s = .ok (r, s')) :
    s'.scope = s.scope := by
  rw [expr_eq] at h
  simp only [Except.bind_eq_ok] at h
  obtain ⟨⟨⟨e, known⟩, s''⟩, hvoid, known', -, h⟩ := h
  cases h
  have hfollows := expr_follows ctx tree s.scope .void s.nextLocal
  cases hchecked : checkExpr ctx s.scope .void tree s.nextLocal with
  | error fault =>
    rw [hchecked] at hfollows
    cases hvoid.symm.trans hfollows
  | ok checked =>
    rw [hchecked] at hfollows
    cases hvoid.symm.trans hfollows
    rfl

/-- **Locals are resolved exactly.** Every method of a module that is accepted has a body. Its
declarations are numbered from zero on in the order in which they are made, none of them takes the
name of a parameter or of a declaration that it stands behind, and every local in it stands behind
the declaration that it is bound by, with its name and type. No check changes the scope. In the code
of the method every read of a local that is no operand comes behind the one store of it. -/
theorem locals_resolved {table table' : ClassTable} {path : ModulePath} {tree : Tree.Module}
    {imports : List (Span × ClassId)} (h : checkModule table path tree imports = .ok table')
    {c : Class} (hc : table'.get? table.size = some c) {i : Nat} {m : Method}
    (hm : c.methods[i]? = some m) :
    ∃ body, m.body = some body ∧
      body.declared.map LocalVar.id = List.range body.declared.length ∧
      Resolved m.isStatic m.params [] body ∧
      (∀ (ctx : BodyContext) (want : Expectation) (e : Tree.Expr) (s s' : BodyState)
        (r : Expr × Expectation), BodyCheck.expr ctx want e s = .ok (r, s') → s'.scope = s.scope) ∧
      ∀ (world : ClassTable) (source : String) (a : Code.Artifact) (code : Code.MethodCode),
        Code.generateClass world c source = .ok a → a.methods[i]? = some code →
        ∀ before k after, code.code = before ++ .localGet k :: after →
          code.type.params.length ≤ k →
          .localSet k ∈ before ∧ code.code.count (.localSet k) = 1 := by
  obtain ⟨types, outline, checked, -, hchecked, rfl⟩ := checkModule_eq_ok.1 h
  rw [ClassTable.get?_push_size] at hc
  cases hc
  obtain ⟨m₀, t, body, -, -, rfl, n, hbody⟩ := checkBodies_getElem? hchecked hm
  have resolution : Resolution (bodyContext table types outline m₀) [] 0 n body :=
    (elaborates_of_checkExpr t.body hbody).1.resolution rfl
  have hids := resolution.numbered.ids
  have hlen : body.declared.length = n := by
    simpa using congrArg List.length hids
  refine ⟨body, rfl, ?_, resolution.resolved, fun _ _ _ _ _ _ => scope_of_expr, ?_⟩
  · rw [hids, hlen, range_eq_range']
    rfl
  · intro world source a code hgenerate hcode before k after hread hk
    exact Code.stored_before_read hgenerate hm rfl resolution.resolved resolution.numbered hcode hread hk

/-- The second method of the example declares one local behind a parameter and the receiver. -/
theorem locals_resolved_shifted : ∃ m body, pointClass.methods[1]? = some m ∧ m.body = some body ∧
    body.declared = [⟨0, "d", .int⟩] ∧ Resolved m.isStatic m.params [] body ∧
    ∀ (a : Code.Artifact) (code : Code.MethodCode),
      Code.generateClass pointTable pointClass pointText = .ok a → a.methods[1]? = some code →
      ∀ before k after, code.code = before ++ .localGet k :: after →
        code.type.params.length ≤ k →
        .localSet k ∈ before ∧ code.code.count (.localSet k) = 1 := by
  obtain ⟨tree, -, hcheck⟩ := checked_pointText
  have hdeclared : (pointClass.methods[1]?.bind Method.body).map Expr.declared =
      some [⟨0, "d", .int⟩] := by
    decide +kernel
  cases hm : pointClass.methods[1]? with
  | none =>
    rw [hm] at hdeclared
    cases hdeclared
  | some m =>
    obtain ⟨body, hbody, -, resolved, -, hcode⟩ := locals_resolved hcheck get?_pointTable hm
    rw [hm, Option.bind_some, hbody] at hdeclared
    exact ⟨m, body, rfl, hbody, Option.some.inj hdeclared, resolved, hcode pointTable pointText⟩

end ClassLang.Typed
