import ClassLang.Tree.Parser
import Mathlib.Data.List.Forall2

/-!
# Steps that succeed

How a chain of steps that may fail comes apart: a `bind` into its two steps, a fold into the steps
for its items, and a `mapM` into one step for each item.
-/

set_option autoImplicit false

namespace ClassLang

variable {α β ε σ : Type} {x : Except ε α} {f : α → Except ε β} {a : α} {b : β} {items as : List α}
  {results bs : List β} {R : α → β → Prop} {i : Nat} {e : ε}

theorem Except.bind_eq_ok : (x >>= f) = .ok b ↔ ∃ a, x = .ok a ∧ f a = .ok b := by
  cases x with
  | error e | ok a => simp [bind, Except.bind]

theorem Except.pure_eq_ok {b : α} : (pure a : Except ε α) = .ok b ↔ a = b :=
  ⟨Except.ok.inj, congrArg _⟩

theorem eq_ok_of_toOption (h : x.toOption = some a) : x = .ok a := by
  cases x with
  | error e => cases h
  | ok b => exact congrArg Except.ok (Option.some.inj h)

/-- What every step of a fold keeps holds at its end. -/
theorem foldlM_keeps {P : β → Prop} {f : β → α → Except ε β}
    (step : ∀ b a b', P b → f b a = .ok b' → P b') {b' : β} (start : P b)
    (h : items.foldlM f b = .ok b') : P b' := by
  induction items generalizing b with
  | nil =>
    cases h
    exact start
  | cons a items ih =>
    rw [List.foldlM_cons, Except.bind_eq_ok] at h
    obtain ⟨next, hnext, hrest⟩ := h
    exact ih (step b a next start hnext) hrest

theorem Except.forall₂_of_mapM (h : items.mapM f = .ok results) :
    List.Forall₂ (fun a b => f a = .ok b) items results := by
  induction items generalizing results with
  | nil =>
    cases h
    exact .nil
  | cons a items ih =>
    rw [List.mapM_cons, Except.bind_eq_ok] at h
    obtain ⟨b, hb, h⟩ := h
    obtain ⟨rest, hrest, h⟩ := Except.bind_eq_ok.1 h
    cases h
    exact .cons hb (ih hrest)

theorem Except.mapM_succeeds (h : ∀ a ∈ items, ∃ b, f a = .ok b) :
    ∃ results, items.mapM f = .ok results := by
  induction items with
  | nil => exact ⟨[], rfl⟩
  | cons a items ih =>
    obtain ⟨⟨b, hb⟩, hrest⟩ := List.forall_mem_cons.1 h
    obtain ⟨results, hresults⟩ := ih hrest
    refine ⟨b :: results, ?_⟩
    rw [List.mapM_cons, hb, hresults]
    rfl

theorem forall₂_getElem?_left (h : List.Forall₂ R as bs) (ha : as[i]? = some a) :
    ∃ b, bs[i]? = some b ∧ R a b := by
  induction h generalizing i with
  | nil => exact nomatch ha
  | cons hab _ ih =>
    cases i with
    | zero =>
      cases ha
      exact ⟨_, rfl, hab⟩
    | succ i => exact ih ha

theorem forall₂_getElem?_right (h : List.Forall₂ R as bs) (hb : bs[i]? = some b) :
    ∃ a, as[i]? = some a ∧ R a b := by
  obtain ⟨a, ha, hab⟩ := forall₂_getElem?_left h.flip hb
  exact ⟨a, ha, hab⟩

theorem map_eq_of_forall₂ {γ : Type} {f : α → γ} {g : β → γ} (hfg : ∀ a b, R a b → g b = f a)
    (h : List.Forall₂ R as bs) : bs.map g = as.map f := by
  induction h with
  | nil => rfl
  | cons hab _ ih => rw [List.map_cons, List.map_cons, hfg _ _ hab, ih]

theorem Option.mapM_succeeds {f : α → Option β} (h : ∀ a ∈ items, (f a).isSome = true) :
    (items.mapM f).isSome = true := by
  induction items with
  | nil => rfl
  | cons a items ih =>
    obtain ⟨hfirst, hrest⟩ := List.forall_mem_cons.1 h
    obtain ⟨b, hb⟩ := Option.isSome_iff_exists.1 hfirst
    obtain ⟨results, hresults⟩ := Option.isSome_iff_exists.1 (ih hrest)
    rw [List.mapM_cons, hb, hresults]
    rfl

theorem Option.guard_congr {p q : Prop} [Decidable p] [Decidable q] (h : p ↔ q) :
    (guard p : Option Unit) = guard q := by
  change (if p then some () else none) = if q then some () else none
  by_cases hp : p
  · rw [if_pos hp, if_pos (h.1 hp)]
  · rw [if_neg hp, if_neg fun hq => hp (h.2 hq)]

theorem Option.isSome_guard_bind {p : Prop} [Decidable p] {x : Option α} :
    ((guard p : Option Unit) >>= fun _ => x).isSome = true ↔ p ∧ x.isSome = true := by
  change ((if p then some () else none : Option Unit) >>= fun _ => x).isSome = true ↔ _
  by_cases hp : p
  · rw [if_pos hp]
    exact (and_iff_right hp).symm
  rw [if_neg hp]
  constructor
  · intro h
    cases h
  · intro h
    exact absurd h.1 hp

/-- A `mapM` that succeeds gives the results that its steps can only have. -/
theorem eq_map_of_mapM {f : α → Option β} {g : α → β} (h : items.mapM f = some results)
    (hf : ∀ a ∈ items, ∀ b, f a = some b → b = g a) : results = items.map g := by
  induction items generalizing results with
  | nil =>
    cases h
    rfl
  | cons a items ih =>
    obtain ⟨ha, hitems⟩ := List.forall_mem_cons.1 hf
    rw [List.mapM_cons] at h
    obtain ⟨b, hb, h⟩ := Option.bind_eq_some_iff.1 h
    obtain ⟨rest, hrest, h⟩ := Option.bind_eq_some_iff.1 h
    cases h
    rw [ha b hb, ih hrest hitems, List.map_cons]

/-! ## Steps that change a state -/

/-- The second of two steps runs in the state that the first leaves, if that succeeds. -/
theorem run_bind (x : ExceptT ε (StateM σ) α) (f : α → ExceptT ε (StateM σ) β) (s : σ) :
    (x >>= f).run s = match x.run s with
      | (.ok a, s') => (f a).run s'
      | (.error e, s') => (.error e, s') := by
  change ExceptT.bindCont f (x.run s).1 (x.run s).2 = _
  rcases x.run s with ⟨_ | _, _⟩ <;> rfl

theorem run_get_bind (f : σ → ExceptT ε (StateM σ) β) (s : σ) :
    (get >>= f).run s = (f s).run s := rfl

theorem run_modifyGet_bind (f : σ → α × σ) (k : α → ExceptT ε (StateM σ) β) (s : σ) :
    (modifyGet f >>= k).run s = (k (f s).1).run (f s).2 := rfl

theorem run_map (f : α → β) (x : ExceptT ε (StateM σ) α) (s : σ) :
    (f <$> x).run s = ((x.run s).1.map f, (x.run s).2) := by
  change ((x >>= fun a => pure (f a)) : ExceptT ε (StateM σ) β).run s = _
  rw [run_bind]
  rcases x.run s with ⟨_ | _, _⟩ <;> rfl

theorem run_bind_eq_ok {x : ExceptT ε (StateM σ) α} {f : α → ExceptT ε (StateM σ) β} {s s' : σ} :
    (x >>= f).run s = (.ok b, s') ↔
      ∃ a t, x.run s = (.ok a, t) ∧ (f a).run t = (.ok b, s') := by
  rw [run_bind]
  rcases x.run s with ⟨e | a, t⟩
  · constructor
    · intro h
      cases h
    · rintro ⟨a, t', h, -⟩
      cases h
  constructor
  · intro h
    exact ⟨a, t, rfl, h⟩
  · rintro ⟨a', t', h, h'⟩
    cases h
    exact h'

/-- A step keeps a property of the state, also when it fails, and fails for no other causes than
those that `Q` admits. -/
def Keeps {σ : Type} (P : σ → Prop) (Q : ε → Prop) (x : ExceptT ε (StateM σ) α) : Prop :=
  ∀ s, P s → P (x.run s).2 ∧ ∀ e, (x.run s).1 = .error e → Q e

namespace Keeps

variable {P : σ → Prop} {Q : ε → Prop} {s s' : σ}

theorem pure (a : α) : Keeps P Q (Pure.pure a : ExceptT ε (StateM σ) α) :=
  fun _ hs => ⟨hs, fun _ h => nomatch h⟩

theorem throw (he : Q e) : Keeps P Q (MonadExcept.throw e : ExceptT ε (StateM σ) α) :=
  fun _ hs => ⟨hs, fun _ h => Except.error.inj h ▸ he⟩

theorem bind {x : ExceptT ε (StateM σ) α} {f : α → ExceptT ε (StateM σ) β} (hx : Keeps P Q x)
    (hf : ∀ a, Keeps P Q (f a)) : Keeps P Q (x >>= f) := by
  intro s hs
  have hafter := hx s hs
  rw [run_bind]
  rcases h : x.run s with ⟨e | a, s'⟩ <;> rw [h] at hafter
  · refine ⟨hafter.1, fun e' he' => hafter.2 e' ?_⟩
    cases he'
    rfl
  · exact hf a s' hafter.1

theorem state {x : ExceptT ε (StateM σ) α} (hx : Keeps P Q x) {outcome : Except ε α}
    (h : x.run s = (outcome, s')) (hs : P s) : P s' := by
  have hafter := (hx s hs).1
  rw [h] at hafter
  exact hafter

theorem failure {x : ExceptT ε (StateM σ) α} (hx : Keeps P Q x) (h : x.run s = (.error e, s'))
    (hs : P s) : Q e := by
  refine (hx s hs).2 e ?_
  rw [h]

theorem get_bind {f : σ → ExceptT ε (StateM σ) β} (hf : ∀ s, P s → Keeps P Q (f s)) :
    Keeps P Q (get >>= f) :=
  fun s hs => hf s hs s hs

theorem modify {f : σ → σ} (hf : ∀ s, P s → P (f s)) :
    Keeps P Q (modify f : ExceptT ε (StateM σ) PUnit) :=
  fun s hs => ⟨hf s hs, fun _ h => nomatch h⟩

theorem set (hs : P s) : Keeps P Q (MonadStateOf.set s : ExceptT ε (StateM σ) PUnit) :=
  fun _ _ => ⟨hs, fun _ h => nomatch h⟩

end Keeps

/-! ## Steps of the parser -/

namespace Tree.Parse

theorem bind_eq_ok {x : Parse α} {f : α → Parse β} {p p' : Parser} :
    (x >>= f) p = .ok (b, p') ↔ ∃ a q, x p = .ok (a, q) ∧ f a q = .ok (b, p') := by
  change (x p >>= fun r => f r.1 r.2) = _ ↔ _
  rw [Except.bind_eq_ok]
  exact ⟨fun ⟨r, hx, hf⟩ => ⟨r.1, r.2, hx, hf⟩, fun ⟨a, q, hx, hf⟩ => ⟨(a, q), hx, hf⟩⟩

theorem bind_of_ok {x : ParseFrom σ α} {f : α → ParseFrom σ β} {p q : Parser σ}
    (h : x p = .ok (a, q)) : (x >>= f) p = f a q := by
  change (x p >>= fun r => f r.1 r.2) = _
  rw [h]
  rfl

theorem bind_of_error {x : ParseFrom σ α} {f : α → ParseFrom σ β} {p : Parser σ} {e : CompileError}
    (h : x p = .error e) : (x >>= f) p = .error e := by
  change (x p >>= fun r => f r.1 r.2) = _
  rw [h]
  rfl

end Tree.Parse

end ClassLang
