import ClassLang.Proofs.DirectEvaluation
import ClassLang.Proofs.Steps

/-!
# Runs and the evaluations that they follow

A run of the machine follows a direct evaluation when both give the same value, or stop for the same
reason. Runs only add texts (`Run.Grows`), and a word that stands for a value keeps doing so when
texts are added, so runs and evaluations can be put together step by step (`Follows.bind`).

There are `maxTexts` handles for texts. A run that makes more texts than that (`Exhausted`) can lose
one, and what it computes from texts is no longer what the evaluation says. It is still a run of
well-typed code, so it gives a value of the right type or stops, if not for an ordinary reason, then
because a text is lost (`Ends`).
-/

set_option autoImplicit false

namespace ClassLang.Machine

open Direct (Datum)

/-! ## Texts that stay -/

/-- All texts are still there, under the same handles. -/
def Kept (texts later : Texts) : Prop := texts.toList <+: later.toList

namespace Kept

variable {a b c : Texts}

theorem refl (texts : Texts) : Kept texts texts := List.prefix_refl _

theorem trans (first : Kept a b) (second : Kept b c) : Kept a c := List.IsPrefix.trans first second

theorem size_le (h : Kept a b) : a.size ≤ b.size := List.IsPrefix.length_le h

theorem push (texts : Texts) (text : String) : Kept texts (texts.push text) := by
  rw [Kept, Array.toList_push]
  exact List.prefix_append _ _

theorem getElem? (h : Kept a b) {i : Nat} {text : String} (found : a[i]? = some text) :
    b[i]? = some text := by
  obtain ⟨more, hmore⟩ := h
  rw [← Array.getElem?_toList] at found ⊢
  rw [← hmore, List.getElem?_append_left (List.getElem?_eq_some_iff.1 found).1]
  exact found

theorem textOf? (h : Kept a b) {handle : UInt32} {text : String}
    (found : Machine.textOf? a handle = some text) : Machine.textOf? b handle = some text := by
  unfold Machine.textOf? at found ⊢
  split at found
  · next hlt =>
    rw [if_pos hlt]
    exact h.getElem? found
  · exact nomatch found

end Kept

/-- There are more texts than handles. -/
def Exhausted (texts : Texts) : Prop := maxTexts < texts.size

theorem Kept.exhausted {a b : Texts} (h : Kept a b) (exhausted : Exhausted a) : Exhausted b :=
  Nat.lt_of_lt_of_le exhausted h.size_le

/-! ## Runs -/

namespace Run

variable {α β : Type}

/-- How a run ends that starts with these texts. -/
def outcome (x : Run α) (texts : Texts) : Except Trap α := (x.run texts).1

/-- The texts after a run. -/
def after (x : Run α) (texts : Texts) : Texts := (x.run texts).2

theorem outcome_bind (x : Run α) (f : α → Run β) (texts : Texts) :
    (x >>= f).outcome texts = match x.outcome texts with
      | .ok a => (f a).outcome (x.after texts)
      | .error t => .error t := by
  unfold outcome after
  rw [run_bind]
  rcases x.run texts with ⟨_ | _, _⟩ <;> rfl

theorem after_bind (x : Run α) (f : α → Run β) (texts : Texts) :
    (x >>= f).after texts = match x.outcome texts with
      | .ok a => (f a).after (x.after texts)
      | .error _ => x.after texts := by
  unfold outcome after
  rw [run_bind]
  rcases x.run texts with ⟨_ | _, _⟩ <;> rfl

/-- A run that takes no text away. -/
def Grows (x : Run α) : Prop := ∀ texts, Kept texts (x.after texts)

namespace Grows

theorem pure (a : α) : (pure a : Run α).Grows := fun texts => .refl texts

theorem throw (t : Trap) : (throw t : Run α).Grows := fun texts => .refl texts

theorem bind {x : Run α} {f : α → Run β} (hx : x.Grows) (hf : ∀ a, (f a).Grows) :
    (x >>= f).Grows := by
  intro texts
  rw [after_bind]
  split
  · next a _ => exact (hx texts).trans (hf a _)
  · exact hx texts

theorem foldlM {f : β → α → Run β} (hf : ∀ b a, (f b a).Grows) (items : List α) (b : β) :
    (items.foldlM f b).Grows := by
  induction items generalizing b with
  | nil => exact .pure b
  | cons a items ih =>
    rw [List.foldlM_cons]
    exact (hf b a).bind fun next => ih next

end Grows

theorem run_text (handle : UInt32) (texts : Texts) :
    (text handle).run texts = (match textOf? texts handle with
      | some text => .ok text
      | none => .error (.invalidText handle), texts) := by
  change (match textOf? texts handle with
    | some text => pure text
    | none => throw (.invalidText handle) : Run String).run texts = _
  cases textOf? texts handle <;> rfl

theorem Grows.text (handle : UInt32) : (text handle).Grows := by
  intro texts
  rw [after, run_text]
  exact .refl texts

theorem Grows.push (text : String) : (push text).Grows := fun texts => .push texts text

end Run

theorem hostCall_grows (b : Builtin) (args : List Word) : (hostCall b args).Grows := by
  unfold hostCall
  split
  · split
    · exact .pure _
    · exact .throw _
  · refine (Run.Grows.text _).bind fun text => ?_
    split
    · exact .pure _
    · exact .throw _
  · exact .pure _
  · exact .pure _
  · refine (Run.Grows.text _).bind fun text => ?_
    split
    · exact .pure _
    · exact .throw _
  · exact (Run.Grows.text _).bind fun _ => (Run.Grows.text _).bind fun _ => .push _
  · exact .push _
  · exact .push _
  · exact (Run.Grows.text _).bind fun _ => .pure _
  · exact .throw _

theorem divide_grows (a b : Int64) : (divide a b).Grows := by
  unfold divide
  split
  · exact .throw _
  · split
    · exact .throw _
    · exact .pure _

theorem int2_grows (f : Frame) {op : Int64 → Int64 → Run Int64} (hop : ∀ a b, (op a b).Grows) :
    (f.int2 op).Grows := by
  unfold Frame.int2
  split
  · exact (hop _ _).bind fun _ => .pure _
  · exact .throw _

theorem float2_grows (f : Frame) (op : Binary64 → Binary64 → Binary64) : (f.float2 op).Grows := by
  unfold Frame.float2
  split
  · exact .pure _
  · exact .throw _

theorem step_grows {memory : Memory} {c : Loaded} {call : FuncRef → List Word → Run Word}
    (hcall : ∀ ref args, (call ref args).Grows) (f : Frame) (instr : Code.Instr) :
    (step memory c call f instr).Grows := by
  cases instr with
  | call index =>
    simp only [step]
    split
    · split
      · exact .throw _
      · exact (hcall _ _).bind fun _ => .pure _
    · exact .throw _
  | i64Add | i64Sub | i64Mul => exact int2_grows f fun _ _ => .pure _
  | i64Div => exact int2_grows f divide_grows
  | f64Add | f64Sub | f64Mul | f64Div => exact float2_grows f _
  | ret => exact .throw _
  | finish => exact .throw _
  -- no other instruction makes a text
  | _ =>
    simp only [step]
    repeat' split
    all_goals first | exact .pure _ | exact .throw _

theorem result_grows (f : Frame) : f.result.Grows := by
  unfold Frame.result
  split
  · exact .pure _
  · exact .throw _

/-- No run of a function takes a text away. -/
theorem callFunc_grows (memory : Memory) (classes : List Loaded) (depth : Nat) (ref : FuncRef)
    (args : List Word) : (callFunc memory classes depth ref args).Grows := by
  induction depth generalizing ref args with
  | zero =>
    cases ref with
    | host b => exact hostCall_grows b args
    | method classIndex methodIndex => exact .throw _
  | succ depth ih =>
    cases ref with
    | host b => exact hostCall_grows b args
    | method classIndex methodIndex =>
      simp only [callFunc]
      split
      · exact .throw _
      · split
        · exact .throw _
        · exact (Run.Grows.foldlM (fun f i => step_grows ih f i) _ _).bind result_grows

/-! ## Following an evaluation -/

/-- The traps whose cause is in the program and its inputs. The others would be faults of checking,
code generation or linking. -/
def Trap.isOrdinary : Trap → Bool
  | .divisionByZero | .integerOverflow | .callStackExhausted => true
  | .powerOutOfRange _ _ | .unreadable _ _ => true
  | .outOfBounds | .invalidText _ | .malformed => false

/-- The outcome of an evaluation and that of a run: related values, or the same ordinary trap. -/
inductive Agree {α β : Type} (rel : β → α → Prop) : Except Trap β → Except Trap α → Prop where
  | value {b : β} {a : α} (related : rel b a) : Agree rel (.ok b) (.ok a)
  | trap {t : Trap} (ordinary : t.isOrdinary = true) : Agree rel (.error t) (.error t)

/-- How a run of well-typed code ends when texts are exhausted: with a value that is related to
some other one, for an ordinary reason, or without a text that is lost. -/
inductive Ends {α β : Type} (rel : β → α → Prop) : Except Trap α → Prop where
  | value {b : β} {a : α} (related : rel b a) : Ends rel (.ok a)
  | trap {t : Trap} (ordinary : t.isOrdinary = true) : Ends rel (.error t)
  | lost (handle : UInt32) : Ends rel (.error (.invalidText handle))

/-- A run agrees with an evaluation, as long as there are handles for its texts. -/
structure Follows {α β : Type} (x : Run α) (texts : Texts) (expected : Except Trap β)
    (rel : Texts → β → α → Prop) : Prop where
  agree : ¬ Exhausted (x.after texts) → Agree (rel (x.after texts)) expected (x.outcome texts)
  ends : Exhausted (x.after texts) → Ends (rel (x.after texts)) (x.outcome texts)

namespace Follows

variable {α β γ δ : Type} {texts : Texts} {x : Run α} {e : Except Trap β}
  {rel : Texts → β → α → Prop} {a : α} {b : β}

/-- A run that certainly succeeds, with the value of the evaluation. -/
theorem value (houtcome : x.outcome texts = .ok a) (he : ¬ Exhausted (x.after texts) → e = .ok b)
    (related : rel (x.after texts) b a) : Follows x texts e rel where
  agree enough := by
    rw [houtcome, he enough]
    exact .value related
  ends _ := by
    rw [houtcome]
    exact .value related

theorem pure (related : rel texts b a) : Follows (pure a) texts (.ok b) rel :=
  .value rfl (fun _ => rfl) related

theorem throw {t : Trap} (ordinary : t.isOrdinary = true) :
    Follows (throw t) texts (.error t) rel :=
  ⟨fun _ => .trap ordinary, fun _ => .trap ordinary⟩

/-- A run with a related value, or that stops for an ordinary reason or without a lost text. -/
theorem ended (h : Follows x texts e rel) :
    (∃ b a, x.outcome texts = .ok a ∧ rel (x.after texts) b a) ∨
      (∃ t, x.outcome texts = .error t ∧ t.isOrdinary = true) ∨
      Exhausted (x.after texts) ∧ ∃ handle, x.outcome texts = .error (.invalidText handle) := by
  by_cases exhausted : Exhausted (x.after texts)
  · have hends := h.ends exhausted
    generalize x.outcome texts = outcome at hends ⊢
    cases hends with
    | value related => exact Or.inl ⟨_, _, rfl, related⟩
    | trap ordinary => exact Or.inr (Or.inl ⟨_, rfl, ordinary⟩)
    | lost handle => exact Or.inr (Or.inr ⟨exhausted, handle, rfl⟩)
  · have hagree := h.agree exhausted
    generalize x.outcome texts = outcome at hagree ⊢
    cases hagree with
    | value related => exact Or.inl ⟨_, _, rfl, related⟩
    | trap ordinary => exact Or.inr (Or.inl ⟨_, rfl, ordinary⟩)

/-- A run in two steps follows an evaluation in two steps. -/
theorem bind {f : α → Run γ} {g : β → Except Trap δ} {rel' : Texts → δ → γ → Prop}
    (first : Follows x texts e rel) (growsFirst : x.Grows) (growsSecond : ∀ a, (f a).Grows)
    (second : ∀ later b a, (¬ Exhausted later → e = .ok b) → Kept texts later → rel later b a →
      Follows (f a) later (g b) rel') : Follows (x >>= f) texts (e >>= g) rel' := by
  have hafter := Run.after_bind x f texts
  have houtcome := Run.outcome_bind x f texts
  cases hx : x.outcome texts with
  | error t =>
    rw [hx] at hafter houtcome
    constructor
    · intro enough
      rw [hafter] at enough
      have hagree := first.agree enough
      rw [hx] at hagree
      rw [houtcome]
      cases hagree with
      | trap ordinary => exact .trap ordinary
    · intro exhausted
      rw [hafter] at exhausted
      have hends := first.ends exhausted
      rw [hx] at hends
      rw [houtcome]
      cases hends with
      | trap ordinary => exact .trap ordinary
      | lost handle => exact .lost handle
  | ok a =>
    rw [hx] at hafter houtcome
    by_cases exhausted : Exhausted (x.after texts)
    · -- the evaluation is not followed any more: any value will do that the word stands for
      have hends := first.ends exhausted
      rw [hx] at hends
      cases hends with
      | @value b _ related =>
        have rest := second _ b a (absurd exhausted) (growsFirst texts) related
        constructor
        · intro enough
          rw [hafter] at enough
          exact absurd ((growsSecond a _).exhausted exhausted) enough
        · rw [hafter, houtcome]
          exact rest.ends
    · have hagree := first.agree exhausted
      rw [hx] at hagree
      generalize hexpected : e = expected at hagree ⊢
      cases hagree with
      | @value b _ related =>
        have rest := second _ b a (fun _ => hexpected) (growsFirst texts) related
        constructor <;> rw [hafter, houtcome]
        · exact rest.agree
        · exact rest.ends

theorem mono {rel' : Texts → β → α → Prop} (h : Follows x texts e rel) (grows : x.Grows)
    (weaker : ∀ later b a, Kept texts later → rel later b a → rel' later b a) :
    Follows x texts e rel' := by
  rw [← bind_pure x, ← bind_pure e]
  exact h.bind grows (fun a => .pure a) fun later b a _ kept related =>
    .pure (weaker later b a kept related)

/-- A run whose value is only put into another form. -/
theorem map {f : α → γ} {rel' : Texts → β → γ → Prop} (h : Follows x texts e rel) (grows : x.Grows)
    (carried : ∀ later b a, Kept texts later → rel later b a → rel' later b (f a)) :
    Follows (x >>= fun a => Pure.pure (f a)) texts e rel' := by
  rw [← bind_pure e]
  exact h.bind grows (fun a => .pure (f a)) fun later b a _ kept related =>
    .pure (carried later b a kept related)

/-- An evaluation whose value is only put into another form. -/
theorem mapValue {g : β → δ} {rel' : Texts → δ → α → Prop} (h : Follows x texts e rel)
    (grows : x.Grows)
    (carried : ∀ later b a, Kept texts later → rel later b a → rel' later (g b) a) :
    Follows x texts (e >>= fun b => Pure.pure (g b)) rel' := by
  rw [← bind_pure x]
  exact h.bind grows (fun a => .pure a) fun later b a _ kept related =>
    .pure (carried later b a kept related)

end Follows

/-! ## Words that stand for values -/

/-- A word stands for a value of a type; `live` says which handles are objects of which class. When
texts are exhausted, a handle of a text may stand for any. -/
inductive Holds (live : UInt32 → ClassId → Prop) (texts : Texts) : Ty → Word → Datum → Prop where
  | int (value : Int64) : Holds live texts (.prim .int) (.i64 value) (.int value)
  | float (value : Binary64) : Holds live texts (.prim .float) (.f64 value) (.float value)
  | text {handle : UInt32} {value : String}
      (found : ¬ Exhausted texts → textOf? texts handle = some value) :
      Holds live texts (.prim .string) (.i32 handle) (.text value)
  | object {id : ClassId} {name : String} {handle : UInt32} (alive : live handle id) :
      Holds live texts (.object id name) (.i32 handle) (.object handle)

/-- Words that stand for values of the types in a list. -/
inductive HoldAll (live : UInt32 → ClassId → Prop) (texts : Texts) :
    List Ty → List Word → List Datum → Prop where
  | nil : HoldAll live texts [] [] []
  | cons {ty : Ty} {w : Word} {d : Datum} {tys : List Ty} {ws : List Word} {ds : List Datum}
      (first : Holds live texts ty w d) (rest : HoldAll live texts tys ws ds) :
      HoldAll live texts (ty :: tys) (w :: ws) (d :: ds)

section Holds

variable {live : UInt32 → ClassId → Prop} {texts texts' : Texts} {ty : Ty} {w : Word} {d : Datum}
  {tys : List Ty} {ws : List Word} {ds : List Datum}

theorem Holds.later (h : Holds live texts ty w d) (kept : Kept texts texts') :
    Holds live texts' ty w d := by
  cases h with
  | int value => exact .int value
  | float value => exact .float value
  | text found => exact .text fun enough => kept.textOf? (found (mt kept.exhausted enough))
  | object alive => exact .object alive

theorem HoldAll.later (h : HoldAll live texts tys ws ds) (kept : Kept texts texts') :
    HoldAll live texts' tys ws ds := by
  induction h with
  | nil => exact .nil
  | cons first _ ih => exact .cons (first.later kept) ih

theorem HoldAll.length_words (h : HoldAll live texts tys ws ds) : ws.length = tys.length := by
  induction h with
  | nil => rfl
  | cons _ _ ih => rw [List.length_cons, List.length_cons, ih]

theorem HoldAll.getElem? (h : HoldAll live texts tys ws ds) {i : Nat} (hty : tys[i]? = some ty) :
    ∃ w d, ws[i]? = some w ∧ ds[i]? = some d ∧ Holds live texts ty w d := by
  induction h generalizing i with
  | nil => exact nomatch hty
  | cons first _ ih =>
    cases i with
    | zero =>
      cases hty
      exact ⟨_, _, rfl, rfl, first⟩
    | succ i => exact ih hty

/-- Decoding finds the value that a word stands for. -/
theorem Holds.decode (h : Holds live texts ty w d) (enough : ¬ Exhausted texts) (memory : Memory) :
    Direct.Store.decode ⟨memory, texts⟩ ty w = .ok d := by
  cases h with
  | int value => rfl
  | float value => rfl
  | text found => simp only [Direct.Store.decode, found enough]
  | object alive => rfl

end Holds

/-- A new text has a handle as long as there are handles. -/
theorem textOf?_push {texts : Texts} (h : texts.size < maxTexts) (text : String) :
    textOf? (texts.push text) (UInt32.ofNat texts.size) = some text := by
  have hsize : (UInt32.ofNat texts.size).toNat = texts.size := by
    refine UInt32.toNat_ofNat_of_lt' (Nat.lt_trans h ?_)
    decide
  rw [textOf?, hsize, if_pos h, Array.getElem?_push_size]

/-- The handle of a new text stands for it. -/
theorem holds_push {live : UInt32 → ClassId → Prop} (texts : Texts) (text : String) :
    Holds live (texts.push text) (.prim .string) (.i32 (UInt32.ofNat texts.size)) (.text text) := by
  refine .text fun enough => textOf?_push ?_ text
  rw [Exhausted, Array.size_push] at enough
  exact Nat.not_lt.1 enough

/-- A text that is made stands for itself. -/
theorem push_follows {live : UInt32 → ClassId → Prop} (texts : Texts) (text : String) :
    Follows (Run.push text) texts (.ok (Datum.text text))
      fun later d w => Holds live later (.prim .string) w d :=
  .value rfl (fun _ => rfl) (holds_push texts text)

theorem run_text_bind {α : Type} {texts : Texts} {handle : UInt32} {text : String}
    (found : textOf? texts handle = some text) (f : String → Run α) :
    (Run.text handle >>= f).run texts = (f text).run texts := by
  rw [run_bind, Run.run_text, found]

/-- Reading the text of a handle. Where texts are exhausted, it may be another one or none. -/
theorem text_bind_follows {α β : Type} {texts : Texts} {handle : UInt32} {text : String}
    (found : ¬ Exhausted texts → textOf? texts handle = some text) {f : String → Run α}
    (grows : (Run.text handle >>= f).Grows) {e : String → Except Trap β}
    {rel : Texts → β → α → Prop} (h : ∀ text, Follows (f text) texts (e text) rel) :
    Follows (Run.text handle >>= f) texts (e text) rel := by
  by_cases exhausted : Exhausted texts
  · refine ⟨fun enough => absurd ((grows texts).exhausted exhausted) enough, ?_⟩
    unfold Run.after Run.outcome
    cases hfound : textOf? texts handle with
    | none =>
      rw [run_bind, Run.run_text, hfound]
      exact fun _ => .lost handle
    | some text' =>
      rw [run_text_bind hfound]
      exact (h text').ends
  · have hrun := run_text_bind (found exhausted) f
    constructor <;> unfold Run.after Run.outcome <;> rw [hrun]
    · exact (h text).agree
    · exact (h text).ends

end ClassLang.Machine
