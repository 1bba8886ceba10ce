import ClassLang.Proofs.Linking
import ClassLang.Proofs.ObjectMemory

/-!
# What requests to a loader keep

One invariant ties together the checked classes, what is loaded of them, the memory and the values
that have been given back (`Loader.Fits`): every class is loaded and linked, and the cells of every
object that was given back hold values of the types of its slots. Requests that pass in no other
objects keep it, whether they succeed or fail.

A text can be lost when there are more texts than handles (`Exhausted`). This has no other effect
than that a method stops, or that its result or a field cannot be given back (`Failure.isLostText`).

Main statements: `Loader.Fits.image`, by which runs of methods follow their evaluation, and
`Loader.Fits.field`, `Loader.Fits.invoke` and `Loader.Fits.newObject`, one for each request.
-/

set_option autoImplicit false

namespace ClassLang

open List

/-- Whether a failure is for want of a text: a method stops when it reads the text, or the text
cannot be given back. -/
def Failure.isLostText : Failure → Bool
  | .runtime _ _ _ (.invalidText _) => true
  | .badArguments _ (.resultType (.prim .string) _) => true
  | _ => false

namespace Machine

open Code (Artifact cellSize classFields valType)
open Direct (Datum)
open Typed (ClassTable Method Slot)

/-! ## Objects that were given back -/

/-- A handle lives as an object of a class when that object has been given back. -/
def Live (table : ClassTable) (given : List Value) (handle : UInt32) (id : ClassId) : Prop :=
  ∃ c, table.get? id = some c ∧ Value.object c.path.text handle ∈ given

/-- A value of a type; objects count only when they have been given back. -/
inductive Value.HasType (table : ClassTable) (given : List Value) : Ty → Value → Prop where
  | int (value : Int64) : HasType table given (.prim .int) (.int value)
  | float (value : Binary64) : HasType table given (.prim .float) (.float value)
  | str (text : String) : HasType table given (.prim .string) (.str text)
  | object {id : ClassId} {c : Typed.Class} {handle : UInt32} (owner : table.get? id = some c)
      (known : Value.object c.path.text handle ∈ given) :
      HasType table given (.object id c.name) (.object c.path.text handle)

/-- The objects among some values have been given back. -/
def Passed (given values : List Value) : Prop :=
  ∀ (moduleName : String) (handle : UInt32),
    .object moduleName handle ∈ values → .object moduleName handle ∈ given

theorem Passed.cons {given values : List Value} {value : Value}
    (passed : Passed given (value :: values)) : Passed given [value] ∧ Passed given values := by
  constructor
  · intro moduleName handle hmem
    exact passed _ _ (mem_cons.2 (Or.inl (mem_singleton.1 hmem)))
  · intro moduleName handle hmem
    exact passed _ _ (mem_cons_of_mem _ hmem)

section Holds

variable {live live' : UInt32 → ClassId → Prop} {texts : Texts} {ty : Ty} {w : Word} {d : Datum}
  {tys : List Ty} {ws : List Word} {ds : List Datum}

theorem Holds.mono (h : Holds live texts ty w d)
    (grown : ∀ handle id, live handle id → live' handle id) : Holds live' texts ty w d := by
  cases h with
  | int value => exact .int value
  | float value => exact .float value
  | text found => exact .text found
  | object alive => exact .object (grown _ _ alive)

theorem HoldAll.mono (h : HoldAll live texts tys ws ds)
    (grown : ∀ handle id, live handle id → live' handle id) : HoldAll live' texts tys ws ds := by
  induction h with
  | nil => exact .nil
  | cons first _ ih => exact .cons (first.mono grown) ih

theorem Holds.type_eq (h : Holds live texts ty w d) : w.type = valType ty := by
  cases h <;> rfl

end Holds

variable {l l' : Loader} {outcome : Except Failure Value}

namespace Loader

/-- Nothing but texts has been added. -/
structure TextsAdded (l l' : Loader) : Prop where
  classes : l'.classes = l.classes
  names : l'.names = l.names
  memory : l'.memory = l.memory
  texts : Kept l.texts l'.texts

/-- The loader was used: it has more texts and more objects. -/
structure Used (l l' : Loader) : Prop where
  classes : l'.classes = l.classes
  names : l'.names = l.names
  memory : l.memory.Later l'.memory
  sound : l.memory.Sound → l'.memory.Sound
  texts : Kept l.texts l'.texts

/-- The cells of an object of a class hold values of the types of its slots. -/
def HoldsObject (l : Loader) (live : UInt32 → ClassId → Prop) (c : Typed.Class) (handle : UInt32) :
    Prop :=
  ∃ ws ds, HoldAll live l.texts (c.slots.map Slot.ty) ws ds ∧
    ∀ (k : Nat) (w : Word), ws[k]? = some w →
      l.memory.Stored (handle.toNat + k * cellSize) w

/-- A loader fits the table of its classes and the values that have been given back. -/
structure Fits (l : Loader) (table : ClassTable) (given : List Value) : Prop where
  loads : l.Loads table
  memory : l.memory.Sound
  objects : ∀ (moduleName : String) (handle : UInt32), .object moduleName handle ∈ given →
    ∃ id c, table.get? id = some c ∧ c.path.text = moduleName ∧
      l.HoldsObject (Live table given) c handle

theorem TextsAdded.refl (l : Loader) : TextsAdded l l := ⟨rfl, rfl, rfl, .refl _⟩

theorem TextsAdded.trans {l'' : Loader} (first : TextsAdded l l') (second : TextsAdded l' l'') :
    TextsAdded l l'' where
  classes := second.classes.trans first.classes
  names := second.names.trans first.names
  memory := second.memory.trans first.memory
  texts := first.texts.trans second.texts

theorem TextsAdded.used (added : TextsAdded l l') : Used l l' where
  classes := added.classes
  names := added.names
  memory := by
    rw [added.memory]
    exact .refl _
  sound sound := by
    rw [added.memory]
    exact sound
  texts := added.texts

theorem Used.trans {l'' : Loader} (first : Used l l') (second : Used l' l'') : Used l l'' where
  classes := second.classes.trans first.classes
  names := second.names.trans first.names
  memory := first.memory.trans second.memory
  sound sound := second.sound (first.sound sound)
  texts := first.texts.trans second.texts

section Fits

variable {table : ClassTable} {given : List Value}

theorem Loads.used (loads : l.Loads table) (used : Used l l') : l'.Loads table where
  typed := loads.typed
  count := by rw [used.classes, loads.count]
  linked id c hc := by
    obtain ⟨loaded, hloaded, linked⟩ := loads.linked id c hc
    rw [used.classes]
    exact ⟨loaded, hloaded, linked.later (.refl _) used.texts⟩
  apart := loads.apart
  leads := by
    rw [used.names]
    exact loads.leads
  memory := by
    rw [lookup?, used.names, TakesMemory, used.classes]
    exact loads.memory

/-- Using a loader leaves the objects that were there in their places. -/
theorem Fits.used (fits : l.Fits table given) (used : Used l l') : l'.Fits table given where
  loads := fits.loads.used used
  memory := used.sound fits.memory
  objects moduleName handle hgiven := by
    obtain ⟨id, c, hc, hmodule, ws, ds, holds, stored⟩ := fits.objects moduleName handle hgiven
    refine ⟨id, c, hc, hmodule, ws, ds, holds.later used.texts, ?_⟩
    intro k w hw
    exact (stored k w hw).grows used.memory

/-- What the values hold that have been given back depends on the objects among them only. -/
theorem Fits.congr {given' : List Value} (fits : l.Fits table given)
    (less : Passed given given') (more : Passed given' given) : l.Fits table given' where
  loads := fits.loads
  memory := fits.memory
  objects moduleName handle hgiven := by
    obtain ⟨id, c, hc, hmodule, ws, ds, holds, stored⟩ :=
      fits.objects moduleName handle (less moduleName handle hgiven)
    refine ⟨id, c, hc, hmodule, ws, ds, holds.mono ?_, stored⟩
    rintro handle' id' ⟨d, hd, hgiven'⟩
    exact ⟨d, hd, more _ _ hgiven'⟩

/-- The slots of an object that lives hold values of their types. -/
theorem Fits.slot (fits : l.Fits table given) {handle : UInt32} {id : ClassId} {c : Typed.Class}
    (alive : Live table given handle id) (hc : table.get? id = some c) {index : Nat} {slot : Slot}
    (hslot : c.slots[index]? = some slot) :
    ∃ w d, Holds (Live table given) l.texts slot.ty w d ∧
      l.memory.Stored (handle.toNat + index * cellSize) w := by
  obtain ⟨c', hc', hgiven⟩ := alive
  cases hc.symm.trans hc'
  obtain ⟨id', d, hd, hmodule, ws, ds, holds, stored⟩ := fits.objects _ _ hgiven
  -- no two classes are of one module, so the object is of the class that has the slot
  obtain rfl := fits.loads.apart id' id d c hd hc hmodule
  cases hc.symm.trans hd
  have hty : (c.slots.map Slot.ty)[index]? = some slot.ty := by rw [getElem?_map, hslot]; rfl
  obtain ⟨w, value, hw, -, held⟩ := holds.getElem? hty
  exact ⟨w, value, held, stored index w hw⟩

/-- What is loaded and stored is an image of the table, in which runs follow evaluations. -/
theorem Fits.image (fits : l.Fits table given) :
    Image table l.classes ⟨l.memory, l.texts⟩ (Live table given) where
  linked := fits.loads.linked
  cells handle id c index slot alive hc hslot := by
    obtain ⟨w, d, held, stored⟩ := fits.slot alive hc hslot
    obtain ⟨bytes, hbytes, hword⟩ := stored.load fits.memory
    rw [held.type_eq] at hbytes hword
    exact ⟨bytes, d, hbytes, by rw [hword]; exact held⟩

variable {index : Nat} {loaded : Loaded} {id : ClassId} {moduleName : String} {c : Typed.Class}
  {ty : Ty} {w : Word} {items : List (Ty × Value × Failure)} {ws : List Word} {handle : UInt32}

/-- The class at a position of the loader is that of the table. -/
theorem Loads.class_of_loaded (loads : l.Loads table) (h : l.classes[index]? = some loaded) :
    ∃ c, table.get? index = some c ∧ Linked table index c loaded l.texts := by
  have hlt : index < table.size := by
    rw [← loads.count]
    exact (List.getElem?_eq_some_iff.1 h).1
  obtain ⟨c, hc⟩ : ∃ c, table.get? index = some c := ⟨_, getElem?_eq_getElem hlt⟩
  obtain ⟨loaded', hloaded', linked⟩ := loads.linked index c hc
  cases h.symm.trans hloaded'
  exact ⟨c, hc, linked⟩

theorem Loads.class_of_moduleOf? (loads : l.Loads table) (h : l.moduleOf? id = some moduleName) :
    ∃ c, table.get? id = some c ∧ c.path.text = moduleName := by
  obtain ⟨found, hfound, hmodule⟩ := Option.map_eq_some_iff.1 h
  obtain ⟨index, hindex⟩ := mem_iff_getElem?.1 (mem_of_find?_eq_some hfound)
  obtain ⟨c, hc, linked⟩ := loads.class_of_loaded hindex
  have hid : found.artifact.id = id := by simpa using find?_some hfound
  rw [linked.artifact_eq] at hid hmodule
  obtain rfl : index = id := hid
  exact ⟨c, hc, hmodule⟩

theorem Loads.moduleOf?_eq (loads : l.Loads table) (hc : table.get? id = some c) :
    l.moduleOf? id = some c.path.text := by
  obtain ⟨loaded, hloaded, linked⟩ := loads.linked id c hc
  have hsome : (l.moduleOf? id).isSome := by
    rw [moduleOf?, Option.isSome_map, find?_isSome]
    refine ⟨loaded, mem_of_getElem? hloaded, ?_⟩
    rw [linked.artifact_eq]
    exact decide_eq_true rfl
  obtain ⟨moduleName, hmodule⟩ := Option.isSome_iff_exists.1 hsome
  obtain ⟨d, hd, rfl⟩ := loads.class_of_moduleOf? hmodule
  cases hc.symm.trans hd
  exact hmodule

/-! ## Values that go in and come out -/

theorem Loads.classAt_cases (loads : l.Loads table) (moduleName : String) :
    (classAt moduleName).run l = (.error (.noSuchClass moduleName), l) ∨
      ∃ id c loaded, table.get? id = some c ∧ c.path.text = moduleName ∧
        Linked table id c loaded l.texts ∧ (classAt moduleName).run l = (.ok (id, loaded), l) := by
  rw [classAt, run_get_bind]
  cases hfound : l.classes.zipIdx.find? (·.1.artifact.moduleName = moduleName) with
  | none => exact Or.inl rfl
  | some found =>
    obtain ⟨loaded, id⟩ := found
    have hloaded : l.classes[id]? = some loaded :=
      mem_zipIdx_iff_getElem?.1 (mem_of_find?_eq_some hfound)
    have hmodule : loaded.artifact.moduleName = moduleName := by
      simpa using find?_some hfound
    obtain ⟨c, hc, linked⟩ := loads.class_of_loaded hloaded
    rw [linked.artifact_eq] at hmodule
    exact Or.inr ⟨id, c, loaded, hc, hmodule, linked, rfl⟩

/-- A word that stands for a value of a known type comes out as a value of that type, unless it is a
text that is lost. -/
theorem Loads.ofWord?_cases (loads : l.Loads table) (known : table.Knows ty) {d : Datum}
    (held : Holds (Live table given) l.texts ty w d) :
    (∃ v, l.ofWord? ty w = some v ∧ Value.HasType table given ty v) ∨
      Exhausted l.texts ∧ ty = .string ∧ l.ofWord? ty w = none := by
  cases held with
  | int value => exact Or.inl ⟨_, rfl, .int value⟩
  | float value => exact Or.inl ⟨_, rfl, .float value⟩
  | @text handle value found =>
    rw [ofWord?]
    cases htext : textOf? l.texts handle with
    | some text => exact Or.inl ⟨.str text, rfl, .str text⟩
    | none =>
      refine Or.inr ⟨?_, rfl, rfl⟩
      by_contra enough
      rw [found enough] at htext
      cases htext
  | @object id name handle alive =>
    obtain ⟨c, hc, hgiven⟩ := alive
    obtain ⟨c', hc', rfl⟩ := known
    cases hc.symm.trans hc'
    refine Or.inl ⟨.object c.path.text handle, ?_, .object hc hgiven⟩
    rw [ofWord?, loads.moduleOf?_eq hc]
    rfl

theorem toWord_keeps (base : Loader) (ty : Ty) (value : Value) {mismatch : Failure}
    {Q : Failure → Prop} (hQ : Q mismatch) :
    Keeps (TextsAdded base) Q (toWord ty value mismatch) := by
  unfold toWord
  split
  · exact .pure _
  · exact .pure _
  · refine .get_bind fun l added => .bind (.set ?_) fun _ => .pure _
    exact added.trans ⟨rfl, rfl, rfl, .push l.texts _⟩
  · refine .get_bind fun l added => ?_
    split
    · exact .pure _
    · exact .throw hQ
  · exact .throw hQ

/-- The word for a value that was given back, or is no object, stands for a value of the type. -/
theorem Loads.toWord_holds (loads : l.Loads table) {value : Value} (passed : Passed given [value])
    {mismatch : Failure} (h : (toWord ty value mismatch).run l = (.ok w, l')) :
    ∃ d, Holds (Live table given) l'.texts ty w d := by
  unfold toWord at h
  split at h
  · cases h
    exact ⟨_, .int _⟩
  · cases h
    exact ⟨_, .float _⟩
  · next text =>
    cases h
    exact ⟨_, holds_push l.texts text⟩
  · next id name moduleName handle =>
    change (ite (l.moduleOf? id = some moduleName) _ _ : Loading Word).run l = _ at h
    split at h
    · next hmodule =>
      cases h
      -- the value is of the module of the class, so it lives as an object of that class
      obtain ⟨c, hc, rfl⟩ := loads.class_of_moduleOf? hmodule
      exact ⟨_, .object ⟨c, hc, passed _ _ mem_cons_self⟩⟩
    · cases h
  · cases h

/-- The words for values of some types, in order; each value comes with the failure for a
mismatch. -/
def wordsOf : List (Ty × Value × Failure) → Loading (List Word)
  | [] => return []
  | (ty, value, mismatch) :: rest => do
    let w ← toWord ty value mismatch
    let words ← wordsOf rest
    return w :: words

theorem wordsOf_keeps (base : Loader) {Q : Failure → Prop} (h : ∀ item ∈ items, Q item.2.2) :
    Keeps (TextsAdded base) Q (wordsOf items) := by
  induction items with
  | nil => exact .pure _
  | cons item rest ih =>
    obtain ⟨hfirst, hrest⟩ := forall_mem_cons.1 h
    exact .bind (toWord_keeps base _ _ hfirst) fun _ => .bind (ih hrest) fun _ => .pure _

theorem wordsOf_added {outcome : Except Failure (List Word)}
    (h : (wordsOf items).run l = (outcome, l')) : TextsAdded l l' := by
  have keeps : Keeps (TextsAdded l) (fun _ => True) (wordsOf items) :=
    wordsOf_keeps l fun _ _ => trivial
  exact keeps.state h (.refl l)

/-- The words for values that were given back, or are no objects, stand for values of the types. -/
theorem Loads.wordsOf_hold (loads : l.Loads table)
    (passed : Passed given (items.map fun item => item.2.1))
    (h : (wordsOf items).run l = (.ok ws, l')) :
    ∃ ds, HoldAll (Live table given) l'.texts (items.map Prod.fst) ws ds := by
  induction items generalizing l ws with
  | nil =>
    cases h
    exact ⟨_, .nil⟩
  | cons item rest ih =>
    obtain ⟨ty, value, mismatch⟩ := item
    obtain ⟨passedFirst, passedRest⟩ := passed.cons
    obtain ⟨w, l₁, hw, h⟩ := run_bind_eq_ok.1 h
    obtain ⟨ws, l₂, hws, h⟩ := run_bind_eq_ok.1 h
    cases h
    have keeps : Keeps (TextsAdded l) (fun _ => True) (toWord ty value mismatch) :=
      toWord_keeps l ty value trivial
    obtain ⟨d, held⟩ := loads.toWord_holds passedFirst hw
    obtain ⟨ds, holds⟩ := ih (loads.used (keeps.state hw (.refl l)).used) passedRest hws
    exact ⟨d :: ds, .cons (held.later (wordsOf_added hws).texts) holds⟩

/-- The arguments of a method, each with its failure. -/
def argumentItems (method : String) (items : List (Ty × Value)) : List (Ty × Value × Failure) :=
  items.map fun item => (item.1, item.2, .badArguments method (.argumentType item.1 item.2))

theorem argumentWords_eq (method : String) (items : List (Ty × Value)) :
    argumentWords method items = wordsOf (argumentItems method items) := by
  induction items with
  | nil => rfl
  | cons item rest ih =>
    rw [argumentWords, ih]
    rfl

/-- The fields of an object, each with its failure. -/
def fieldItems (method : String) (items : List (Code.Field × Value)) :
    List (Ty × Value × Failure) :=
  items.map fun item =>
    (item.1.ty, item.2, .badArguments method (.fieldType item.1.name item.1.ty item.2))

theorem cellsOf_eq (method : String) (items : List (Code.Field × Value)) :
    cellsOf method items = flatMap Word.cell <$> wordsOf (fieldItems method items) := by
  induction items with
  | nil => rfl
  | cons item rest ih =>
    have hitems : fieldItems method (item :: rest) = (item.1.ty, item.2,
        .badArguments method (.fieldType item.1.name item.1.ty item.2)) ::
          fieldItems method rest := rfl
    rw [cellsOf, ih, hitems, wordsOf]
    simp only [bind_map_left, map_bind, map_pure, flatMap_cons]

/-! ## Requests to the loader -/

/-- The values that a request gives back. -/
def returned : Except Failure Value → List Value
  | .ok value => [value]
  | .error _ => []

/-- How a request may end that was made with the values in `given`: the loader fits afterwards, a
value is an expected one, and a failure is admitted, unless a text is lost. -/
structure Safe (table : ClassTable) (given : List Value) (expected : Value → Prop)
    (admitted : Failure → Prop) (outcome : Except Failure Value) (l' : Loader) : Prop where
  fits : l'.Fits table (given ++ returned outcome)
  value : ∀ v, outcome = .ok v → expected v
  failure : ∀ e, outcome = .error e →
    admitted e ∨ Exhausted l'.texts ∧ e.isLostText = true

section Safe

variable {expected : Value → Prop} {admitted : Failure → Prop} (fits : l.Fits table given)

include fits

/-- A request that fails when it has added texts at most. -/
theorem Fits.safe_error (added : TextsAdded l l') {e : Failure}
    (he : admitted e ∨ Exhausted l'.texts ∧ e.isLostText = true) :
    Safe table given expected admitted (.error e) l' where
  fits := by
    rw [returned, append_nil]
    exact fits.used added.used
  value _ h := nomatch h
  failure e' h := by
    cases h
    exact he

/-- A request whose value is expected and has a type, when it has added texts at most. -/
theorem Fits.safe_ok (added : TextsAdded l l') {v : Value}
    (hv : Value.HasType table given ty v) (hexpected : expected v) :
    Safe table given expected admitted (.ok v) l' := by
  -- an object that comes out of a method or a field was given back before
  have less : Passed given (given ++ [v]) := by
    intro moduleName handle hmem
    rcases mem_append.1 hmem with hold | hnew
    · exact hold
    · obtain rfl := mem_singleton.1 hnew
      cases hv with
      | object _ known => exact known
  have more : Passed (given ++ [v]) given := fun _ _ hmem => mem_append_left _ hmem
  refine ⟨(fits.used added.used).congr less more, ?_, fun _ h => nomatch h⟩
  intro v' h
  cases h
  exact hexpected

/-- A request that ends by giving back a word that stands for a value of a known type. -/
theorem Fits.safe_resultValue (known : table.Knows ty) {d : Datum}
    (held : Holds (Live table given) l.texts ty w d)
    (hexpected : ∀ v, Value.HasType table given ty v → expected v)
    (h : (resultValue ty w).run l = (outcome, l')) :
    Safe table given expected admitted outcome l' := by
  rw [resultValue, run_get_bind] at h
  rcases fits.loads.ofWord?_cases known held with ⟨v, hv, htype⟩ | ⟨exhausted, rfl, hnone⟩
  · rw [hv] at h
    cases h
    exact fits.safe_ok (.refl l) htype (hexpected v htype)
  · rw [hnone] at h
    cases h
    exact fits.safe_error (.refl l) (Or.inr ⟨exhausted, rfl⟩)

/-- A request that begins by looking for the class of a module. -/
theorem Fits.safe_bind_classAt {f : Nat × Loaded → Loading Value}
    (hnone : admitted (.noSuchClass moduleName))
    (h : (classAt moduleName >>= f).run l = (outcome, l'))
    (found : ∀ id c loaded, table.get? id = some c → c.path.text = moduleName →
      Linked table id c loaded l.texts → (f (id, loaded)).run l = (outcome, l') →
      Safe table given expected admitted outcome l') :
    Safe table given expected admitted outcome l' := by
  rw [run_bind] at h
  rcases fits.loads.classAt_cases moduleName with
    hmissing | ⟨id, c, loaded, hc, hmodule, linked, hclass⟩
  · rw [hmissing] at h
    cases h
    exact fits.safe_error (.refl l) (Or.inl hnone)
  · rw [hclass] at h
    exact found id c loaded hc hmodule linked h

/-- A request that passes values in, which were given back or are no objects. -/
theorem Fits.safe_bind_wordsOf
    (passed : Passed given (items.map fun item => item.2.1)) {f : List Word → Loading Value}
    (hmismatch : ∀ item ∈ items, admitted item.2.2)
    (h : (wordsOf items >>= f).run l = (outcome, l')) (rest : ∀ l₁ ws ds, l₁.Fits table given →
      HoldAll (Live table given) l₁.texts (items.map Prod.fst) ws ds →
      (f ws).run l₁ = (outcome, l') → Safe table given expected admitted outcome l') :
    Safe table given expected admitted outcome l' := by
  rw [run_bind] at h
  rcases hwords : (wordsOf items).run l with ⟨e | ws, l₁⟩ <;> rw [hwords] at h
  · cases h
    exact fits.safe_error (wordsOf_added hwords)
      (Or.inl ((wordsOf_keeps l hmismatch).failure hwords (.refl l)))
  · obtain ⟨ds, holds⟩ := fits.loads.wordsOf_hold passed hwords
    exact rest l₁ ws ds (fits.used (wordsOf_added hwords).used) holds h

end Safe

theorem slot_of_field? {name : String} {f : Code.Field}
    (h : (classFields c).find? (·.name = name) = some f) :
    ∃ index slot, c.slots[index]? = some slot ∧ slot.name = name ∧
      f = ⟨slot.name, slot.ty, index * cellSize⟩ := by
  obtain ⟨⟨slot, index⟩, hslot, rfl⟩ := mem_map.1 (mem_of_find?_eq_some h)
  have hname : slot.name = name := by simpa using find?_some h
  exact ⟨index, slot, mem_zipIdx_iff_getElem?.1 hslot, hname, rfl⟩

/-- Adding the offset of a stored word to a handle does not go around. -/
theorem toNat_address {m : Memory} (sound : m.Sound) {offset : Nat}
    (stored : m.Stored (handle.toNat + offset) w) :
    (handle + UInt32.ofNat offset).toNat = handle.toNat + offset := by
  have hend := stored.end_le
  have hlt : handle.toNat + offset < 4294967296 := by
    have haddressed : m.bytes.size < 4294967296 := sound.addressed
    omega
  have hoffset : (UInt32.ofNat offset).toNat = offset := by
    refine UInt32.toNat_ofNat_of_lt' ?_
    change offset < 4294967296
    omega
  rw [UInt32.toNat_add, hoffset]
  exact Nat.mod_eq_of_lt hlt

/-- The cell that is read for a field holds a value of the type of the slot. -/
theorem Fits.readField (fits : l.Fits table given) (alive : Live table given handle id)
    (hc : table.get? id = some c) {slot : Slot} (hslot : c.slots[index]? = some slot) :
    ∃ bytes d, l.memory.read? (handle + UInt32.ofNat (index * cellSize)).toNat
        cellSize = some bytes ∧
      Holds (Live table given) l.texts slot.ty (Word.ofBytes (valType slot.ty)
        (bytes.take (Word.size (valType slot.ty)))) d := by
  obtain ⟨w, d, held, stored⟩ := fits.slot alive hc hslot
  refine ⟨w.cell.take cellSize, d, ?_, ?_⟩
  · rw [toNat_address fits.memory stored]
    exact stored.read? fits.memory (Nat.le_refl _)
  · have hsize : Word.size (valType slot.ty) ≤ cellSize := Word.size_le _
    rw [take_take, Nat.min_eq_left hsize, ← held.type_eq, w.ofBytes_cell]
    exact held

/-- A value of the type that a class declares for the field of an object. -/
def FieldValue (table : ClassTable) (given : List Value) (object : Value) (name : String)
    (v : Value) : Prop :=
  ∃ id c slot handle, table.get? id = some c ∧ object = .object c.path.text handle ∧
    slot ∈ c.slots ∧ slot.name = name ∧ v.HasType table given slot.ty

/-- Reading a field of an object that was given back gives a value of the type of the slot. -/
theorem Fits.field (fits : l.Fits table given) {object : Value} (passed : Passed given [object])
    {name : String} (h : (field object name).run l = (outcome, l')) :
    Safe table given (FieldValue table given object name) (fun e => e.isRefusal = true)
      outcome l' := by
  cases object with
  | object moduleName handle =>
    refine fits.safe_bind_classAt ?_ h ?_
    · rfl
    rintro id c loaded hc rfl linked h
    have hfields : loaded.artifact.fields = classFields c := by rw [linked.artifact_eq]
    cases hfield : (classFields c).find? (·.name = name) with
    | none =>
      -- the class has no such field
      dsimp -zeta only at h
      rw [Artifact.field?, hfields, hfield] at h
      cases h
      exact fits.safe_error (.refl l) (Or.inl rfl)
    | some f =>
      obtain ⟨index, slot, hslot, hname, rfl⟩ := slot_of_field? hfield
      have alive : Live table given handle id := ⟨c, hc, passed _ _ mem_cons_self⟩
      obtain ⟨bytes, d, hread, held⟩ := fits.readField alive hc hslot
      have hmem := mem_of_getElem? hslot
      have known := (fits.loads.typed id c hc).slotsKnown slot hmem
      dsimp -zeta only at h
      rw [Artifact.field?, hfields, hfield] at h
      change (get >>= _ : Loading Value).run l = _ at h
      rw [run_get_bind, hread] at h
      refine fits.safe_resultValue known held (fun v htype => ?_) h
      exact ⟨id, c, slot, handle, hc, rfl, hmem, hname, htype⟩
  | _ =>
    cases h
    exact fits.safe_error (.refl l) (Or.inl rfl)

/-- A value of the type that a method declares for its result. -/
def ResultValue (table : ClassTable) (given : List Value) (moduleName method : String)
    (v : Value) : Prop :=
  ∃ id c m, table.get? id = some c ∧ c.path.text = moduleName ∧ m ∈ c.methods ∧ m.name = method ∧
    v.HasType table given m.returnType

/-- A failure of an invocation: it is refused, or the method stops for an ordinary reason. -/
def InvokeFails (e : Failure) : Prop :=
  e.isRefusal = true ∨
    ∃ className method line trap, e = .runtime className method line trap ∧ trap.isOrdinary = true

/-- The code of a method that was found by its name. -/
theorem method_of_find? (linked : Linked table id c loaded l.texts) {method : String}
    {code : Code.MethodCode}
    (h : loaded.artifact.methods.zipIdx.find? (·.1.name = method) = some (code, index)) :
    ∃ m, c.methods[index]? = some m ∧ m.name = method ∧ code.result = m.returnType ∧
      argumentTypes loaded.artifact code = operands c.ty m.signature := by
  obtain ⟨small, source, -, -, typed, generated⟩ := linked.generated
  have hcode : loaded.artifact.methods[index]? = some code :=
    mem_zipIdx_iff_getElem?.1 (mem_of_find?_eq_some h)
  have hname : code.name = method := by simpa using find?_some h
  obtain ⟨m, hm, hgenerated⟩ :=
    forall₂_getElem?_right (Code.generateClass_eq_ok generated).1 hcode
  obtain ⟨-, -, -, -, hsame, hstatic, hparams, hresult, -, -⟩ :=
    Code.generateMethod_eq_ok hgenerated
  refine ⟨m, hm, hsame.symm.trans hname, hresult, ?_⟩
  rw [argumentTypes, hstatic, hparams, linked.artifact_eq, ← typed.id_eq]
  rfl

/-- What running a method does: it adds the texts of the run, and ends with its trap or by giving
its result back. -/
theorem runMethod_cases {c : Loaded} {classIndex methodIndex : Nat} {m : Code.MethodCode}
    (h : (runMethod c classIndex m methodIndex ws).run l = (outcome, l')) :
    ∃ run, run = callFunc l.memory l.classes maxDepth (.method classIndex methodIndex) ws ∧
      ((∃ trap, run.outcome l.texts = .error trap ∧
          outcome = .error (.runtime c.artifact.className m.name m.firstLine trap) ∧
          l' = { l with texts := run.after l.texts }) ∨
        ∃ w, run.outcome l.texts = .ok w ∧
          (resultValue m.result w).run { l with texts := run.after l.texts } = (outcome, l')) := by
  unfold Loader.runMethod at h
  rw [run_get_bind] at h
  -- the run is kept closed: the machine is not to be run to the bound on the depth of calls
  generalize callFunc l.memory l.classes maxDepth (.method classIndex methodIndex) ws = run at h ⊢
  refine ⟨run, rfl, ?_⟩
  rcases hended : ExceptT.run run l.texts with ⟨trap | w, texts⟩ <;>
    rw [hended] at h <;> rw [Run.outcome, Run.after, hended]
  · cases h
    exact Or.inl ⟨trap, rfl, rfl, rfl⟩
  · exact Or.inr ⟨w, rfl, h⟩

/-- Running a method on words that stand for its operands. -/
theorem Fits.runMethod (fits : l.Fits table given) {m : Method} (hc : table.get? id = some c)
    (hm : c.methods[index]? = some m) {code : Code.MethodCode}
    (hresult : code.result = m.returnType) {ds : List Datum}
    (holds : HoldAll (Live table given) l.texts (operands c.ty m.signature) ws ds)
    (h : (runMethod loaded id code index ws).run l = (outcome, l')) :
    Safe table given (ResultValue table given c.path.text m.name) InvokeFails outcome l' := by
  have typed := fits.loads.typed id c hc
  have hmem := mem_of_getElem? hm
  have leads : table.Calls (.method ⟨id, index, m.name⟩) (.object id c.name) m.signature :=
    .method hc hm rfl
  rw [Typed.Class.ty, typed.id_eq] at holds
  have follows := callFunc_follows fits.image maxDepth _ _ _ leads l.texts ws ds (.refl _) holds
  obtain ⟨run, rfl, hended⟩ := runMethod_cases h
  have added : TextsAdded l { l with texts :=
      (callFunc l.memory l.classes maxDepth (.method id index) ws).after l.texts } :=
    ⟨rfl, rfl, rfl, callFunc_grows _ _ _ _ _ _⟩
  rcases hended with ⟨trap, htrap, rfl, rfl⟩ | ⟨w, hw, hvalue⟩
  · refine fits.safe_error added ?_
    rcases follows.ended with
      ⟨d, w, hw, -⟩ | ⟨trap', htrap', ordinary⟩ | ⟨exhausted, handle, hlost⟩
    · rw [htrap] at hw
      cases hw
    · cases htrap.symm.trans htrap'
      exact Or.inl (Or.inr ⟨_, _, _, _, rfl, ordinary⟩)
    · cases htrap.symm.trans hlost
      exact Or.inr ⟨exhausted, rfl⟩
  · rcases follows.ended with ⟨d, w', hw', held⟩ | ⟨trap, htrap, -⟩ | ⟨-, handle, hlost⟩
    · cases hw.symm.trans hw'
      rw [hresult] at hvalue
      refine (fits.used added.used).safe_resultValue (typed.methods m hmem).resultKnown held
        (fun v htype => ?_) hvalue
      exact ⟨id, c, m, hc, rfl, hmem, rfl, htype⟩
    · rw [hw] at htrap
      cases htrap
    · rw [hw] at hlost
      cases hlost

theorem map_zip_of_length {α β : Type} {as : List α} {bs : List β}
    (h : ¬ as.length ≠ bs.length) : (as.zip bs).map Prod.fst = as ∧ (as.zip bs).map Prod.snd = bs :=
  ⟨map_fst_zip (Nat.le_of_eq (not_not.1 h)),
    map_snd_zip (Nat.le_of_eq (not_not.1 h).symm)⟩

/-- Invoking a method with values that were given back gives a value of its result type, or fails
for an admitted reason. -/
theorem Fits.invoke (fits : l.Fits table given) {method : String} {args : List Value}
    (passed : Passed given args) (h : (invoke moduleName method args).run l = (outcome, l')) :
    Safe table given (ResultValue table given moduleName method) InvokeFails outcome l' := by
  refine fits.safe_bind_classAt (Or.inl rfl) h ?_
  rintro id c loaded hc rfl linked h
  dsimp only at h
  -- there is no such method, or not as many arguments as it takes, or it is run
  split at h
  · cases h
    exact fits.safe_error (.refl l) (Or.inl (Or.inl rfl))
  · next code index hfound =>
    obtain ⟨m, hm, rfl, hresult, htypes⟩ := method_of_find? linked hfound
    rw [htypes] at h
    split at h
    · cases h
      exact fits.safe_error (.refl l) (Or.inl (Or.inl rfl))
    · next hlength =>
      obtain ⟨hfst, hsnd⟩ := map_zip_of_length hlength
      rw [argumentWords_eq] at h
      refine fits.safe_bind_wordsOf ?_ ?_ h ?_
      · rw [argumentItems, map_map]
        change Passed given (((operands c.ty m.signature).zip args).map Prod.snd)
        rw [hsnd]
        exact passed
      · intro item hitem
        obtain ⟨_, -, rfl⟩ := mem_map.1 hitem
        exact Or.inl rfl
      · intro l₁ ws ds fits₁ holds h
        rw [argumentItems, map_map] at holds
        change HoldAll _ _ (((operands c.ty m.signature).zip args).map Prod.fst) _ _ at holds
        rw [hfst] at holds
        exact fits₁.runMethod hc hm hresult holds h

/-- The loader with another memory. -/
def withMemory (l : Loader) (memory : Memory) : Loader :=
  ⟨l.classes, l.names, memory, l.texts⟩

theorem place_eq (l : Loader) (cells : List UInt8) :
    place cells l = ((l.memory.allocate cells).1, l.withMemory (l.memory.allocate cells).2) := rfl

theorem used_place (l : Loader) (cells : List UInt8) :
    Used l (l.withMemory (l.memory.allocate cells).2) :=
  ⟨rfl, rfl, Memory.allocate_later _ _, fun sound => Memory.allocate_sound sound cells, .refl _⟩

/-- An object whose cells hold values of the types of its slots can be given back. -/
theorem Fits.give (fits : l.Fits table given) (hc : table.get? id = some c)
    (holds : l.HoldsObject (Live table given) c handle) :
    l.Fits table (given ++ [.object c.path.text handle]) := by
  have grown : ∀ handle' id', Live table given handle' id' →
      Live table (given ++ [.object c.path.text handle]) handle' id' := by
    rintro handle' id' ⟨d, hd, hgiven⟩
    exact ⟨d, hd, mem_append_left _ hgiven⟩
  have weaken : ∀ {d : Typed.Class} {handle' : UInt32}, l.HoldsObject (Live table given) d handle' →
      l.HoldsObject (Live table (given ++ [.object c.path.text handle])) d handle' := by
    rintro d handle' ⟨ws, ds, hall, stored⟩
    exact ⟨ws, ds, hall.mono grown, stored⟩
  refine ⟨fits.loads, fits.memory, ?_⟩
  intro moduleName handle' hgiven
  rcases mem_append.1 hgiven with hold | hnew
  · obtain ⟨id', d, hd, hmodule, hobject⟩ := fits.objects moduleName handle' hold
    exact ⟨id', d, hd, hmodule, weaken hobject⟩
  · cases mem_singleton.1 hnew
    exact ⟨id, c, hc, rfl, weaken holds⟩

theorem map_ty_classFields (c : Typed.Class) : (classFields c).map Code.Field.ty =
    c.slots.map Slot.ty := by
  have hslots : c.slots = c.slots.zipIdx.map Prod.fst := by simp
  conv_rhs => rw [hslots]
  simp only [classFields, map_map]
  rfl

/-- An object of the class of a module. -/
def NewValue (table : ClassTable) (moduleName : String) (v : Value) : Prop :=
  ∃ id c handle, table.get? id = some c ∧ c.path.text = moduleName ∧ v = .object moduleName handle

/-- A failure of a request for a new object: it is refused, or there is no room. -/
def NewObjectFails (e : Failure) : Prop := e.isRefusal = true ∨ e = .outOfMemory

/-- What comes of placing the cells of an object. -/
def placedObject (l : Loader) (moduleName : String) (cells : List UInt8) :
    Except Failure Value × Loader :=
  (match (l.memory.allocate cells).1 with
    | some handle => .ok (.object moduleName handle)
    | none => .error .outOfMemory, l.withMemory (l.memory.allocate cells).2)

/-- Placing an object whose fields are values of the types of its slots. -/
theorem Fits.placeObject (fits : l.Fits table given) (hc : table.get? id = some c) {ds : List Datum}
    (holds : HoldAll (Live table given) l.texts (c.slots.map Slot.ty) ws ds)
    (h : l.placedObject c.path.text (ws.flatMap Word.cell) = (outcome, l')) :
    Safe table given (NewValue table c.path.text) NewObjectFails outcome l' := by
  have placed := fits.used (used_place l (ws.flatMap Word.cell))
  rcases hallocate : l.memory.allocate (ws.flatMap Word.cell) with ⟨_ | handle, memory⟩ <;>
    rw [placedObject, hallocate] at h <;> rw [hallocate] at placed <;>
    cases h
  · -- no room: at most pages were added
    refine ⟨?_, (fun _ hv => nomatch hv), ?_⟩
    · rw [returned, append_nil]
      exact placed
    · intro e he
      exact Or.inl (Or.inr (Except.error.inj he).symm)
  · have stored : (l.withMemory memory).HoldsObject (Live table given) c handle :=
      ⟨ws, ds, holds, fun k w hw => Memory.allocate_stored fits.memory hallocate hw⟩
    refine ⟨placed.give hc stored, ?_, fun _ he => nomatch he⟩
    intro v hv
    cases hv
    exact ⟨id, c, handle, hc, rfl, rfl⟩

/-- Making an object from values that were given back gives an object of the class. -/
theorem Fits.newObject (fits : l.Fits table given) {values : List Value}
    (passed : Passed given values) (h : (newObject moduleName values).run l = (outcome, l')) :
    Safe table given (NewValue table moduleName) NewObjectFails outcome l' := by
  refine fits.safe_bind_classAt (Or.inl rfl) h ?_
  rintro id c loaded hc rfl linked h
  have hfields : loaded.artifact.fields = classFields c := by rw [linked.artifact_eq]
  dsimp only at h
  rw [hfields] at h
  split at h
  · cases h
    exact fits.safe_error (.refl l) (Or.inl (Or.inl rfl))
  · next hlength =>
    obtain ⟨hfst, hsnd⟩ := map_zip_of_length hlength
    rw [cellsOf_eq, bind_map_left] at h
    refine fits.safe_bind_wordsOf ?_ ?_ h ?_
    · rw [fieldItems, map_map]
      change Passed given (((classFields c).zip values).map Prod.snd)
      rw [hsnd]
      exact passed
    · intro item hitem
      obtain ⟨_, -, rfl⟩ := mem_map.1 hitem
      exact Or.inl rfl
    · intro l₁ ws ds fits₁ holds h
      have htypes : (fieldItems (c.path.text ++ " constructor")
          ((classFields c).zip values)).map Prod.fst = c.slots.map Slot.ty := by
        rw [← map_ty_classFields, ← hfst, fieldItems, map_map, map_map, hfst]
        rfl
      rw [htypes] at holds
      refine fits₁.placeObject hc holds ?_
      rw [← h, run_modifyGet_bind, place_eq, placedObject]
      cases (l₁.memory.allocate (ws.flatMap Word.cell)).1 <;> rfl

/-! ## Definitions of classes -/

/-- A link that fails leaves a loader that fits. -/
theorem Fits.named (fits : l.Fits table given) {a : Artifact}
    (h : l.isDefined a.moduleName = false) : (l.named a).Fits table given :=
  ⟨fits.loads.named h, fits.memory, fits.objects⟩

/-- A new class keeps what was given back: the objects that lived still do, in the same cells. -/
theorem Fits.extended (fits : l.Fits table given) {a : Artifact}
    (h : l.isDefined a.moduleName = false) (typed : (table.push c).Typed)
    (plain : ∀ m ∈ c.methods, Plain m.name) {source : String}
    (generated : Code.generateClass (table.push c) c source = .ok a)
    (hlink : (l.named a).link? a = some loaded) :
    (l.extended a loaded).Fits (table.push c) given where
  loads := fits.loads.extended h typed plain generated hlink
  memory := fits.memory
  objects moduleName handle hgiven := by
    have hpush : ∀ {id : ClassId} {d : Typed.Class}, table.get? id = some d →
        (table.push c).get? id = some d := by
      intro id d hd
      rw [ClassTable.get?_push_of_lt (ClassTable.lt_size_of_get? hd)]
      exact hd
    obtain ⟨id, d, hd, hmodule, ws, ds, holds, stored⟩ := fits.objects moduleName handle hgiven
    refine ⟨id, d, hpush hd, hmodule, ws, ds, ?_, stored⟩
    refine (holds.later (kept_extended l a loaded)).mono ?_
    rintro handle' id' ⟨d', hd', hgiven'⟩
    exact ⟨d', hpush hd', hgiven'⟩

end Fits

end Loader

end Machine

end ClassLang
