import ClassLang.Proofs.LoaderUse

/-!
# Objects keep their fields

Whatever is asked of a loader after an object was made, with success or not, the fields of the object
are the values that it was made with, and no other object is placed over it. Two facts carry this: a
request only adds to a loader (`Loader.Grown`), and what the word for a value stands for does not
change when a loader grows (`Loader.Grown.ofWord?`). `Made.Lies` says how an object lies in the
memory, `Holding` what holds of all objects together, `Holding.step` that one request keeps it.

The main statement is `Loader.objects_kept`. It has one exception, for texts that were lost when the
object was made because there were more texts than handles.
-/

set_option autoImplicit false

namespace ClassLang.Machine

open List Word
open Code (Artifact cellSize classFields valType)
open Typed (ClassTable Slot)

/-- Whether a value is a text. -/
def Value.isText : Value → Bool
  | .str _ => true
  | _ => false

variable {l l' : Loader} {moduleName : String} {w : Word} {v : Value} {table : ClassTable}

namespace Loader

/-! ## Requests -/

/-- A request to a loader. -/
inductive Step where
  | define (a : Artifact)
  | newObject (moduleName : String) (values : List Value)
  | field (object : Value) (name : String)
  | invoke (moduleName method : String) (args : List Value)

/-- An object that was made from values, with the number of texts that there were then. -/
structure Made where
  moduleName : String
  values : List Value
  object : Value
  texts : Nat

namespace Step

/-- The loader after a request, whether it succeeds or fails. -/
def after (l : Loader) : Step → Loader
  | .define a => ((Loader.define a).run l).2
  | .newObject moduleName values => ((Loader.newObject moduleName values).run l).2
  | .field object name => ((Loader.field object name).run l).2
  | .invoke moduleName method args => ((Loader.invoke moduleName method args).run l).2

/-- The objects that a request makes. -/
def made (l : Loader) : Step → List Made
  | .newObject moduleName values =>
    match (Loader.newObject moduleName values).run l with
    | (.ok object, l') => [⟨moduleName, values, object, l'.texts.size⟩]
    | (.error _, _) => []
  | .define _ => []
  | .field _ _ => []
  | .invoke _ _ _ => []

end Step

/-- The loader after some requests, one after the other. -/
def runAll (l : Loader) (steps : List Step) : Loader := steps.foldl Step.after l

/-- The objects that are made in some requests, in order. -/
def madeBy (l : Loader) : List Step → List Made
  | [] => []
  | step :: steps => step.made l ++ (step.after l).madeBy steps

/-! ## Loaders that grow -/

/-- What no request takes back. -/
structure Grown (l l' : Loader) : Prop where
  classes : l.classes <+: l'.classes
  memory : l.memory.Later l'.memory
  texts : Kept l.texts l'.texts

theorem Used.grown (used : Used l l') : Grown l l' :=
  ⟨⟨[], by rw [append_nil, used.classes]⟩, used.memory, used.texts⟩

theorem grown_define (l : Loader) (a : Artifact) : Grown l ((define a).run l).2 := by
  rcases define_cases l a with ⟨-, h⟩ | ⟨-, ⟨-, h⟩ | ⟨loaded, -, h⟩⟩ <;> rw [h]
  · exact ⟨prefix_refl _, .refl _, .refl _⟩
  · exact ⟨prefix_refl _, .refl _, .refl _⟩
  · exact ⟨prefix_append _ _, .refl _, kept_extended l a loaded⟩

variable {loaded : Loaded} {index : Nat} {ws : List Word} {handle : UInt32}

section Grown

/-- The class of a module stays the same. -/
theorem Grown.find? (grown : Grown l l')
    (h : l.classes.zipIdx.find? (·.1.artifact.moduleName = moduleName) = some (loaded, index)) :
    l'.classes.zipIdx.find? (·.1.artifact.moduleName = moduleName) = some (loaded, index) := by
  obtain ⟨more, hmore⟩ := grown.classes
  rw [← hmore, zipIdx_append, find?_append, h, Option.some_or]

theorem Grown.moduleOf? (grown : Grown l l') {id : ClassId} (h : l.moduleOf? id = some moduleName) :
    l'.moduleOf? id = some moduleName := by
  obtain ⟨more, hmore⟩ := grown.classes
  obtain ⟨found, hfound, hmodule⟩ := Option.map_eq_some_iff.1 h
  rw [Loader.moduleOf?, ← hmore, find?_append, hfound, Option.some_or, Option.map_some, hmodule]

/-- What a word stands for stays the same. -/
theorem Grown.ofWord? (grown : Grown l l') {ty : Ty} (h : l.ofWord? ty w = some v) :
    l'.ofWord? ty w = some v := by
  unfold Loader.ofWord? at h ⊢
  split at h
  · exact h
  · exact h
  · obtain ⟨text, htext, rfl⟩ := Option.map_eq_some_iff.1 h
    rw [grown.texts.textOf? htext]
    rfl
  · obtain ⟨moduleName, hmodule, rfl⟩ := Option.map_eq_some_iff.1 h
    rw [grown.moduleOf? hmodule]
    rfl
  · cases h

end Grown

/-! ## Words for values -/

/-- The word stands for the value. The exception is a text that was lost among `count` texts. -/
structure StandsFor (l : Loader) (count : Nat) (ty : Ty) (w : Word) (v : Value) : Prop where
  type : w.type = valType ty
  value : l.ofWord? ty w = some v ∨ v.isText = true ∧ maxTexts < count

section StandsFor

variable {count : Nat} {ty : Ty}

theorem StandsFor.grown (h : l.StandsFor count ty w v) (grown : Grown l l') :
    l'.StandsFor count ty w v :=
  ⟨h.type, h.value.imp_left grown.ofWord?⟩

theorem StandsFor.more (h : l.StandsFor count ty w v) {count' : Nat} (hle : count ≤ count') :
    l.StandsFor count' ty w v :=
  ⟨h.type, h.value.imp_right fun lost => ⟨lost.1, Nat.lt_of_lt_of_le lost.2 hle⟩⟩

theorem toWord_standsFor {mismatch : Failure} (h : (toWord ty v mismatch).run l = (.ok w, l')) :
    l'.StandsFor l'.texts.size ty w v := by
  unfold toWord at h
  split at h
  · cases h
    exact ⟨rfl, Or.inl rfl⟩
  · cases h
    exact ⟨rfl, Or.inl rfl⟩
  · next text =>
    cases h
    refine ⟨rfl, ?_⟩
    -- a text behind the last handle is lost
    rcases Nat.lt_or_ge l.texts.size maxTexts with hroom | hfull
    · exact Or.inl (congrArg (Option.map Value.str) (textOf?_push hroom text))
    · refine Or.inr ⟨rfl, ?_⟩
      rw [Array.size_push]
      exact Nat.lt_succ_of_le hfull
  · next id name moduleName handle =>
    change (ite (l.moduleOf? id = some moduleName) _ _ : Loading Word).run l = _ at h
    split at h
    · next hmodule =>
      cases h
      refine ⟨rfl, Or.inl ?_⟩
      rw [ofWord?, hmodule]
      rfl
    · cases h
  · cases h

/-- The words for some values stand for them. -/
theorem wordsOf_standFor {items : List (Ty × Value × Failure)}
    (h : (wordsOf items).run l = (.ok ws, l')) :
    Forall₂ (fun item w => l'.StandsFor l'.texts.size item.1 w item.2.1) items ws := by
  induction items generalizing l ws with
  | nil =>
    cases h
    exact .nil
  | cons item rest ih =>
    obtain ⟨ty, value, mismatch⟩ := item
    obtain ⟨w, l₁, hw, h⟩ := run_bind_eq_ok.1 h
    obtain ⟨ws, l₂, hws, h⟩ := run_bind_eq_ok.1 h
    cases h
    -- the words behind the first only add texts, so it still stands for its value
    have added := wordsOf_added hws
    exact .cons (((toWord_standsFor hw).grown added.used.grown).more added.texts.size_le) (ih hws)

end StandsFor

/-! ## Objects in memory -/

namespace Made

/-- The address of an object. -/
def start (o : Made) : Nat :=
  match o.object with
  | .object _ handle => handle.toNat
  | _ => 0

/-- The address behind an object, which takes a cell for each value and at least one. -/
def stop (o : Made) : Nat := o.start + max cellSize (cellSize * o.values.length)

/-- The object lies in the memory: its class is loaded, and its cells hold words for its values. -/
structure Lies (table : ClassTable) (l : Loader) (o : Made) : Prop where
  handle : ∃ handle, o.object = .object o.moduleName handle
  aligned : o.start % cellSize = 0
  low : cellSize ≤ o.start
  inside : o.stop ≤ l.memory.bytes.size
  cells : ∃ id c loaded index, table.get? id = some c ∧ c.path.text = o.moduleName ∧
    l.classes.zipIdx.find? (·.1.artifact.moduleName = o.moduleName) = some (loaded, index) ∧
    loaded.artifact.fields = classFields c ∧ c.slots.length = o.values.length ∧
    ∀ (i : Nat) (slot : Slot) (v : Value), c.slots[i]? = some slot → o.values[i]? = some v →
      ∃ w, l.memory.Stored (o.start + i * cellSize) w ∧ l.StandsFor o.texts slot.ty w v

theorem Lies.grown {o : Made} (lies : o.Lies table l) (grown : Grown l l') : o.Lies table l' where
  handle := lies.handle
  aligned := lies.aligned
  low := lies.low
  inside := by
    refine Nat.le_trans lies.inside ?_
    rw [← Array.length_toList, ← Array.length_toList]
    exact grown.memory.bytes.length_le
  cells := by
    obtain ⟨id, c, loaded, index, hc, hmodule, hfound, hfields, hlength, hcells⟩ := lies.cells
    refine ⟨id, c, loaded, index, hc, hmodule, grown.find? hfound, hfields, hlength, ?_⟩
    intro i slot v hslot hv
    obtain ⟨w, stored, stands⟩ := hcells i slot v hslot hv
    exact ⟨w, stored.grows grown.memory, stands.grown grown⟩

end Made

/-- What holds of a loader and the objects that were made in it: its classes are those of a table, its
memory is used cell by cell, and the objects lie in it one behind the other. -/
structure Holding (table : ClassTable) (l : Loader) (made : List Made) : Prop where
  sound : l.memory.Sound
  aligned : l.memory.bytes.size % cellSize = 0
  low : cellSize ≤ l.memory.bytes.size
  classes : ∀ loaded ∈ l.classes, ∃ id c, table.get? id = some c ∧
    loaded.artifact.moduleName = c.path.text ∧ loaded.artifact.fields = classFields c
  objects : ∀ o ∈ made, o.Lies table l
  apart : made.Pairwise fun o o' => o.stop ≤ o'.start

theorem holding_initial (table : ClassTable) : Holding table initial [] where
  sound := Memory.sound_initial
  aligned := by decide
  low := by decide
  classes _ h := nomatch h
  objects _ h := nomatch h
  apart := .nil

/-- The artifact was generated from a class of the table. -/
def FromTable (table : ClassTable) (a : Artifact) : Prop :=
  ∃ id c small source, table.get? id = some c ∧ Code.generateClass small c source = .ok a

/-- A class from the table has the fields of the slots there. -/
theorem FromTable.fields {a : Artifact} (h : FromTable table a) :
    ∃ id c, table.get? id = some c ∧ a.moduleName = c.path.text ∧ a.fields = classFields c := by
  obtain ⟨id, c, small, source, hc, generated⟩ := h
  have ha := (Code.generateClass_eq_ok generated).2
  exact ⟨id, c, hc, by rw [ha], by rw [ha]⟩

section Holding

variable {made : List Made}

/-- Nothing was placed in the memory. -/
theorem Holding.grown (holding : Holding table l made) (grown : Grown l l')
    (sound : l'.memory.Sound) (hbytes : l'.memory.bytes = l.memory.bytes)
    (classes : ∀ loaded ∈ l'.classes, ∃ id c, table.get? id = some c ∧
      loaded.artifact.moduleName = c.path.text ∧ loaded.artifact.fields = classFields c) :
    Holding table l' made where
  sound := sound
  aligned := by rw [hbytes]; exact holding.aligned
  low := by rw [hbytes]; exact holding.low
  classes := classes
  objects o ho := (holding.objects o ho).grown grown
  apart := holding.apart

/-- Texts were added. -/
theorem Holding.textsAdded (holding : Holding table l made) (added : TextsAdded l l') :
    Holding table l' made := by
  refine holding.grown added.used.grown ?_ (by rw [added.memory]) ?_
  · rw [added.memory]
    exact holding.sound
  · rw [added.classes]
    exact holding.classes

theorem Holding.define (holding : Holding table l made) {a : Artifact} (ha : FromTable table a) :
    Holding table ((Loader.define a).run l).2 made := by
  have grown := grown_define l a
  rcases define_cases l a with ⟨-, h⟩ | ⟨-, ⟨-, h⟩ | ⟨loaded, hlink, h⟩⟩ <;> rw [h] at grown ⊢
  · exact holding
  · exact holding.grown grown holding.sound rfl holding.classes
  · refine holding.grown grown holding.sound rfl ?_
    refine forall_mem_append.2 ⟨holding.classes, forall_mem_singleton.2 ?_⟩
    rw [artifact_of_link? hlink]
    exact ha.fields

end Holding

theorem length_cells (ws : List Word) :
    (ws.flatMap cell).length = cellSize * ws.length := by
  induction ws with
  | nil => rfl
  | cons w ws ih =>
    rw [flatMap_cons, length_append, ih, length_cell, length_cons, Nat.mul_succ,
      Nat.add_comm]
    rfl

theorem length_padded (ws : List Word) : (Memory.padded (ws.flatMap cell)).length =
    max cellSize (cellSize * ws.length) := by
  rw [Memory.padded, length_append, length_replicate, length_cells]
  omega

section NewObject

variable {made : List Made} {values : List Value}

/-- The word for the value of a slot. -/
theorem standsFor_slot {c : Typed.Class} {method : String} {count : Nat}
    (hwords : Forall₂ (fun item w => l.StandsFor count item.1 w item.2.1)
      (fieldItems method ((classFields c).zip values)) ws) {i : Nat} {slot : Slot}
    (hslot : c.slots[i]? = some slot) (hv : values[i]? = some v) :
    ∃ w, ws[i]? = some w ∧ l.StandsFor count slot.ty w v := by
  have hfield : (classFields c)[i]? = some ⟨slot.name, slot.ty, i * cellSize⟩ := by
    simp [classFields, hslot]
  have hitem : (fieldItems method ((classFields c).zip values))[i]? = some (slot.ty, v,
      .badArguments method (.fieldType slot.name slot.ty v)) := by
    have hzip : ((classFields c).zip values)[i]? =
        some (⟨slot.name, slot.ty, i * cellSize⟩, v) :=
      getElem?_zip_eq_some.2 ⟨hfield, hv⟩
    rw [fieldItems, getElem?_map, hzip]
    rfl
  exact forall₂_getElem?_left hwords hitem

/-- An object that was made lies behind all others. -/
theorem Holding.placed (holding : Holding table l made)
    (hfound : l.classes.zipIdx.find? (·.1.artifact.moduleName = moduleName) = some (loaded, index))
    (hlength : loaded.artifact.fields.length = values.length)
    (hwords : Forall₂ (fun item w => l.StandsFor l.texts.size item.1 w item.2.1)
      (fieldItems (moduleName ++ " constructor") (loaded.artifact.fields.zip values)) ws)
    {memory : Memory}
    (hallocate : l.memory.allocate (ws.flatMap cell) = (some handle, memory)) :
    Holding table (l.withMemory memory)
      (made ++ [⟨moduleName, values, .object moduleName handle, l.texts.size⟩]) := by
  have hlater : l.memory.Later memory := by
    have h := Memory.allocate_later l.memory (ws.flatMap cell)
    rwa [hallocate] at h
  have hsound : memory.Sound := by
    have h := Memory.allocate_sound holding.sound (ws.flatMap cell)
    rwa [hallocate] at h
  have grown : Grown l (l.withMemory memory) := ⟨prefix_refl _, hlater, .refl _⟩
  have hcount : ws.length = values.length := by
    rw [← hwords.length_eq, fieldItems, length_map, length_zip, hlength, Nat.min_self]
  -- the new object takes the place behind all that was in use
  obtain ⟨hhandle, hbytes⟩ := Memory.allocate_some holding.sound hallocate
  have hsize : memory.bytes.size =
      l.memory.bytes.size + max cellSize (cellSize * values.length) := by
    rw [← Array.length_toList, hbytes, length_append, Array.length_toList, length_padded, hcount]
  have halign := holding.aligned
  have hlow := holding.low
  refine ⟨hsound, ?_, ?_, holding.classes, ?_, ?_⟩
  · change memory.bytes.size % cellSize = 0
    rw [hsize]
    unfold cellSize at halign ⊢
    omega
  · change cellSize ≤ memory.bytes.size
    omega
  · refine forall_mem_append.2 ⟨fun o ho => (holding.objects o ho).grown grown,
      forall_mem_singleton.2 ⟨⟨handle, rfl⟩, ?_, ?_, ?_, ?_⟩⟩
    · change handle.toNat % cellSize = 0
      rw [hhandle]
      exact halign
    · change cellSize ≤ handle.toNat
      rw [hhandle]
      exact hlow
    · change handle.toNat + max cellSize (cellSize * values.length) ≤ memory.bytes.size
      exact Nat.le_of_eq (by rw [hhandle, hsize])
    · obtain ⟨id, c, hc, hmodule, hfields⟩ := holding.classes loaded
        (fst_mem_of_mem_zipIdx (mem_of_find?_eq_some hfound))
      have hname : loaded.artifact.moduleName = moduleName := by simpa using find?_some hfound
      rw [hfields] at hlength hwords
      refine ⟨id, c, loaded, index, hc, hmodule.symm.trans hname, hfound, hfields, ?_, ?_⟩
      · rw [← hlength, classFields, length_map, length_zipIdx]
      · intro i slot v hslot hv
        obtain ⟨w, hw, stands⟩ := standsFor_slot hwords hslot hv
        exact ⟨w, Memory.allocate_stored holding.sound hallocate hw, stands.grown grown⟩
  · refine pairwise_append.2 ⟨holding.apart, pairwise_singleton _ _, fun o ho o' ho' => ?_⟩
    obtain rfl := mem_singleton.1 ho'
    change o.stop ≤ handle.toNat
    rw [hhandle]
    exact (holding.objects o ho).inside

theorem Holding.newObject (holding : Holding table l made) (moduleName : String)
    (values : List Value) :
    Holding table ((Loader.newObject moduleName values).run l).2
      (made ++ (Step.newObject moduleName values).made l) := by
  obtain ⟨l₁, added, ⟨e, hrun⟩ | ⟨loaded, index, ws, hfound, hlength, hwords, hrun⟩⟩ :=
    newObject_cases l moduleName values
  · rw [Step.made, hrun, append_nil]
    exact holding.textsAdded added
  have holding₁ := holding.textsAdded added
  rw [← added.classes] at hfound
  rcases hallocate : l₁.memory.allocate (ws.flatMap cell) with ⟨_ | handle, memory⟩
  · rw [placedObject, hallocate] at hrun
    rw [Step.made, hrun, append_nil]
    have hlater := Memory.allocate_later l₁.memory (ws.flatMap cell)
    have hsound := Memory.allocate_sound holding₁.sound (ws.flatMap cell)
    rw [hallocate] at hlater hsound
    exact holding₁.grown ⟨prefix_refl _, hlater, .refl _⟩ hsound
      (Memory.allocate_none hallocate) holding₁.classes
  · rw [placedObject, hallocate] at hrun
    rw [Step.made, hrun]
    exact holding₁.placed hfound hlength (wordsOf_standFor hwords) hallocate

end NewObject

theorem Holding.step {made : List Made} (holding : Holding table l made) (step : Step)
    (hstep : ∀ a, step = .define a → FromTable table a) :
    Holding table (step.after l) (made ++ step.made l) := by
  cases step with
  | define a =>
    rw [Step.made, append_nil]
    exact holding.define (hstep a rfl)
  | newObject moduleName values => exact holding.newObject moduleName values
  | field object name =>
    rw [Step.made, append_nil]
    exact holding.textsAdded (keeps_field (TextsAdded l) object name l (.refl l)).1
  | invoke moduleName method args =>
    rw [Step.made, append_nil]
    exact holding.textsAdded (keeps_invoke l moduleName method args l (.refl l)).1

theorem Holding.runAll {made : List Made} (holding : Holding table l made) {steps : List Step}
    (hsteps : ∀ a, .define a ∈ steps → FromTable table a) :
    Holding table (l.runAll steps) (made ++ l.madeBy steps) := by
  induction steps generalizing l made with
  | nil =>
    rw [madeBy, append_nil]
    exact holding
  | cons step steps ih =>
    -- the objects of the first request join those that were made before
    rw [madeBy, ← append_assoc]
    refine ih (holding.step step fun a ha => hsteps a ?_) fun a ha => hsteps a ?_
    · rw [ha]
      exact mem_cons_self
    · exact mem_cons_of_mem _ ha

/-! ## Reading fields -/

/-- A slot is found by its name. -/
theorem find?_classFields {c : Typed.Class} (names : (c.slots.map Slot.name).Nodup) {i : Nat}
    {slot : Slot} (hslot : c.slots[i]? = some slot) :
    (classFields c).find? (·.name = slot.name) =
      some ⟨slot.name, slot.ty, i * cellSize⟩ := by
  have hsome : ((classFields c).find? (·.name = slot.name)).isSome := by
    rw [find?_isSome]
    refine ⟨⟨slot.name, slot.ty, i * cellSize⟩, ?_, decide_eq_true rfl⟩
    exact mem_map.2 ⟨(slot, i), mem_zipIdx_iff_getElem?.2 hslot, rfl⟩
  obtain ⟨f, hf⟩ := Option.isSome_iff_exists.1 hsome
  obtain ⟨index, slot', hslot', hname, rfl⟩ := slot_of_field? hf
  -- the first field with the name is this one, as no two slots have one name
  have hindex : index = i := by
    have hlt : index < (c.slots.map Slot.name).length := by
      rw [length_map]
      exact (List.getElem?_eq_some_iff.1 hslot').1
    refine (getElem?_inj hlt names).1 ?_
    rw [getElem?_map, getElem?_map, hslot', hslot, Option.map_some, Option.map_some, hname]
  subst hindex
  cases hslot'.symm.trans hslot
  exact hf

/-- Reading the cell of a stored word gives the word back. -/
theorem read?_stored {m : Memory} (sound : m.Sound) {offset : Nat}
    (stored : m.Stored (handle.toNat + offset) w) {ty : Code.ValType} (htype : w.type = ty) :
    ∃ bytes, m.read? (handle + UInt32.ofNat offset).toNat cellSize = some bytes ∧
      ofBytes ty (bytes.take (size ty)) = w := by
  refine ⟨w.cell.take cellSize, ?_, ?_⟩
  · rw [toNat_address sound stored]
    exact stored.read? sound (Nat.le_refl _)
  · have hsize : size ty ≤ cellSize := size_le _
    rw [take_take, Nat.min_eq_left hsize, ← htype, w.ofBytes_cell]

theorem run_field {name : String} {f : Code.Field} {bytes : List UInt8}
    (hfound : l.classes.zipIdx.find? (·.1.artifact.moduleName = moduleName) = some (loaded, index))
    (hfield : loaded.artifact.field? name = some f)
    (hread : l.memory.read? (handle + UInt32.ofNat f.offset).toNat cellSize = some bytes) :
    (field (.object moduleName handle) name).run l = (resultValue f.ty (ofBytes
      (valType f.ty) (bytes.take (size (valType f.ty))))).run l := by
  rw [field, run_bind, run_classAt hfound]
  dsimp -zeta only
  rw [hfield]
  change (get >>= _ : Loading Value).run l = _
  rw [run_get_bind, hread]

theorem run_resultValue {ty : Ty} (h : l.ofWord? ty w = some v) :
    (resultValue ty w).run l = (.ok v, l) := by
  rw [resultValue, run_get_bind, h]
  rfl

/-- A field of an object that lies in the memory is the value that the object was made with. -/
theorem Made.Lies.field {o : Made} (lies : o.Lies table l) (sound : l.memory.Sound)
    (names : ∀ id c, table.get? id = some c → (c.slots.map Slot.name).Nodup) :
    ∃ id c, table.get? id = some c ∧ c.path.text = o.moduleName ∧ c.slots.length = o.values.length ∧
      ∀ (i : Nat) (slot : Slot) (v : Value), c.slots[i]? = some slot → o.values[i]? = some v →
        (Loader.field o.object slot.name).run l = (.ok v, l) ∨
          v.isText = true ∧ maxTexts < o.texts := by
  obtain ⟨handle, hobject⟩ := lies.handle
  obtain ⟨id, c, loaded, index, hc, hmodule, hfound, hfields, hlength, hcells⟩ := lies.cells
  refine ⟨id, c, hc, hmodule, hlength, fun i slot v hslot hv => ?_⟩
  obtain ⟨w, stored, stands⟩ := hcells i slot v hslot hv
  refine stands.value.imp_left fun hvalue => ?_
  -- the class that is found by name is the one of the object, with the slot at its position
  have hstart : o.start = handle.toNat := by rw [Made.start, hobject]
  rw [hstart] at stored
  obtain ⟨bytes, hread, hword⟩ := read?_stored sound stored stands.type
  have hfield : loaded.artifact.field? slot.name =
      some ⟨slot.name, slot.ty, i * cellSize⟩ := by
    rw [Artifact.field?, hfields, find?_classFields (names id c hc) hslot]
  rw [hobject, run_field hfound hfield hread, hword, run_resultValue hvalue]

/-- The object is where it was made, in cells of its own inside the memory, and its fields are the
values that it was made with. -/
structure Made.Remains (table : ClassTable) (l : Loader) (o : Made) : Prop where
  handle : ∃ handle, o.object = .object o.moduleName handle
  aligned : o.start % cellSize = 0
  low : cellSize ≤ o.start
  inside : o.stop ≤ l.memory.size
  fields : ∃ id c, table.get? id = some c ∧ c.path.text = o.moduleName ∧
    c.slots.length = o.values.length ∧
    ∀ (i : Nat) (slot : Slot) (v : Value), c.slots[i]? = some slot → o.values[i]? = some v →
      (Loader.field o.object slot.name).run l = (.ok v, l) ∨ v.isText = true ∧ maxTexts < o.texts

/-- An object that cannot be made leaves the bytes in use as they are. -/
theorem bytes_of_newObject_error {values : List Value} {e : Failure}
    (h : (newObject moduleName values).run l = (.error e, l')) :
    l'.memory.bytes = l.memory.bytes := by
  obtain ⟨l₁, added, ⟨e', hrun⟩ | ⟨loaded, index, ws, -, -, -, hrun⟩⟩ :=
    newObject_cases l moduleName values
  · cases h.symm.trans hrun
    rw [added.memory]
  rw [h] at hrun
  rcases hallocate : l₁.memory.allocate (ws.flatMap cell) with ⟨_ | handle, memory⟩ <;>
    rw [placedObject, hallocate] at hrun <;> cases hrun
  exact (Memory.allocate_none hallocate).trans (by rw [added.memory])

/-! ## An example -/

/-- A table with one class, which has two slots. -/
def boxTable : ClassTable :=
  match Tree.parse "slots\n\tval Int x\n\tval String label\n" "Box" with
  | .ok tree => ClassTable.empty.afterCheck ⟨["Box"]⟩ tree []
  | .error _ => .empty

theorem reached_boxTable : boxTable.Reached := by
  unfold boxTable
  generalize Tree.parse "slots\n\tval Int x\n\tval String label\n" "Box" = outcome
  cases outcome with
  | error e => exact .empty
  | ok tree => exact .check _ _ _ .empty

def boxClass : Typed.Class := (boxTable.get? 0).getD default

def boxArtifact : Artifact :=
  match Code.generateClass boxTable boxClass "" with
  | .ok a => a
  | .error _ => default

theorem fromTable_boxArtifact : FromTable boxTable boxArtifact := by
  have hclass : (boxTable.get? 0).isSome = true := by decide +kernel
  have hok : (Code.generateClass boxTable boxClass "").isOk = true := by decide +kernel
  refine ⟨0, boxClass, boxTable, "", ?_, ?_⟩
  · obtain ⟨c, hc⟩ := Option.isSome_iff_exists.1 hclass
    rw [boxClass, hc, Option.getD_some]
  · unfold boxArtifact
    generalize Code.generateClass boxTable boxClass "" = outcome at hok ⊢
    cases outcome with
    | error e => cases hok
    | ok a => rfl

/-- Two objects are made, and between them an object, a class and a field are asked for in vain. -/
def boxSteps : List Step :=
  [.define boxArtifact, .newObject "Box" [.int 3, .str "p"], .newObject "Box" [.int 4],
    .define boxArtifact, .field (.object "Box" 8) "y", .newObject "Box" [.int 5, .str "q"]]

/-- **Objects keep their fields and do not overlap.** Let the classes of a loader come from one table
of checked classes, and let anything be asked of it. Then every object that was ever made is where
it was, in whole cells inside the memory, and reading its fields gives the values that it was made
with; later objects lie behind it; and an object that cannot be made takes no memory. -/
theorem objects_kept {table : ClassTable} (reached : table.Reached) {steps : List Step}
    (hsteps : ∀ a, .define a ∈ steps → FromTable table a) :
    (∀ o ∈ initial.madeBy steps, o.Remains table (initial.runAll steps)) ∧
      (initial.madeBy steps).Pairwise (fun o o' => o.stop ≤ o'.start) ∧
      ∀ moduleName values e l',
        (newObject moduleName values).run (initial.runAll steps) = (.error e, l') →
        l'.memory.bytes = (initial.runAll steps).memory.bytes := by
  have holding := (holding_initial table).runAll hsteps
  rw [nil_append] at holding
  refine ⟨fun o ho => ?_, holding.apart, fun _ _ _ _ => bytes_of_newObject_error⟩
  have lies := holding.objects o ho
  refine ⟨lies.handle, lies.aligned, lies.low, Nat.le_trans lies.inside holding.sound.paged, ?_⟩
  exact lies.field holding.sound fun id c hc => reached.slotNames hc

/-- Both objects of the example remain, one behind the other. -/
theorem objects_kept_box : (initial.madeBy boxSteps).map Made.start = [8, 24] ∧
    ∀ o ∈ initial.madeBy boxSteps, o.Remains boxTable (initial.runAll boxSteps) := by
  refine ⟨by decide +kernel, (objects_kept reached_boxTable fun a ha => ?_).1⟩
  simp only [boxSteps, mem_cons, Step.define.injEq, reduceCtorEq, not_mem_nil, or_false,
    false_or, or_self] at ha
  rw [ha]
  exact fromTable_boxArtifact

end Loader

end ClassLang.Machine
