import ClassLang.Proofs.LoaderSafety

/-!
# Requests that define no class

Making an object, reading a field and invoking a method leave the classes of a loader and their
names as they are. They add texts, and objects behind those that are there (`Loader.Used`), whatever
values they are given and whether they succeed or fail. `Loader.newObject_cases` says once what
making an object can do.
-/

set_option autoImplicit false

namespace ClassLang.Machine

namespace Loader

section Used

variable {l l' : Loader} {α : Type}

theorem keeps_classAt (P : Loader → Prop) (moduleName : String) :
    Keeps P (fun _ => True) (classAt moduleName) := by
  refine .get_bind fun l _ => ?_
  split
  · exact .pure _
  · exact .throw trivial

theorem keeps_resultValue (P : Loader → Prop) (ty : Ty) (w : Word) :
    Keeps P (fun _ => True) (resultValue ty w) := by
  refine .get_bind fun l _ => ?_
  split
  · exact .pure _
  · exact .throw trivial

/-- Reading a field changes nothing. -/
theorem keeps_field (P : Loader → Prop) (object : Value) (name : String) :
    Keeps P (fun _ => True) (field object name) := by
  unfold field
  split
  · refine .bind (keeps_classAt P _) fun found => ?_
    dsimp only
    split
    · exact .throw trivial
    refine .get_bind fun l _ => ?_
    split
    · exact .throw trivial
    · exact keeps_resultValue P _ _
  · exact .throw trivial

/-- A method adds the texts that its run makes. -/
theorem keeps_runMethod (base : Loader) (c : Loaded) (classIndex : Nat) (m : Code.MethodCode)
    (methodIndex : Nat) (words : List Word) :
    Keeps (TextsAdded base) (fun _ => True) (runMethod c classIndex m methodIndex words) := by
  intro l added
  rcases hrun : (runMethod c classIndex m methodIndex words).run l with ⟨outcome, l'⟩
  obtain ⟨run, rfl, ⟨trap, -, -, rfl⟩ | ⟨w, -, hvalue⟩⟩ := runMethod_cases hrun
  · exact ⟨added.trans ⟨rfl, rfl, rfl, callFunc_grows _ _ _ _ _ _⟩, fun _ _ => trivial⟩
  · refine ⟨(keeps_resultValue (TextsAdded base) _ _).state hvalue ?_, fun _ _ => trivial⟩
    exact added.trans ⟨rfl, rfl, rfl, callFunc_grows _ _ _ _ _ _⟩

theorem keeps_invoke (base : Loader) (moduleName method : String) (args : List Value) :
    Keeps (TextsAdded base) (fun _ => True) (invoke moduleName method args) := by
  refine .bind (keeps_classAt _ moduleName) fun found => ?_
  dsimp only
  split
  · exact .throw trivial
  split
  · exact .throw trivial
  · rw [argumentWords_eq]
    exact .bind (wordsOf_keeps base fun _ _ => trivial) fun words => keeps_runMethod base _ _ _ _ _

theorem run_classAt {moduleName : String} {loaded : Loaded} {index : Nat}
    (h : l.classes.zipIdx.find? (·.1.artifact.moduleName = moduleName) = some (loaded, index)) :
    (classAt moduleName).run l = (.ok (index, loaded), l) := by
  rw [classAt, run_get_bind, h]
  rfl

theorem run_classAt_none {moduleName : String}
    (h : l.classes.zipIdx.find? (·.1.artifact.moduleName = moduleName) = none) :
    (classAt moduleName).run l = (.error (.noSuchClass moduleName), l) := by
  rw [classAt, run_get_bind, h]
  rfl

/-- **What making an object does.** It is refused, at most with more texts than before, or the words
for its fields are placed in the memory. -/
theorem newObject_cases (l : Loader) (moduleName : String) (values : List Value) :
    ∃ l₁, TextsAdded l l₁ ∧
      ((∃ e, (newObject moduleName values).run l = (.error e, l₁)) ∨
        ∃ loaded index ws,
          l.classes.zipIdx.find? (·.1.artifact.moduleName = moduleName) = some (loaded, index) ∧
          loaded.artifact.fields.length = values.length ∧
          (wordsOf (fieldItems (moduleName ++ " constructor")
            (loaded.artifact.fields.zip values))).run l = (.ok ws, l₁) ∧
          (newObject moduleName values).run l =
            l₁.placedObject moduleName (ws.flatMap Word.cell)) := by
  cases hfound : l.classes.zipIdx.find? (·.1.artifact.moduleName = moduleName) with
  | none =>
    refine ⟨l, .refl l, Or.inl ⟨.noSuchClass moduleName, ?_⟩⟩
    rw [newObject, run_bind, run_classAt_none hfound]
  | some found =>
    obtain ⟨loaded, index⟩ := found
    rw [newObject, run_bind, run_classAt hfound]
    dsimp only
    by_cases hlength : loaded.artifact.fields.length = values.length
    · rw [if_neg (not_not.2 hlength), cellsOf_eq, bind_map_left, run_bind]
      rcases hwords : (wordsOf (fieldItems (moduleName ++ " constructor")
        (loaded.artifact.fields.zip values))).run l with ⟨e | ws, l₁⟩
      · exact ⟨l₁, wordsOf_added hwords, Or.inl ⟨e, rfl⟩⟩
      refine ⟨l₁, wordsOf_added hwords, Or.inr ⟨loaded, index, ws, rfl, hlength, hwords, ?_⟩⟩
      dsimp only
      rw [run_modifyGet_bind, place_eq, placedObject]
      cases (l₁.memory.allocate (ws.flatMap Word.cell)).1 <;> rfl
    · rw [if_pos hlength]
      exact ⟨l, .refl l, Or.inl ⟨_, rfl⟩⟩

/-- The request defines no class. -/
def Uses (x : Loading α) : Prop := ∀ l, Used l (x.run l).2

theorem uses_of_textsAdded {x : Loading α} (h : ∀ base, Keeps (TextsAdded base) (fun _ => True) x) :
    Uses x :=
  fun l => (h l l (.refl l)).1.used

theorem uses_field (object : Value) (name : String) : Uses (field object name) :=
  uses_of_textsAdded fun base => keeps_field (TextsAdded base) object name

theorem uses_invoke (moduleName method : String) (args : List Value) :
    Uses (invoke moduleName method args) :=
  uses_of_textsAdded fun base => keeps_invoke base moduleName method args

theorem uses_newObject (moduleName : String) (values : List Value) :
    Uses (newObject moduleName values) := by
  intro l
  obtain ⟨l₁, added, ⟨e, hrun⟩ | ⟨loaded, index, ws, -, -, -, hrun⟩⟩ :=
    newObject_cases l moduleName values
  · rw [hrun]
    exact added.used
  · rw [hrun]
    exact added.used.trans (used_place l₁ _)

end Used

end Loader

end ClassLang.Machine
