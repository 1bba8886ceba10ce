import ClassLang.Proofs.CheckerSoundness

/-!
# The table of members

The members of a class can also be kept in a table by their names, which says where each is among the
slots or the methods. A `KeyedClass` has such a table, and claims the name of a member in it before the
member is put behind the others. However slots and methods are added to it, it finds the same members as
the class without a table does, by going through them (`KeyedClass.Represents`), and refuses the same
names. The main statement is `members_of_additions`.
-/

set_option autoImplicit false

namespace ClassLang.Typed

open List

/-- A member that is to be added to a class. -/
inductive Addition where
  | slot (slot : Slot)
  | method (method : Method)

/-- Where a member is among the slots or the methods. -/
inductive MemberId where
  | slot (index : Nat)
  | method (index : Nat)

namespace Addition

def name : Addition → String
  | .slot s => s.name
  | .method m => m.name

def span : Addition → Span
  | .slot s => s.span
  | .method m => m.span

/-- The member behind those that a class has. -/
def asMember (c : Class) : Addition → Member
  | .slot s => .slot c.slots.length s
  | .method m => .method c.methods.length m

end Addition

namespace Member

def id : Member → MemberId
  | .slot index _ => .slot index
  | .method index _ => .method index

/-- The member of this name is in the class, at its position. -/
def In (c : Class) (name : String) : Member → Prop
  | .slot index s => c.slots[index]? = some s ∧ s.name = name
  | .method index m => c.methods[index]? = some m ∧ m.name = name

end Member

/-! ## Classes without a table -/

namespace Class

/-- The names of all members. -/
def names (c : Class) : List String := c.slots.map Slot.name ++ c.methods.map Method.name

/-- The class with a member more. -/
def append (c : Class) : Addition → Class
  | .slot s => { c with slots := c.slots ++ [s] }
  | .method m => { c with methods := c.methods ++ [m] }

/-- Adds a member, unless its name is taken. -/
def add (c : Class) : Addition → Except CompileError Class
  | .slot s => c.addSlot s
  | .method m => c.addMethod m

/-- The class behind a sequence of additions; it stays as it is when one is refused. -/
def after (c : Class) (additions : List Addition) : Class :=
  additions.foldl (fun c a => (c.add a).toOption.getD c) c

variable {α : Type} {c : Class} {name : String} {member : Member} {a : Addition}

theorem add_eq (c : Class) (a : Addition) : c.add a =
    if (c.member? a.name).isSome then .error ⟨a.span, .duplicateMember a.name⟩
    else .ok (c.append a) := by
  cases a <;> rfl

theorem indexed?_concat (name : α → String) (wanted : String) (items : List α) (item : α) :
    indexed? name wanted (items ++ [item]) = (indexed? name wanted items).or
      (if name item = wanted then some (items.length, item) else none) := by
  rw [indexed?, indexed?, zipIdx_append, find?_append, Option.map_or]
  by_cases h : name item = wanted <;> simp [h]

/-- Slots are looked for first. -/
theorem member?_eq (c : Class) (name : String) : c.member? name =
    ((indexed? Slot.name name c.slots).map fun found => .slot found.1 found.2).or
      ((indexed? Method.name name c.methods).map fun found => .method found.1 found.2) := by
  unfold member?
  cases indexed? Slot.name name c.slots <;> rfl

/-- Behind an addition the new member is found by its name, and the others as before. -/
theorem member?_append (free : c.member? a.name = none) (name : String) :
    (c.append a).member? name = if a.name = name then some (a.asMember c) else c.member? name := by
  rw [member?_eq, Option.or_eq_none_iff, Option.map_eq_none_iff, Option.map_eq_none_iff] at free
  cases a with
  | slot s | method s =>
    rw [member?_eq, member?_eq, append, indexed?_concat]
    by_cases hname : s.name = name
    · subst hname
      simp [Addition.name, Addition.asMember, show indexed? _ s.name _ = none from free.1,
        show indexed? _ s.name _ = none from free.2]
    · simp [Addition.name, hname]

theorem mem_names_iff : name ∈ c.names ↔ (c.member? name).isSome := by
  constructor
  · intro h
    rw [Option.isSome_iff_ne_none]
    intro hnone
    obtain ⟨hslots, hmethods⟩ := ne_of_member?_eq_none hnone
    rcases mem_append.1 h with h | h
    · obtain ⟨s, hs, hname⟩ := mem_map.1 h
      exact hslots s hs hname
    · obtain ⟨m, hm, hname⟩ := mem_map.1 h
      exact hmethods m hm hname
  · intro h
    obtain ⟨member, h⟩ := Option.isSome_iff_exists.1 h
    cases member with
    | slot index s =>
      obtain ⟨hs, rfl⟩ := slot_of_member? h
      exact mem_append_left _ (mem_map_of_mem (mem_of_getElem? hs))
    | method index m =>
      obtain ⟨hm, rfl⟩ := method_of_member? h
      exact mem_append_right _ (mem_map_of_mem (mem_of_getElem? hm))

theorem names_append (c : Class) (a : Addition) : (c.append a).names ~ a.name :: c.names := by
  cases a with
  | slot s => simp [names, append, Addition.name]
  | method m =>
    rw [names, append, map_append, ← append_assoc]
    exact perm_append_singleton _ _

theorem in_append : member.In (c.append a) name ↔
    member.In c name ∨ a.asMember c = member ∧ a.name = name := by
  have hconcat : ∀ {β : Type} {items : List β} {item found : β} {i : Nat},
      (items ++ [item])[i]? = some found ↔
        items[i]? = some found ∨ items.length = i ∧ item = found := by
    intro β items item found i
    grind
  cases a with
  | slot s =>
    cases member with
    | slot i s' =>
      simp only [Member.In, append, hconcat, Addition.asMember, Addition.name, Member.slot.injEq]
      grind
    | method i m => simp [Member.In, append, Addition.asMember]
  | method m =>
    cases member with
    | slot i s => simp [Member.In, append, Addition.asMember]
    | method i m' =>
      simp only [Member.In, append, hconcat, Addition.asMember, Addition.name, Member.method.injEq]
      grind

end Class

/-! ## Classes with a table -/

/-- A class with a table that says where the member of a name is. -/
structure KeyedClass where
  declared : Class
  members : Std.HashMap String MemberId

namespace KeyedClass

def empty (id : ClassId) (name : String) (path : ModulePath) (span : Span) : KeyedClass :=
  ⟨.empty id name path span, ∅⟩

/-- Claims a name for a member, unless it is taken. -/
def claim (k : KeyedClass) (span : Span) (name : String) (id : MemberId) :
    Except CompileError Unit × KeyedClass :=
  if name ∈ k.members then (.error ⟨span, .duplicateMember name⟩, k)
  else (.ok (), { k with members := k.members.insert name id })

/-- Claims the name of a member, and then puts the member behind the others. -/
def add (k : KeyedClass) (a : Addition) : Except CompileError Unit × KeyedClass :=
  match k.claim a.span a.name (a.asMember k.declared).id with
  | (.ok (), k) => (.ok (), { k with declared := k.declared.append a })
  | (.error e, k) => (.error e, k)

/-- The class behind a sequence of additions, of which some may be refused. -/
def after (k : KeyedClass) (additions : List Addition) : KeyedClass :=
  additions.foldl (fun k a => (k.add a).2) k

/-- The member of a name, from the place that the table tells. -/
def member? (k : KeyedClass) (name : String) : Option Member :=
  k.members[name]?.bind fun
    | .slot index => k.declared.slots[index]?.map (.slot index)
    | .method index => k.declared.methods[index]?.map (.method index)

/-- How many names the table has. -/
def memberCount (k : KeyedClass) : Nat := k.members.size

/-- The table has the members of the class, and these are the ones that have been added. -/
structure Represents (k : KeyedClass) (c : Class) (additions : List Addition) : Prop where
  declared : k.declared = c
  ids : ∀ name, k.members[name]? = (c.member? name).map Member.id
  count : k.memberCount = c.names.length
  once : c.names.Nodup
  found : ∀ name member, c.member? name = some member ↔ member.In c name
  added : ∀ name, name ∈ c.names ↔ name ∈ additions.map Addition.name

variable {k : KeyedClass} {c : Class} {additions : List Addition}

theorem represents_empty (id : ClassId) (name : String) (path : ModulePath) (span : Span) :
    Represents (.empty id name path span) (.empty id name path span) [] where
  declared := rfl
  ids _ := Std.HashMap.getElem?_empty
  count := Std.HashMap.size_empty
  once := nodup_nil
  found name member := by cases member <;> simp [Member.In, Class.empty, Class.member?, Class.indexed?]
  added _ := Iff.rfl

namespace Represents

section Add

variable (h : k.Represents c additions)

include h

theorem class_add_eq (a : Addition) : c.add a =
    if a.name ∈ additions.map Addition.name then .error ⟨a.span, .duplicateMember a.name⟩
    else .ok (c.append a) := by
  simp only [Class.add_eq, ← Class.mem_names_iff, h.added]

theorem add_eq (a : Addition) : k.add a =
    if a.name ∈ additions.map Addition.name then (.error ⟨a.span, .duplicateMember a.name⟩, k)
    else (.ok (), ⟨c.append a, k.members.insert a.name (a.asMember c).id⟩) := by
  have hmem : a.name ∈ k.members ↔ a.name ∈ additions.map Addition.name := by
    rw [← h.added, Class.mem_names_iff, ← Std.HashMap.isSome_getElem?_iff_mem, h.ids,
      Option.isSome_map]
  rw [add, claim, h.declared]
  by_cases hname : a.name ∈ additions.map Addition.name
  · rw [if_pos hname, if_pos (hmem.2 hname)]
  · rw [if_neg hname, if_neg (mt hmem.1 hname)]

theorem member?_eq (name : String) : k.member? name = c.member? name := by
  rw [member?, h.ids, h.declared]
  cases hfound : c.member? name with
  | none => rfl
  | some member =>
    have hin := (h.found name member).1 hfound
    cases member with
    | slot index s | method index s =>
      rw [Option.map_some, Option.bind_some]
      change Option.map _ _ = _
      rw [hin.1, Option.map_some]

/-- **One addition** is refused and changes nothing if its name has been added before; otherwise its
member is in the table. -/
theorem step (a : Addition) :
    (k.add a).2.Represents ((c.add a).toOption.getD c) (additions ++ [a]) := by
  rw [h.add_eq, h.class_add_eq]
  by_cases hname : a.name ∈ additions.map Addition.name
  · rw [if_pos hname, if_pos hname]
    refine { h with added := fun name => (h.added name).trans ?_ }
    rw [map_append, mem_append]
    exact (or_iff_left_of_imp fun hmem => mem_singleton.1 hmem ▸ hname).symm
  · rw [if_neg hname, if_neg hname]
    have fresh : a.name ∉ c.names := mt (h.added _).1 hname
    have free : c.member? a.name = none := by
      rwa [Class.mem_names_iff, Option.not_isSome_iff_eq_none] at fresh
    refine ⟨rfl, fun name => ?_, ?_, ?_, fun name member => ?_, fun name => ?_⟩
    · dsimp only [Except.toOption, Option.getD_some]
      rw [Std.HashMap.getElem?_insert, Class.member?_append free, h.ids]
      by_cases heq : a.name = name <;> simp [heq]
    · have hmem : a.name ∉ k.members := by
        rw [← Std.HashMap.isSome_getElem?_iff_mem, h.ids, free]
        exact Bool.false_ne_true
      rw [Except.toOption, Option.getD_some, (c.names_append a).length_eq, length_cons, ← h.count]
      exact Std.HashMap.size_insert.trans (if_neg hmem)
    · exact (c.names_append a).nodup_iff.2 (nodup_cons.2 ⟨fresh, h.once⟩)
    · dsimp only [Except.toOption, Option.getD_some]
      rw [Class.member?_append free, Class.in_append, ← h.found]
      by_cases heq : a.name = name
      · subst heq
        simp [free]
      · simp [heq]
    · dsimp only [Except.toOption, Option.getD_some]
      rw [(c.names_append a).mem_iff, mem_cons, h.added, map_append, mem_append, or_comm]
      simp

end Add

theorem after (h : k.Represents c additions) (more : List Addition) :
    (k.after more).Represents (c.after more) (additions ++ more) := by
  induction more generalizing k c additions with
  | nil => rwa [append_nil]
  | cons a more ih =>
    rw [append_cons]
    exact ih (h.step a)

end Represents

end KeyedClass

/-- **The members of a class**, however they have been added. All names are different. A name leads to
the one member that has it, with its position, and to none if it was not added. A member is refused if
its name was added before, which leaves the class as it was. A class with a table has the same members,
and finds, counts and refuses them in the same way. -/
theorem members_of_additions (id : ClassId) (name : String) (path : ModulePath) (span : Span)
    (additions : List Addition) :
    let c := (Class.empty id name path span).after additions
    let k := (KeyedClass.empty id name path span).after additions
    c.names.Nodup ∧
    (∀ name member, c.member? name = some member ↔ member.In c name) ∧
    (∀ name, c.member? name = none ↔ name ∉ additions.map Addition.name) ∧
    (∀ a : Addition, c.add a =
      if a.name ∈ additions.map Addition.name then .error ⟨a.span, .duplicateMember a.name⟩
      else .ok (c.append a)) ∧
    k.declared = c ∧ (∀ name, k.member? name = c.member? name) ∧
    k.memberCount = c.memberCount ∧
    ∀ a : Addition, k.add a =
      if a.name ∈ additions.map Addition.name then (.error ⟨a.span, .duplicateMember a.name⟩, k)
      else (.ok (), ⟨c.append a, k.members.insert a.name (a.asMember c).id⟩) := by
  have h := (KeyedClass.represents_empty id name path span).after additions
  refine ⟨h.once, h.found, fun name => ?_, h.class_add_eq, h.declared, h.member?_eq, ?_, h.add_eq⟩
  · rw [← Option.not_isSome_iff_eq_none, ← Class.mem_names_iff, h.added]
    rfl
  · rw [h.count, Class.names, length_append, length_map, length_map, Class.memberCount]

end ClassLang.Typed
