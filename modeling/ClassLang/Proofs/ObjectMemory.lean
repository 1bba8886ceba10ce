import ClassLang.Machine.Memory
import ClassLang.Machine.Word
import Mathlib.Data.List.Basic

/-!
# Words in memory

Objects are placed behind all that is in use and never changed, so a word that lies in the memory
stays there (`Stored.grows`), and reading its cell gives the word back (`Stored.read?`).
-/

set_option autoImplicit false

namespace ClassLang.Machine

open List Word
open Number (littleEndian ofLittleEndian)

/-! ## Words and their cells -/

@[simp] theorem Word.length_cell (w : Word) : w.cell.length = 8 := by
  cases w <;> exact Number.length_littleEndian 8 _

theorem take_littleEndian (a b n : Nat) : (littleEndian (a + b) n).take a = littleEndian a n := by
  induction a generalizing n with
  | zero => rfl
  | succ a ih =>
    rw [Nat.succ_add, littleEndian, take_succ_cons, ih]
    rfl

/-- The bytes with which a word is loaded from its cell give the word back. -/
theorem Word.ofBytes_cell (w : Word) :
    ofBytes w.type (w.cell.take (size w.type)) = w := by
  cases w with
  | i32 value =>
    have hlt : value.toNat < Nat.pow 256 4 := value.toNat_lt
    simp only [type, size, cell, ofBytes]
    rw [take_littleEndian 4 4, Number.ofLittleEndian_littleEndian 4 _ hlt, UInt32.ofNat_toNat]
  | i64 value =>
    have hlt : value.toUInt64.toNat < Nat.pow 256 8 := value.toUInt64.toNat_lt
    simp only [type, size, cell, ofBytes]
    rw [take_littleEndian 8 0, Number.ofLittleEndian_littleEndian 8 _ hlt, UInt64.ofNat_toNat]
    rfl
  | f64 value =>
    have hlt : value.bits.toNat < Nat.pow 256 8 := value.bits.toNat_lt
    simp only [type, size, cell, ofBytes]
    rw [take_littleEndian 8 0, Number.ofLittleEndian_littleEndian 8 _ hlt, UInt64.ofNat_toNat]

theorem Word.size_le (ty : Code.ValType) : size ty ≤ 8 := by
  cases ty <;> decide

namespace Memory

/-! ## What memory keeps -/

/-- The bytes in use lie inside the pages, and have addresses. -/
structure Sound (m : Memory) : Prop where
  paged : m.bytes.size ≤ m.size
  addressed : m.bytes.size < addressEnd

theorem sound_initial : initial.Sound := ⟨by decide, by decide⟩

/-- A later state of a memory: what was in use is unchanged, and nothing is given back. -/
structure Later (m m' : Memory) : Prop where
  bytes : m.bytes.toList <+: m'.bytes.toList
  pages : m.pages ≤ m'.pages

theorem Later.refl (m : Memory) : m.Later m := ⟨prefix_refl _, Nat.le_refl _⟩

theorem Later.trans {m m' m'' : Memory} (first : m.Later m') (second : m'.Later m'') :
    m.Later m'' :=
  ⟨first.bytes.trans second.bytes, Nat.le_trans first.pages second.pages⟩

/-- A word lies in its cell at an address. -/
def Stored (m : Memory) (address : Nat) (w : Word) : Prop :=
  ∃ before behind, m.bytes.toList = before ++ w.cell ++ behind ∧ before.length = address

variable {m m' : Memory} {address : Nat} {w : Word}

theorem Stored.grows (h : m.Stored address w) (later : Later m m') : m'.Stored address w := by
  obtain ⟨before, behind, hbytes, haddress⟩ := h
  obtain ⟨more, hmore⟩ := later.bytes
  refine ⟨before, behind ++ more, ?_, haddress⟩
  rw [← hmore, hbytes, append_assoc]

theorem Stored.end_le (h : m.Stored address w) : address + 8 ≤ m.bytes.size := by
  obtain ⟨before, behind, hbytes, rfl⟩ := h
  rw [← Array.length_toList, hbytes]
  simp only [length_append, length_cell]
  omega

/-- Reading the front of a cell. -/
theorem Stored.read? (h : m.Stored address w) (sound : m.Sound) {count : Nat} (hcount : count ≤ 8) :
    m.read? address count = some (w.cell.take count) := by
  have hend := h.end_le
  have hsize := sound.paged
  rw [Memory.read?, if_pos (by omega)]
  obtain ⟨before, behind, hbytes, rfl⟩ := h
  congr 1
  -- byte by byte: both sides have the bytes of the cell up to the count, and none behind it
  refine ext_getElem? fun i => ?_
  by_cases hi : i < count
  · have hcell : i < w.cell.length := by
      rw [length_cell]
      omega
    have hbyte : m.bytes[before.length + i]? = some w.cell[i] := by
      rw [← Array.getElem?_toList, hbytes, append_assoc,
        getElem?_append_right (Nat.le_add_right _ _), Nat.add_sub_cancel_left,
        getElem?_append_left hcell, getElem?_eq_getElem hcell]
    rw [getElem?_map, getElem?_range hi, Option.map_some, getElem?_take_of_lt hi,
      getElem?_eq_getElem hcell, Array.getD_eq_getD_getElem?, hbyte, Option.getD_some]
  · rw [getElem?_eq_none (by simpa using hi), getElem?_eq_none]
    rw [length_take]
    omega

/-- The bytes of a loaded word. -/
theorem Stored.load (h : m.Stored address w) (sound : m.Sound) :
    ∃ bytes, m.read? address (Word.size w.type) = some bytes ∧ Word.ofBytes w.type bytes = w :=
  ⟨_, h.read? sound (size_le _), w.ofBytes_cell⟩

/-! ## Placing objects -/

theorem le_of_pagesFor? {pages stop pages' : Nat} (h : pagesFor? pages stop = some pages') :
    pages ≤ pages' ∧ stop ≤ pages' * pageSize := by
  unfold pagesFor? at h
  simp only at h
  split at h
  · next hstop =>
    cases h
    exact ⟨Nat.le_refl _, hstop⟩
  split at h
  · cases h
    refine ⟨Nat.le_add_right _ _, ?_⟩
    unfold pageSize at *
    omega
  · exact nomatch h

/-- The bytes of an object: its cells, at least one. -/
def padded (cells : List UInt8) : List UInt8 :=
  cells ++ replicate (Code.cellSize - cells.length) 0

/-- What placing an object does: it is put behind all that is in use, or the bytes stay as they
are. -/
theorem allocate_cases (m : Memory) (cells : List UInt8) :
    ∃ handle? m', m.allocate cells = (handle?, m') ∧ m.pages ≤ m'.pages ∧
      ((handle? = none ∧ m'.bytes = m.bytes) ∨
        (handle? = some (UInt32.ofNat m.bytes.size) ∧
          m'.bytes.toList = m.bytes.toList ++ padded cells ∧ m'.bytes.size ≤ m'.size ∧
          m'.bytes.size < addressEnd)) := by
  obtain ⟨bytes, pages⟩ := m
  unfold allocate
  simp only
  split
  · exact ⟨_, _, rfl, Nat.le_refl _, Or.inl ⟨rfl, rfl⟩⟩
  · next pages' hpages =>
    obtain ⟨hle, hfits⟩ := le_of_pagesFor? hpages
    split
    · next hstop =>
      have hlist : (bytes.appendList (padded cells)).toList = bytes.toList ++ padded cells := by
        simp
      have hsize : (bytes.appendList (padded cells)).size =
          bytes.size + (padded cells).length := by
        rw [← Array.length_toList, hlist, length_append, Array.length_toList]
      refine ⟨_, _, rfl, hle, Or.inr ⟨rfl, hlist, ?_, ?_⟩⟩
      · exact Nat.le_trans (Nat.le_of_eq hsize) hfits
      · exact Nat.lt_of_le_of_lt (Nat.le_of_eq hsize) hstop
    · exact ⟨_, _, rfl, hle, Or.inl ⟨rfl, rfl⟩⟩

theorem allocate_later (m : Memory) (cells : List UInt8) : Later m (m.allocate cells).2 := by
  obtain ⟨handle?, m', hm', hpages, ⟨-, hbytes⟩ | ⟨-, hbytes, -, -⟩⟩ := allocate_cases m cells
  · rw [hm']
    exact ⟨⟨[], by rw [hbytes, append_nil]⟩, hpages⟩
  · rw [hm']
    exact ⟨⟨padded cells, hbytes.symm⟩, hpages⟩

theorem allocate_sound (sound : m.Sound) (cells : List UInt8) : (m.allocate cells).2.Sound := by
  obtain ⟨handle?, m', hm', hpages, ⟨-, hbytes⟩ | ⟨-, -, hpaged, haddressed⟩⟩ :=
    allocate_cases m cells
  · have hsize : m.size ≤ m'.size := Nat.mul_le_mul_right _ hpages
    rw [hm']
    refine ⟨?_, ?_⟩
    · rw [hbytes]
      exact Nat.le_trans sound.paged hsize
    · rw [hbytes]
      exact sound.addressed
  · rw [hm']
    exact ⟨hpaged, haddressed⟩

/-- An object that was placed starts where the bytes in use ended. -/
theorem allocate_some (sound : m.Sound) {cells : List UInt8} {handle : UInt32}
    (h : m.allocate cells = (some handle, m')) :
    handle.toNat = m.bytes.size ∧ m'.bytes.toList = m.bytes.toList ++ padded cells := by
  obtain ⟨handle?, m'', hm'', -, ⟨rfl, -⟩ | ⟨rfl, hbytes, -, -⟩⟩ := allocate_cases m cells
  · exact nomatch (Prod.mk.inj (h.symm.trans hm'')).1
  · obtain ⟨hhandle, rfl⟩ := Prod.mk.inj (h.symm.trans hm'')
    cases hhandle
    exact ⟨UInt32.toNat_ofNat_of_lt' sound.addressed, hbytes⟩

/-- Without room for an object, the bytes in use stay as they are. -/
theorem allocate_none {cells : List UInt8} (h : m.allocate cells = (none, m')) :
    m'.bytes = m.bytes := by
  obtain ⟨handle?, m'', hm'', -, ⟨-, hbytes⟩ | ⟨rfl, -⟩⟩ := allocate_cases m cells
  · obtain ⟨-, rfl⟩ := Prod.mk.inj (h.symm.trans hm'')
    exact hbytes
  · exact nomatch (Prod.mk.inj (h.symm.trans hm'')).1

theorem cells_split {ws : List Word} {k : Nat} (h : ws[k]? = some w) :
    ∃ before behind, ws.flatMap cell = before ++ w.cell ++ behind ∧
      before.length = k * Code.cellSize := by
  induction ws generalizing k with
  | nil => exact nomatch h
  | cons first rest ih =>
    cases k with
    | zero =>
      cases h
      exact ⟨[], rest.flatMap cell, rfl, rfl⟩
    | succ k =>
      obtain ⟨before, behind, hrest, hlength⟩ := ih h
      refine ⟨first.cell ++ before, behind, ?_, ?_⟩
      · rw [flatMap_cons, hrest]
        simp only [append_assoc]
      · rw [length_append, length_cell, hlength, Nat.succ_mul]
        exact Nat.add_comm _ _

/-- The words of an object lie in its cells, one behind the other from its handle on. -/
theorem allocate_stored (sound : m.Sound) {ws : List Word} {handle : UInt32}
    (h : m.allocate (ws.flatMap cell) = (some handle, m')) {k : Nat} (hw : ws[k]? = some w) :
    m'.Stored (handle.toNat + k * Code.cellSize) w := by
  obtain ⟨haddress, hbytes⟩ := allocate_some sound h
  obtain ⟨before, behind, hcells, hlength⟩ := cells_split hw
  refine ⟨m.bytes.toList ++ before,
    behind ++ replicate (Code.cellSize - (ws.flatMap cell).length) 0, ?_, ?_⟩
  · rw [hbytes, padded, hcells]
    simp only [append_assoc]
  · rw [length_append, Array.length_toList, haddress, hlength]

end Memory

end ClassLang.Machine
