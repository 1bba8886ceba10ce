import ClassLang.Code.Instr

/-!
# Object memory

The memory that all classes of a session share. Objects are placed one behind the other and never
moved or freed, so the memory is a growing sequence of bytes, followed by zeros up to the end of its
last page. No object starts at address zero.
-/

set_option autoImplicit false

namespace ClassLang.Machine

/-- The bytes in use from address zero on, and the number of pages. -/
structure Memory where
  bytes : Array UInt8
  pages : Nat
deriving DecidableEq, Inhabited

namespace Memory

def pageSize : Nat := 65536

/-- Addresses have 32 bits, so there are no more pages. -/
def maxPages : Nat := 65536

/-- Addresses are below this. -/
def addressEnd : Nat := maxPages * pageSize

/-- The memory of a new session: one page, of which the first cell is left out. -/
def initial : Memory := ⟨Array.replicate Code.cellSize 0, 1⟩

/-- The number of bytes that can be read. -/
def size (m : Memory) : Nat := m.pages * pageSize

/-- The bytes at an address, where they all lie inside the memory. -/
def read? (m : Memory) (address count : Nat) : Option (List UInt8) :=
  if address + count ≤ m.size then
    some ((List.range count).map fun i => m.bytes.getD (address + i) 0)
  else none

/-- The number of pages with which bytes up to `stop` can be read, where there are so many. -/
def pagesFor? (pages stop : Nat) : Option Nat :=
  let needed := pages + (stop - pages * pageSize + pageSize - 1) / pageSize
  if stop ≤ pages * pageSize then some pages
  else if needed ≤ maxPages then some needed
  else none

/-- Places an object with these cells, which takes at least one cell, and gives its handle. Without
room for it nothing is placed. -/
def allocate (m : Memory) (cells : List UInt8) : Option UInt32 × Memory :=
  match m with
  | ⟨bytes, pages⟩ =>
    let padded : List UInt8 := cells ++ List.replicate (Code.cellSize - cells.length) 0
    let stop := bytes.size + padded.length
    match pagesFor? pages stop with
    | none => (none, ⟨bytes, pages⟩)
    | some pages =>
      if stop < addressEnd then (some (UInt32.ofNat bytes.size), ⟨bytes.appendList padded, pages⟩)
      else (none, ⟨bytes, pages⟩)

end Memory

end ClassLang.Machine
