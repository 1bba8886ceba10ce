import ClassLang.Code.Binary
import Mathlib.Algebra.Group.Nat.Defs
import Mathlib.Data.List.Forall2

/-!
# A decoder of the binary form

`decodeModule` reads the five sections of a module and nothing else: it refuses bytes that are left
over, within a section as well as behind the last one. Integers come in groups of seven bits; those of
constants have to fit their width, and counts, sizes and indices are natural numbers. `Decodes p bytes
x` says that `p` reads `x` from exactly these bytes, whatever follows them. There is one lemma of this
form for each piece of the format; together they say that the bytes of an artifact are read as
`imageOf` (`decodeModule_bytes`).
-/

set_option autoImplicit false

namespace ClassLang.Code

open List Binary
open Binary (Bytes)

/-! ## Decoders -/

/-- A decoder takes what it reads from the front of the bytes. -/
abbrev Decoder (α : Type) := StateT Bytes Option α

namespace Decoder

def byte : Decoder UInt8
  | [] => none
  | b :: rest => some (b, rest)

/-- What is given, from no bytes at all. -/
def given {α : Type} (x? : Option α) : Decoder α := fun bytes => x?.map fun x => (x, bytes)

/-- What `p` reads, if it reads all of the bytes. -/
def exactly? {α : Type} (p : Decoder α) (bytes : Bytes) : Option α :=
  match p bytes with
  | some (x, []) => some x
  | _ => none

/-- The next byte has to be this one. -/
def tag (b : UInt8) : Decoder Unit := do
  guard ((← byte) = b)

/-- So many bytes. -/
def take (count : Nat) : Decoder Bytes := fun bytes =>
  if count ≤ bytes.length then some (bytes.take count, bytes.drop count) else none

/-- A natural number in groups of seven bits, the lowest first. -/
def unsigned : Decoder Nat
  | [] => none
  | b :: rest =>
    if b.toNat < 128 then some (b.toNat, rest)
    else (unsigned rest).map fun (n, rest) => (128 * n + (b.toNat - 128), rest)

/-- An integer of so many bits in groups of seven, of which the last holds the sign. -/
def signed : (bits : Nat) → Decoder Int
  | _, [] => none
  | bits, b :: rest =>
    if b.toNat < 64 then
      if b.toNat < 2 ^ (bits - 1) then some (b.toNat, rest) else none
    else if b.toNat < 128 then
      if 128 - b.toNat ≤ 2 ^ (bits - 1) then some (b.toNat - 128, rest) else none
    else if 7 < bits then
      (signed (bits - 7) rest).map fun (v, rest) => (128 * v + (b.toNat - 128), rest)
    else none

/-- What `p` reads, so many times. -/
def times {α : Type} (p : Decoder α) : Nat → Decoder (List α)
  | 0 => return []
  | count + 1 => do
    let first ← p
    return first :: (← times p count)

/-- A sequence behind its number. -/
def vector {α : Type} (p : Decoder α) : Decoder (List α) := do
  times p (← unsigned)

/-- What `p` reads from all of the next bytes, whose number stands before them. -/
def sized {α : Type} (p : Decoder α) : Decoder α := do
  given (exactly? p (← take (← unsigned)))

def name : Decoder String := do
  let bytes ← take (← unsigned)
  given (String.fromUTF8? ⟨bytes.toArray⟩)

def valTypeOf? (b : UInt8) : Option ValType :=
  if b = 0x7f then some .i32
  else if b = 0x7e then some .i64
  else if b = 0x7c then some .f64
  else none

def valType : Decoder ValType := do
  given (valTypeOf? (← byte))

/-- A value is loaded from an offset with the alignment of its type. -/
def load (ty : ValType) : Decoder Instr := do
  guard ((← unsigned) = ty.alignment)
  return .load ty (← unsigned)

/-- The instructions that are one byte. -/
def simpleInstr? (b : UInt8) : Option Instr :=
  if b = 0x0f then some .ret
  else if b = 0x0b then some .finish
  else if b = 0x1a then some .drop
  else if b = 0x6a then some .i32Add
  else if b = 0x7c then some .i64Add
  else if b = 0x7d then some .i64Sub
  else if b = 0x7e then some .i64Mul
  else if b = 0x7f then some .i64Div
  else if b = 0xa0 then some .f64Add
  else if b = 0xa1 then some .f64Sub
  else if b = 0xa2 then some .f64Mul
  else if b = 0xa3 then some .f64Div
  else if b = 0xb9 then some .f64OfI64
  else none

/-- The instruction that begins with this byte. -/
def instrFrom (b : UInt8) : Decoder Instr :=
  if b = 0x20 then return .localGet (← unsigned)
  else if b = 0x21 then return .localSet (← unsigned)
  else if b = 0x23 then return .globalGet (← unsigned)
  else if b = 0x10 then return .call (← unsigned)
  else if b = 0x41 then return .i32Const (Int32.ofInt (← signed 32)).toUInt32
  else if b = 0x42 then return .i64Const (Int64.ofInt (← signed 64))
  else if b = 0x44 then
    return .f64Const ⟨UInt64.ofNat (Number.ofLittleEndian (← take 8))⟩
  else if b = 0x28 then load .i32
  else if b = 0x29 then load .i64
  else if b = 0x2b then load .f64
  else if b = 0xfc then do
    guard ((← unsigned) = 6)
    return .i64OfF64
  else given (simpleInstr? b)

def instr : Decoder Instr := do
  instrFrom (← byte)

/-- Instructions up to the one that ends the code. -/
def codeFrom : (bound : Nat) → Decoder (List Instr)
  | 0 => failure
  | bound + 1 => do
    let first ← instr
    if first = .finish then return [first]
    else return first :: (← codeFrom bound)

/-- There are no more instructions than bytes. -/
def code : Decoder (List Instr) := fun bytes => codeFrom bytes.length bytes

/-- The result of a function, which has to be one. -/
def single? : List ValType → Option ValType
  | [result] => some result
  | _ => none

def funcType : Decoder FuncType := do
  tag 0x60
  let params ← vector valType
  return ⟨params, ← given (single? (← vector valType))⟩

end Decoder

/-! ## Modules -/

/-- What an import is. A function gives the number of its type. -/
inductive ImportKind where
  | function (type : Nat)
  | memory (atLeast : Nat)
  | global (ty : ValType) (mutable : Bool)
deriving DecidableEq

structure ImportEntry where
  moduleName : String
  name : String
  kind : ImportKind
deriving DecidableEq

/-- An exported function. -/
structure ExportEntry where
  name : String
  function : Nat
deriving DecidableEq

structure BodyEntry where
  locals : List ValType
  code : List Instr
deriving DecidableEq

/-- The sections of a module. Functions are given by the numbers of their types. -/
structure Image where
  types : List FuncType
  imports : List ImportEntry
  functions : List Nat
  exports : List ExportEntry
  bodies : List BodyEntry
deriving DecidableEq

namespace Decoder

/-- The kind of an import that begins with this byte. A memory has no upper limit. -/
def importKindFrom (b : UInt8) : Decoder ImportKind :=
  if b = 0x00 then return .function (← unsigned)
  else if b = 0x02 then do
    tag 0x00
    return .memory (← unsigned)
  else if b = 0x03 then do
    let ty ← valType
    let b ← byte
    guard (b = 0 ∨ b = 1)
    return .global ty (b = 1)
  else failure

def importEntry : Decoder ImportEntry := do
  let moduleName ← name
  let importName ← name
  return ⟨moduleName, importName, ← importKindFrom (← byte)⟩

def exportEntry : Decoder ExportEntry := do
  let exportName ← name
  tag 0x00
  return ⟨exportName, ← unsigned⟩

/-- Locals of one type behind their number. -/
def localGroup : Decoder (List ValType) := do
  let count ← unsigned
  return replicate count (← valType)

def bodyEntry : Decoder BodyEntry := sized do
  let groups ← vector localGroup
  return ⟨groups.flatten, ← code⟩

def sectionOf {α : Type} (id : UInt8) (p : Decoder α) : Decoder (List α) := do
  tag id
  sized (vector p)

def image : Decoder Image := do
  guard ((← take 8) = header)
  let types ← sectionOf 1 funcType
  let imports ← sectionOf 2 importEntry
  let functions ← sectionOf 3 unsigned
  let exports ← sectionOf 7 exportEntry
  let bodies ← sectionOf 10 bodyEntry
  return ⟨types, imports, functions, exports, bodies⟩

end Decoder

/-- The module that all of the bytes are. -/
def decodeModule (bytes : Bytes) : Option Image := Decoder.exactly? Decoder.image bytes

/-! ## What is read from which bytes -/

/-- The decoder reads `x` from exactly these bytes, whatever follows them. -/
structure Decodes {α : Type} (p : Decoder α) (bytes : Bytes) (x : α) : Prop where
  run : ∀ rest, p (bytes ++ rest) = some (x, rest)

namespace Decodes

variable {α β : Type} {p : Decoder α} {bytes others : Bytes} {x : α} {bound : Nat} {xs : List α}
  {instrs : List Instr}

theorem pure : Decodes (Pure.pure x : Decoder α) [] x := ⟨fun _ => rfl⟩

theorem bind {f : α → Decoder β} {y : β} (first : Decodes p bytes x) (behind : Decodes (f x) others y) :
    Decodes (p >>= f) (bytes ++ others) y := by
  constructor
  intro rest
  change (p (bytes ++ others ++ rest)).bind (fun read => f read.1 read.2) = some (y, rest)
  rw [append_assoc, first.run, Option.bind_some, behind.run]

/-- What comes behind reads no more bytes. -/
theorem last {f : α → Decoder β} {y : β} (first : Decodes p bytes x) (behind : Decodes (f x) [] y) :
    Decodes (p >>= f) bytes y := by
  have h : Decodes (p >>= f) (bytes ++ []) y := first.bind behind
  rwa [append_nil] at h

theorem map (f : α → β) (h : Decodes p bytes x) :
    Decodes (p >>= fun x => Pure.pure (f x)) bytes (f x) := h.last .pure

theorem given {x? : Option α} (h : x? = some x) : Decodes (Decoder.given x?) [] x := by
  subst h
  exact ⟨fun _ => rfl⟩

theorem exactly?_eq (h : Decodes p bytes x) : Decoder.exactly? p bytes = some x := by
  have hall := h.run []
  rw [append_nil] at hall
  rw [Decoder.exactly?, hall]

theorem guarded {c : Prop} [Decidable c] (h : c) : Decodes (guard c : Decoder Unit) [] () := by
  rw [guard, if_pos h]
  exact .pure

theorem byte (b : UInt8) : Decodes Decoder.byte [b] b := ⟨fun _ => rfl⟩

theorem tag (b : UInt8) : Decodes (Decoder.tag b) [b] () := (byte b).bind (guarded rfl)

theorem take (bytes : Bytes) : Decodes (Decoder.take bytes.length) bytes bytes := by
  constructor
  intro rest
  rw [Decoder.take, if_pos (by simp), take_left, drop_left]

/-! ### Numbers -/

theorem unsignedFrom {n : Nat} (h : n ≤ bound) :
    Decodes Decoder.unsigned (unsignedFrom bound n) n := by
  induction bound generalizing n with
  | zero =>
    obtain rfl : n = 0 := by omega
    exact ⟨fun _ => rfl⟩
  | succ bound ih =>
    constructor
    intro rest
    rw [Binary.unsignedFrom]
    split
    · next hlast =>
      have hb : (UInt8.ofNat n).toNat = n := by
        rw [UInt8.toNat_ofNat']
        omega
      rw [cons_append, nil_append, Decoder.unsigned, hb, if_pos hlast]
    have hb : (UInt8.ofNat (n % 128 + 128)).toNat = n % 128 + 128 := by
      rw [UInt8.toNat_ofNat']
      omega
    have hn : 128 * (n / 128) + (n % 128 + 128 - 128) = n := by omega
    rw [cons_append, Decoder.unsigned, hb, if_neg (by omega), (ih (by omega)).run]
    exact congrArg (fun n => some (n, rest)) hn

theorem unsigned (n : Nat) : Decodes Decoder.unsigned (unsigned n) n :=
  unsignedFrom (Nat.le_refl n)

/-- An integer that fits the width is read with its sign. The groups that follow the first fit the
width without its seven bits. -/
theorem signedFrom {bits : Nat} {v : Int} (h : v.natAbs ≤ bound) (hbits : bits ≠ 0)
    (hlow : -(2 ^ (bits - 1) : Nat) ≤ v) (hhigh : v < (2 ^ (bits - 1) : Nat)) :
    Decodes (Decoder.signed bits) (signedFrom bound v) v := by
  induction bound generalizing v bits with
  | zero =>
    obtain rfl : v = 0 := by omega
    constructor
    intro rest
    have hpos : 0 < 2 ^ (bits - 1) := Nat.two_pow_pos _
    simp [Binary.signedFrom, Decoder.signed, hpos]
  | succ bound ih =>
    constructor
    intro rest
    obtain ⟨low, hlowEq⟩ : ∃ low : Nat, (v % 128).toNat = low := ⟨_, rfl⟩
    have hv : v = 128 * (v / 128) + low := by omega
    have hlt : low < 128 := by omega
    rw [Binary.signedFrom]
    simp only [hlowEq]
    split
    · next hlast =>
      have hb : (UInt8.ofNat low).toNat = low := by
        rw [UInt8.toNat_ofNat']
        omega
      rw [cons_append, nil_append, Decoder.signed, hb]
      rcases hlast with ⟨hzero, hsmall⟩ | ⟨hminus, hlarge⟩
      · have heq : (low : Int) = v := by omega
        rw [if_pos hsmall, if_pos (by omega), heq]
      · have heq : (low : Int) - 128 = v := by omega
        rw [if_neg (by omega), if_pos hlt, if_pos (by omega), heq]
    · next hmore =>
      have hb : (UInt8.ofNat (low + 128)).toNat = low + 128 := by
        rw [UInt8.toNat_ofNat']
        omega
      have hwide : 7 < bits := by
        by_contra hnarrow
        have hsix : 2 ^ (bits - 1) ≤ 2 ^ 6 := Nat.pow_le_pow_right (by decide) (by omega)
        omega
      have hpow : 2 ^ (bits - 1) = 128 * 2 ^ (bits - 7 - 1) := by
        rw [← Nat.pow_add 2 7, show 7 + (bits - 7 - 1) = bits - 1 by omega]
      have hothers : Decodes (Decoder.signed (bits - 7)) (Binary.signedFrom bound (v / 128))
          (v / 128) := ih (by omega) (by omega) (by omega) (by omega)
      have heq : 128 * (v / 128) + (((low + 128 : Nat) : Int) - 128) = v := by omega
      rw [cons_append, Decoder.signed, hb, if_neg (by omega), if_neg (by omega),
        if_pos hwide, hothers.run]
      exact congrArg (fun v => some (v, rest)) heq

theorem signed {bits : Nat} {v : Int} (hbits : bits ≠ 0) (hlow : -(2 ^ (bits - 1) : Nat) ≤ v)
    (hhigh : v < (2 ^ (bits - 1) : Nat)) : Decodes (Decoder.signed bits) (signed v) v :=
  signedFrom (Nat.le_refl _) hbits hlow hhigh

theorem word64 (value : UInt64) :
    Decodes (Decoder.take 8) (Binary.word64 value) (Binary.word64 value) := by
  have htake := take (Binary.word64 value)
  rwa [show (Binary.word64 value).length = 8 from Number.length_littleEndian 8 _] at htake

theorem ofLittleEndian_word64 (value : UInt64) :
    UInt64.ofNat (Number.ofLittleEndian (Binary.word64 value)) = value := by
  rw [Binary.word64, Number.ofLittleEndian_littleEndian 8 value.toNat value.toNat_lt,
    UInt64.ofNat_toNat]

/-! ### Sequences -/

theorem times {entries : List Bytes} (h : Forall₂ (Decodes p) entries xs) :
    Decodes (Decoder.times p xs.length) entries.flatten xs := by
  induction h with
  | nil => exact .pure
  | cons first _ ih => exact first.bind (ih.map _)

theorem vector {entries : List Bytes} (h : Forall₂ (Decodes p) entries xs) :
    Decodes (Decoder.vector p) (vector entries) xs := by
  rw [Binary.vector, h.length_eq]
  exact (unsigned xs.length).bind (times h)

/-- Entries that are written and read one by one. -/
theorem entries {items : List β} {write : β → Bytes} {read : β → α}
    (h : ∀ item ∈ items, Decodes p (write item) (read item)) :
    Forall₂ (Decodes p) (items.map write) (items.map read) := by
  rw [forall₂_map_left_iff, forall₂_map_right_iff, forall₂_same]
  exact h

theorem sized (h : Decodes p bytes x) : Decodes (Decoder.sized p) (sized bytes) x := by
  apply bind (unsigned bytes.length)
  apply last (take bytes)
  exact given h.exactly?_eq

theorem name (text : String) : Decodes Decoder.name (name text) text := by
  have hvalid : text.toUTF8.IsValidUTF8 := text.isValidUTF8
  have hutf8 : String.fromUTF8? text.toUTF8 = some text := by
    rw [String.fromUTF8?, dif_pos hvalid]
    rfl
  apply bind (unsigned _)
  apply last (take _)
  exact given hutf8

/-! ### Types and instructions -/

theorem valType (ty : ValType) : Decodes Decoder.valType [Binary.valType ty] ty := by
  apply last (byte _)
  cases ty <;> exact given rfl

theorem funcType (type : FuncType) : Decodes Decoder.funcType (funcType type) type := by
  have hparams : Decodes (Decoder.vector Decoder.valType)
      (Binary.vector (type.params.map fun p => [Binary.valType p])) (type.params.map id) :=
    vector (entries fun p _ => valType p)
  rw [map_id] at hparams
  have hresult : Decodes (Decoder.vector Decoder.valType) (Binary.vector [[Binary.valType type.result]])
      [type.result] := vector (.cons (valType _) .nil)
  apply bind (tag 0x60)
  apply bind hparams
  apply last hresult
  exact (given rfl).map fun result => FuncType.mk type.params result

theorem load (ty : ValType) (offset : Nat) :
    Decodes (Decoder.load ty) (Binary.unsigned ty.alignment ++ Binary.unsigned offset)
      (.load ty offset) := by
  apply bind (unsigned ty.alignment)
  exact (guarded rfl).bind ((unsigned offset).map _)

theorem instr (i : Instr) : Decodes Decoder.instr (instr i) i := by
  cases i with
  | localGet index => exact (byte 0x20).bind ((unsigned index).map Instr.localGet)
  | localSet index => exact (byte 0x21).bind ((unsigned index).map Instr.localSet)
  | globalGet index => exact (byte 0x23).bind ((unsigned index).map Instr.globalGet)
  | call index => exact (byte 0x10).bind ((unsigned index).map Instr.call)
  | i32Const value =>
    have hint : Decodes (Decoder.signed 32) (Binary.signed value.toInt32.toInt) value.toInt32.toInt :=
      signed (by decide) value.toInt32.le_toInt value.toInt32.toInt_lt
    have hconst := hint.map fun v => Instr.i32Const (Int32.ofInt v).toUInt32
    rw [Int32.ofInt_toInt, UInt32.toUInt32_toInt32] at hconst
    exact (byte 0x41).bind hconst
  | i64Const value =>
    have hint : Decodes (Decoder.signed 64) (Binary.signed value.toInt) value.toInt :=
      signed (by decide) value.le_toInt value.toInt_lt
    have hconst := hint.map fun v => Instr.i64Const (Int64.ofInt v)
    rw [Int64.ofInt_toInt] at hconst
    exact (byte 0x42).bind hconst
  | f64Const value =>
    have hconst := (word64 value.bits).map fun bytes =>
      Instr.f64Const ⟨UInt64.ofNat (Number.ofLittleEndian bytes)⟩
    rw [ofLittleEndian_word64] at hconst
    exact (byte 0x44).bind hconst
  | load ty offset =>
    cases ty <;> exact (byte _).bind (load _ offset)
  | i64OfF64 =>
    have hsix : Decodes Decoder.unsigned [0x06] 6 := unsigned 6
    apply bind (byte 0xfc)
    exact hsix.last ((guarded rfl).last .pure)
  | _ => exact (byte _).last (given rfl)

/-- Every instruction takes a byte. -/
theorem length_le_instrs (instrs : List Instr) :
    instrs.length ≤ (instrs.flatMap Binary.instr).length := by
  induction instrs with
  | nil => exact Nat.zero_le _
  | cons i instrs ih =>
    have hne : Binary.instr i ≠ [] := by
      cases i <;> exact cons_ne_nil _ _
    have hlength : 0 < (Binary.instr i).length := length_pos_iff.2 hne
    rw [flatMap_cons, length_append, length_cons]
    omega

/-- Code is read up to its end, if the instruction that ends it stands only there. -/
theorem codeFrom (hbound : instrs.length < bound) (hends : ∀ i ∈ instrs, i ≠ .finish) :
    Decodes (Decoder.codeFrom bound) ((instrs ++ [Instr.finish]).flatMap Binary.instr)
      (instrs ++ [.finish]) := by
  induction instrs generalizing bound with
  | nil =>
    cases bound with
    | zero => cases hbound
    | succ bound =>
      apply last (instr .finish)
      exact .pure
  | cons first others ih =>
    cases bound with
    | zero => cases hbound
    | succ bound =>
      obtain ⟨hfirst, hothers⟩ := forall_mem_cons.1 hends
      rw [cons_append, flatMap_cons]
      apply bind (instr first)
      rw [if_neg hfirst]
      exact (ih (Nat.lt_of_succ_lt_succ hbound) hothers).map _

theorem code (hends : ∀ i ∈ instrs, i ≠ .finish) :
    Decodes Decoder.code ((instrs ++ [Instr.finish]).flatMap Binary.instr)
      (instrs ++ [.finish]) := by
  constructor
  intro rest
  refine (codeFrom ?_ hends).run rest
  have hlength := length_le_instrs (instrs ++ [.finish])
  rw [length_append, length_singleton] at hlength
  rw [length_append]
  omega

/-! ### Entries and sections -/

theorem importEntry {moduleName importName : String} {b : UInt8} {kind : ImportKind}
    (h : Decodes (Decoder.importKindFrom b) bytes kind) :
    Decodes Decoder.importEntry (Binary.name moduleName ++ Binary.name importName ++ b :: bytes)
      ⟨moduleName, importName, kind⟩ := by
  rw [append_assoc]
  apply bind (name moduleName)
  apply bind (name importName)
  apply bind (byte b)
  exact h.map (ImportEntry.mk moduleName importName)

theorem memoryImport :
    Decodes Decoder.importEntry Binary.memoryImport ⟨Binary.hostModule, Binary.memoryName, .memory 1⟩ := by
  have hone : Decodes Decoder.unsigned [0x01] 1 := unsigned 1
  exact importEntry ((tag 0x00).bind (hone.map ImportKind.memory))

theorem textsImport (moduleName : String) :
    Decodes Decoder.importEntry (textsImport moduleName)
      ⟨moduleName, Binary.textsName, .global .i32 false⟩ :=
  importEntry ((valType .i32).bind ((byte 0x00).last ((guarded (.inl rfl)).last .pure)))

theorem functionImport (moduleName functionName : String) (type : Nat) :
    Decodes Decoder.importEntry (Binary.functionImport moduleName functionName type)
      ⟨moduleName, functionName, .function type⟩ :=
  importEntry ((unsigned type).map ImportKind.function)

theorem exportEntry (exportName : String) (function : Nat) :
    Decodes Decoder.exportEntry (Binary.name exportName ++ 0x00 :: Binary.unsigned function)
      ⟨exportName, function⟩ := by
  apply bind (name exportName)
  apply bind (tag 0x00)
  exact (unsigned function).map (ExportEntry.mk exportName)

theorem body {m : MethodCode} (hcode : m.code = instrs ++ [.finish])
    (hends : ∀ i ∈ instrs, i ≠ .finish) :
    Decodes Decoder.bodyEntry (body m) ⟨m.locals, m.code⟩ := by
  have hgroup : ∀ ty ∈ m.locals, Decodes Decoder.localGroup [0x01, Binary.valType ty] [ty] := by
    intro ty _
    have hone : Decodes Decoder.unsigned [0x01] 1 := unsigned 1
    exact hone.bind ((valType ty).map fun ty => replicate 1 ty)
  have hlocals : (m.locals.map fun ty => [ty]).flatten = m.locals := by
    rw [← flatMap_def, flatMap_singleton']
  apply sized
  apply bind (vector (entries hgroup))
  rw [hlocals, hcode]
  exact (code hends).map _

theorem sectionOf (id : UInt8) {entries : List Bytes} (h : Forall₂ (Decodes p) entries xs) :
    Decodes (Decoder.sectionOf id p) (sectionBytes id entries) xs :=
  (tag id).bind (sized (vector h))

end Decodes

/-! ## The bytes of an artifact -/

/-- The sections of an artifact. Every function has a type of its own, under its own number. -/
def imageOf (a : Artifact) : Image where
  types := a.functionTypes
  imports :=
    [⟨hostModule, memoryName, .memory 1⟩,
      ⟨a.moduleName, textsName, .global .i32 false⟩] ++
    (a.hostImports.map (fun b => (hostModule, b.fullName)) ++
      a.foreignImports.map (fun f => (f.moduleName, f.name))).zipIdx.map fun entry =>
        ⟨entry.1.1, entry.1.2, .function entry.2⟩
  functions := (range a.methods.length).map (a.ownBase + ·)
  exports := a.methods.zipIdx.map fun entry => ⟨entry.1.name, a.ownBase + entry.2⟩
  bodies := a.methods.map fun m => ⟨m.locals, m.code⟩

/-- The bytes of an artifact, whose code ends where it says, are read as its sections. -/
theorem decodeModule_bytes (a : Artifact) (hends : ∀ m ∈ a.methods, ∃ instrs,
    m.code = instrs ++ [.finish] ∧ ∀ i ∈ instrs, i ≠ .finish) :
    decodeModule a.bytes = some (imageOf a) := by
  have htypes : Forall₂ (Decodes Decoder.funcType) (a.functionTypes.map funcType)
      (a.functionTypes.map id) := Decodes.entries fun type _ => .funcType type
  rw [map_id] at htypes
  have himports : Forall₂ (Decodes Decoder.importEntry) (imports a) (imageOf a).imports :=
    .cons .memoryImport (.cons (.textsImport _) (Decodes.entries fun entry _ =>
      .functionImport entry.1.1 entry.1.2 entry.2))
  have hfunctions : Forall₂ (Decodes Decoder.unsigned)
      ((range a.methods.length).map fun i => unsigned (a.ownBase + i))
      (imageOf a).functions := Decodes.entries fun i _ => .unsigned (a.ownBase + i)
  have hexports : Forall₂ (Decodes Decoder.exportEntry) (Binary.exports a) (imageOf a).exports :=
    Decodes.entries fun entry _ => .exportEntry entry.1.name (a.ownBase + entry.2)
  have hbodies : Forall₂ (Decodes Decoder.bodyEntry) (a.methods.map body)
      (imageOf a).bodies := by
    refine Decodes.entries fun m hm => ?_
    obtain ⟨instrs, hcode, hfinish⟩ := hends m hm
    exact .body hcode hfinish
  have hheader : Decodes (Decoder.take 8) header header := .take header
  apply Decodes.exactly?_eq
  simp only [Artifact.bytes, append_assoc]
  apply hheader.bind
  apply (Decodes.guarded rfl).bind
  apply (Decodes.sectionOf 1 htypes).bind
  apply (Decodes.sectionOf 2 himports).bind
  apply (Decodes.sectionOf 3 hfunctions).bind
  apply (Decodes.sectionOf 7 hexports).bind
  exact (Decodes.sectionOf 10 hbodies).map _

end ClassLang.Code
