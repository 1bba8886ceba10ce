import ClassLang.Proofs.BinaryDecoder
import ClassLang.Proofs.CodeValidity

/-!
# What the bytes of a class say

The bytes that are generated for a checked class are decoded without looking at how they were made.
What comes out is the class: its imports with their types, one function and one export for each
method, and the locals and instructions of each. The main statement is `decodeModule_generateClass`.
-/

set_option autoImplicit false

namespace ClassLang.Code

open List ImportPlan
open Typed (ClassTable Method MethodRef)

/-! ## Modules with their types -/

/-- What a module needs from elsewhere. -/
inductive Need where
  | memory (atLeast : Nat)
  | global (ty : ValType) (mutable : Bool)
  | function (type : FuncType)
deriving DecidableEq

/-- The number of the type of an imported function. -/
def ImportKind.functionType? : ImportKind → Option Nat
  | .function type => some type
  | _ => none

namespace Image

/-- An import with its type; none where the module has no such type. -/
def need? (image : Image) (entry : ImportEntry) : Option (String × String × Need) :=
  match entry.kind with
  | .memory atLeast => some (entry.moduleName, entry.name, .memory atLeast)
  | .global ty mutable => some (entry.moduleName, entry.name, .global ty mutable)
  | .function type =>
    image.types[type]?.map fun type => (entry.moduleName, entry.name, .function type)

/-- The types of all functions of a module, by their number: those that it imports come first. -/
def functionTypes (image : Image) : List (Option FuncType) :=
  image.imports.filterMap (fun entry => entry.kind.functionType?.map fun type => image.types[type]?) ++
    image.functions.map (image.types[·]?)

end Image

/-- A method of another class as something that is needed; none where the table has no such method. -/
def foreignNeed? (table : ClassTable) (ref : MethodRef) : Option (String × String × Need) := do
  let owner ← table.get? ref.owner
  let m ← owner.methods[ref.index]?
  return (owner.path.text, m.name, .function (methodType m))

/-- The module is the class, with the code of the artifact. -/
structure Describes (table : ClassTable) (c : Typed.Class) (a : Artifact) (image : Image) : Prop where
  /-- The memory, the place of the texts, the functions of the host and the methods of other
  classes, in this order and with their types. -/
  needs : image.imports.map image.need? =
    some (Binary.hostModule, Binary.memoryName, .memory 1) ::
    some (c.path.text, Binary.textsName, .global .i32 false) ::
    ((ofClass c).host.map (fun b =>
        some (Binary.hostModule, b.fullName, .function (builtinType b))) ++
      (ofClass c).foreign.map (foreignNeed? table))
  hostOnce : (ofClass c).host.Nodup
  foreignOnce : ((ofClass c).foreign.map fun ref => (ref.owner, ref.index)).Nodup
  /-- All of them are there. -/
  present : none ∉ image.imports.map image.need?
  functions : image.functions.map (image.types[·]?) = c.methods.map fun m => some (methodType m)
  exports : image.exports =
    c.methods.zipIdx.map fun entry => ⟨entry.1.name, (ofClass c).ownBase + entry.2⟩
  /-- The number under which a method is exported is that of its function. -/
  numbered : ∀ (i : Nat) (m : Method), c.methods[i]? = some m →
    image.functionTypes[(ofClass c).ownBase + i]? = some (some (methodType m))
  methodNames : a.methods.map MethodCode.name = c.methods.map Method.name
  bodies : image.bodies = a.methods.map fun m => ⟨m.locals, m.code⟩

/-! ## Functions by their number -/

section Lists

variable {α β γ : Type}

/-- Each item with the type of the same number. -/
theorem map_zipIdx_types (items : List α) (types others : List β) (f : α → β → γ)
    (h : items.length = types.length) :
    items.zipIdx.map (fun entry => (types ++ others)[entry.2]?.map (f entry.1)) =
      zipWith (fun item type => some (f item type)) items types := by
  apply ext_getElem?
  intro i
  rw [getElem?_map, getElem?_zipIdx, getElem?_zipWith']
  by_cases hi : i < items.length
  · have hi' : i < types.length := h ▸ hi
    simp [hi, hi', getElem?_append_left]
  · simp [hi]

/-- The types behind the first ones, by number. -/
theorem map_range_types (first types : List β) :
    (range types.length).map (fun i => (first ++ types)[first.length + i]?) = types.map some := by
  apply ext_getElem?
  intro i
  by_cases hi : i < types.length
  · simp [hi, getElem?_append_right]
  · simp [hi]

end Lists

variable {table : ClassTable} {c : Typed.Class} {source : String} {a : Artifact}

/-- A method of another class that the code needs is in the table. -/
theorem foreignNeed?_of_mem (typed : Typed.ClassTyped table c.id c) {ref : MethodRef}
    (h : ref ∈ (ofClass c).foreign) :
    foreignNeed? table ref = some ((foreignImport table ref).moduleName, (foreignImport table ref).name,
      .function (foreignImport table ref).type) := by
  obtain ⟨owner, signature, leads⟩ := calls_of_mem_called typed (mem_plan_foreign.1 h).1
  cases leads with
  | method hd hfound hname =>
    simp [foreignNeed?, foreignImport, foreignImport?, hd, hfound, methodType]

/-- No method is imported twice: what is called by the same number has the same name. -/
theorem nodup_foreign (typed : Typed.ClassTyped table c.id c) :
    ((ofClass c).foreign.map fun ref => (ref.owner, ref.index)).Nodup := by
  refine Nodup.map_on ?_ (nodup_firsts _)
  rintro ⟨owner, index, name⟩ href ⟨owner', index', name'⟩ href' heq
  cases heq
  obtain ⟨_, _, leads⟩ := calls_of_mem_called typed (mem_plan_foreign.1 href).1
  obtain ⟨_, _, leads'⟩ := calls_of_mem_called typed (mem_plan_foreign.1 href').1
  cases leads with
  | method hd hfound hname =>
    cases leads' with
    | method hd' hfound' hname' =>
      cases hd.symm.trans hd'
      cases hfound.symm.trans hfound'
      rw [← show _ = name from hname, ← show _ = name' from hname']

section Generated

variable (ha : generateClass table c source = .ok a)

include ha

theorem ownBase_eq : a.ownBase = (ofClass c).ownBase := by
  rw [(generateClass_eq_ok ha).2]
  simp [Artifact.ownBase, ownBase]

/-- The types of the own functions stand behind those of the imports. -/
theorem functionTypes_append : ∃ first : List FuncType, first.length = a.ownBase ∧
    a.functionTypes = first ++ c.methods.map methodType := by
  refine ⟨a.hostImports.map builtinType ++ a.foreignImports.map ForeignImport.type, ?_, ?_⟩
  · simp [Artifact.ownBase]
  · rw [Artifact.functionTypes, methodTypes_eq ha]

theorem functions_imageOf :
    (imageOf a).functions.map ((imageOf a).types[·]?) = c.methods.map fun m => some (methodType m) := by
  obtain ⟨first, hlength, htypes⟩ := functionTypes_append ha
  have hcount : a.methods.length = (c.methods.map methodType).length := by
    rw [← methodTypes_eq ha, length_map]
  simp only [imageOf, map_map, hcount, htypes, ← hlength]
  have hall := map_range_types first (c.methods.map methodType)
  rw [map_map] at hall
  exact hall

theorem numbered_imageOf {i : Nat} {m : Method} (hm : c.methods[i]? = some m) :
    (imageOf a).functionTypes[(ofClass c).ownBase + i]? = some (some (methodType m)) := by
  have hlength : ((imageOf a).imports.filterMap fun entry =>
      entry.kind.functionType?.map fun type => (imageOf a).types[type]?).length = a.ownBase := by
    simp [imageOf, ImportKind.functionType?, Artifact.ownBase, filterMap_map]
  rw [← ownBase_eq ha, Image.functionTypes, getElem?_append_right (by omega), hlength,
    Nat.add_sub_cancel_left, functions_imageOf ha, getElem?_map, hm, Option.map_some]

variable (typed : Typed.ClassTyped table c.id c)

include typed

theorem needs_imageOf : (imageOf a).imports.map (imageOf a).need? =
    some (Binary.hostModule, Binary.memoryName, .memory 1) ::
    some (c.path.text, Binary.textsName, .global .i32 false) ::
    ((ofClass c).host.map (fun b =>
        some (Binary.hostModule, b.fullName, .function (builtinType b))) ++
      (ofClass c).foreign.map (foreignNeed? table)) := by
  have hforeign : (ofClass c).foreign.map (foreignNeed? table) =
      a.foreignImports.map fun f => some (f.moduleName, f.name, .function f.type) := by
    rw [(generateClass_eq_ok ha).2, map_map]
    exact map_congr_left fun ref href => foreignNeed?_of_mem typed href
  have hhost : (ofClass c).host = a.hostImports := by rw [(generateClass_eq_ok ha).2]
  have hmodule : c.path.text = a.moduleName := by rw [(generateClass_eq_ok ha).2]
  rw [hforeign, hhost, hmodule]
  have htypes := map_zipIdx_types
    (a.hostImports.map (fun b => (Binary.hostModule, b.fullName)) ++
      a.foreignImports.map fun f => (f.moduleName, f.name))
    (a.hostImports.map builtinType ++ a.foreignImports.map ForeignImport.type)
    (a.methods.map MethodCode.type)
    (fun names type => (names.1, names.2, Need.function type)) (by simp)
  rw [zipWith_append (by simp), zipWith_map, zipWith_map, zipWith_self,
    zipWith_self] at htypes
  rw [← htypes]
  simp [imageOf, Image.need?, Artifact.functionTypes, Function.comp_def]

theorem present_imageOf : none ∉ (imageOf a).imports.map (imageOf a).need? := by
  rw [needs_imageOf ha typed]
  simp only [mem_cons, mem_append, mem_map, reduceCtorEq, and_false, exists_false,
    false_or, not_exists, not_and]
  intro ref href hnone
  rw [foreignNeed?_of_mem typed href] at hnone
  cases hnone

theorem describes_imageOf : Describes table c a (imageOf a) where
  needs := needs_imageOf ha typed
  hostOnce := nodup_firsts _
  foreignOnce := nodup_foreign typed
  present := present_imageOf ha typed
  functions := functions_imageOf ha
  exports := by
    -- both sides depend on the names of the methods only
    have hentries : ∀ {α : Type} (name : α → String) (items : List α) (base : Nat),
        items.zipIdx.map (fun entry => ExportEntry.mk (name entry.1) (base + entry.2)) =
          (items.map name).zipIdx.map fun entry => ⟨entry.1, base + entry.2⟩ := by
      intro α name items base
      rw [zipIdx_map, map_map]
      rfl
    rw [imageOf, hentries, hentries, methodNames_eq ha, ownBase_eq ha]
  numbered _ _ hm := numbered_imageOf ha hm
  methodNames := methodNames_eq ha
  bodies := rfl

/-- The code of a method ends where its last instruction stands, and nowhere before. -/
theorem code_ends (hc : table.get? c.id = some c) :
    ∀ m ∈ a.methods, ∃ instrs, m.code = instrs ++ [.finish] ∧ ∀ i ∈ instrs, i ≠ .finish := by
  intro code hcode
  obtain ⟨i, hi⟩ := mem_iff_getElem?.1 hcode
  obtain ⟨m, hm, hgenerated⟩ := forall₂_getElem?_right (generateClass_eq_ok ha).1 hi
  obtain ⟨functions, hfunctions⟩ := exists_functionTypes typed hc
  obtain ⟨body, pieces, hbody, -, hpieces, typedCode⟩ :=
    emit_method typed hc hfunctions (.ofText source) (mem_of_getElem? hm)
  obtain ⟨body', pieces', hbody', hpieces', -, -, -, -, -, hinstrs⟩ := generateMethod_eq_ok hgenerated
  cases hbody.symm.trans hbody'
  cases hpieces.symm.trans hpieces'
  refine ⟨instrsOf pieces ++ [.ret], by simp [hinstrs], ?_⟩
  intro i hmem
  rcases mem_append.1 hmem with hmem | hmem
  · exact (ne_end_of_stackStep (typedCode.stack []) i hmem).2
  · rw [mem_singleton.1 hmem]
    exact Instr.noConfusion

end Generated

/-- Decoding the bytes of a checked class gives the class: its imports, each once and with its exact
type, one function and one export for each method, and the locals and the instructions of each. -/
theorem decodeModule_generateClass {table : ClassTable} (reached : table.Reached) {id : ClassId}
    {c : Typed.Class} (hc : table.get? id = some c) (source : String) :
    ∃ a image, generateClass table c source = .ok a ∧ decodeModule a.bytes = some image ∧
      Describes table c a image := by
  have typed := reached.typed id c hc
  obtain rfl := typed.id_eq
  obtain ⟨a, ha⟩ := generateClass_succeeds typed hc source
  exact ⟨a, imageOf a, ha, decodeModule_bytes a (code_ends ha typed hc), describes_imageOf ha typed⟩

/-- The bytes of the example give its class back. -/
theorem decodeModule_generateClass_pointClass :
    ∃ a image, generateClass Typed.pointTable Typed.pointClass Typed.pointText = .ok a ∧
      decodeModule a.bytes = some image ∧ Describes Typed.pointTable Typed.pointClass a image :=
  decodeModule_generateClass Typed.reached_pointTable Typed.get?_pointTable Typed.pointText

end ClassLang.Code
