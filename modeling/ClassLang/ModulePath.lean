/-!
# Module paths

A `ModulePath` is a sequence of names, written with slashes between them. It names a module
(`shapes/circle`) or the file of one (`shapes/circle.nz`). A `RelativePath` goes up some number of
names from the place where it stands and then down again.
-/

set_option autoImplicit false

namespace ClassLang

/-- Names from the outermost directory to the innermost. -/
structure ModulePath where
  parts : List String
deriving DecidableEq, Inhabited

namespace ModulePath

/-- Cuts a text at every slash; the pieces between two slashes may be empty. -/
def segments : List Char → List (List Char)
  | [] => [[]]
  | c :: rest =>
    if c = '/' then [] :: segments rest
    else match segments rest with
      | [] => [[c]]
      | piece :: pieces => (c :: piece) :: pieces

/-- Reads `a/b/c`; empty names are left out. -/
def parse (text : String) : ModulePath :=
  ⟨((segments text.toList).filter (· ≠ [])).map String.ofList⟩

/-- The written form, with a slash between the names. -/
def text (path : ModulePath) : String := "/".intercalate path.parts

/-- Whether the path has no names. -/
def isEmpty (path : ModulePath) : Bool := path.parts.isEmpty

/-- The innermost name. -/
def last? (path : ModulePath) : Option String := path.parts.getLast?

/-- The path one name further in. -/
def push (path : ModulePath) (name : String) : ModulePath := ⟨path.parts ++ [name]⟩

/-- Appends an extension to the innermost name; the empty path has none. -/
def withExtension? (path : ModulePath) (extension : String) : Option ModulePath :=
  path.parts.getLast?.map fun name => ⟨path.parts.dropLast ++ [name ++ extension]⟩

end ModulePath

/-- Goes up `ancestors` names and then down along `path`. -/
structure RelativePath where
  ancestors : Nat
  path : ModulePath
deriving DecidableEq, Inhabited

namespace RelativePath

/-- Whether the path only goes up, and so can name nothing but a directory. -/
def parentsOnly (rel : RelativePath) : Bool := rel.path.isEmpty

/-- How the ascent is written: `/` from the top, `./` beside the file, `../` for each level
above. -/
def ascentText : Nat → String
  | 0 => "/"
  | 1 => "./"
  | n + 2 => String.join (List.replicate (n + 1) "../")

/-- The written form. -/
def text (rel : RelativePath) : String := ascentText rel.ancestors ++ rel.path.text

end RelativePath

/-- The path that `rel` means where it stands in the file `base`; none when it goes up too far. -/
def ModulePath.resolve? (base : ModulePath) (rel : RelativePath) : Option ModulePath :=
  if rel.ancestors ≤ base.parts.length then
    some ⟨base.parts.take (base.parts.length - rel.ancestors) ++ rel.path.parts⟩
  else none

end ClassLang
