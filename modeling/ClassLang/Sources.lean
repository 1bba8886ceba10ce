import ClassLang.ModulePath

/-!
# Sources

Where the text of modules comes from. Modules are found by asking for files one by one, so a source
of text is a function; `Files` is the source that holds a finite number of files and can be changed.
-/

set_option autoImplicit false

namespace ClassLang

/-- What becomes of the wish to read a file. -/
inductive ReadOutcome where
  | text (source : String)
  | missing
  | failed (reason : String)
deriving DecidableEq, Inhabited

/-- A source of text, with the number of files that it holds. -/
structure Sources where
  read : ModulePath → ReadOutcome
  fileCount : Nat

/-- Files by their path; the first entry of a path counts. -/
structure Files where
  entries : List (ModulePath × ReadOutcome)
deriving DecidableEq, Inhabited

namespace Files

def empty : Files := ⟨[]⟩

/-- What reading a path gives. -/
def read (files : Files) (path : ModulePath) : ReadOutcome :=
  (files.entries.lookup path).getD .missing

/-- Sets what reading a path gives from now on. -/
def set (files : Files) (path : ModulePath) (outcome : ReadOutcome) : Files :=
  ⟨(path, outcome) :: files.entries.filter (·.1 ≠ path)⟩

def sources (files : Files) : Sources := ⟨files.read, files.entries.length⟩

end Files

end ClassLang
