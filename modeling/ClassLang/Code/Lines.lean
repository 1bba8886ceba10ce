import ClassLang.Code.Instr

/-!
# Instructions and the lines that they come from

Code is generated as pieces: instructions, and marks where another statement begins. The line table
of the code holds an entry for each instruction at which the line changes.
-/

set_option autoImplicit false

namespace ClassLang.Code

/-- An instruction, or a mark that the code of the statement on this line begins here. -/
inductive Piece where
  | op (instr : Instr)
  | mark (line : Nat)
deriving DecidableEq, Inhabited

/-- The instructions among the pieces. -/
def instrsOf : List Piece → List Instr
  | [] => []
  | .op instr :: rest => instr :: instrsOf rest
  | .mark _ :: rest => instrsOf rest

/-- From an instruction on, a line of the source. -/
structure LineEntry where
  start : Nat
  line : Nat
deriving DecidableEq, Inhabited

/-- Adds a mark before instruction `start` to a table whose last entry comes first. A second
mark at the same instruction replaces the first, and a mark for the line that already holds
changes nothing. -/
def addMark (start line : Nat) : List LineEntry → List LineEntry
  | [] => [⟨start, line⟩]
  | last :: before =>
    if last.start = start then ⟨start, line⟩ :: before
    else if last.line = line then last :: before
    else ⟨start, line⟩ :: last :: before

/-- The entries of the pieces from instruction `start` on, put before those of `known`. -/
def entriesFrom (start : Nat) (known : List LineEntry) : List Piece → List LineEntry
  | [] => known
  | .op _ :: rest => entriesFrom (start + 1) known rest
  | .mark line :: rest => entriesFrom start (addMark start line known) rest

/-- The line table of generated code, in the order of the instructions. -/
def lineTable (pieces : List Piece) : List LineEntry := (entriesFrom 0 [] pieces).reverse

/-- The line of the first instruction, zero in an empty table. -/
def firstLine (table : List LineEntry) : Nat := table.head?.elim 0 LineEntry.line

/-- The line of the instruction at `op`. -/
def lineAt (table : List LineEntry) (op : Nat) : Nat :=
  (table.takeWhile (·.start ≤ op)).getLast?.elim 0 LineEntry.line

end ClassLang.Code
