/-!
# Places in a source text

A `Span` is a half-open range of byte offsets into the UTF-8 form of one text. A `LineIndex` holds
the offsets at which the lines of a text start and turns an offset into a line and a column, both
counted from one; columns count bytes, and an offset past the end counts on from the last line.
-/

set_option autoImplicit false

namespace ClassLang

/-- The number of bytes that a list of characters takes in UTF-8. -/
def byteLength : List Char → Nat
  | [] => 0
  | c :: cs => c.utf8Size + byteLength cs

@[simp] theorem byteLength_nil : byteLength [] = 0 := rfl

@[simp] theorem byteLength_cons (c : Char) (cs : List Char) :
    byteLength (c :: cs) = c.utf8Size + byteLength cs := rfl

@[simp] theorem byteLength_append (cs ds : List Char) :
    byteLength (cs ++ ds) = byteLength cs + byteLength ds := by
  induction cs with
  | nil => simp
  | cons c cs ih => rw [List.cons_append, byteLength_cons, byteLength_cons, ih, Nat.add_assoc]

/-- The bytes from `start` up to but not including `stop`. -/
structure Span where
  start : Nat
  stop : Nat
deriving DecidableEq, Inhabited

namespace Span

/-- The span of the single byte at `start`. -/
def single (start : Nat) : Span := ⟨start, start + 1⟩

/-- The empty span at `pos`. -/
def emptyAt (pos : Nat) : Span := ⟨pos, pos⟩

/-- The smallest span that covers both spans. -/
def cover (a b : Span) : Span := ⟨min a.start b.start, max a.stop b.stop⟩

/-- One span lies inside another. -/
def Contains (outer inner : Span) : Prop := outer.start ≤ inner.start ∧ inner.stop ≤ outer.stop

/-- The written form `start..stop`. -/
def text (s : Span) : String := toString s.start ++ ".." ++ toString s.stop

end Span

/-- A line and a column, both counted from one. -/
structure LineColumn where
  line : Nat
  column : Nat
deriving DecidableEq

/-- The written form `line:column`. -/
def LineColumn.text (p : LineColumn) : String := toString p.line ++ ":" ++ toString p.column

/-- The offsets at which the lines of a text start, in increasing order. -/
structure LineIndex where
  starts : List Nat
deriving DecidableEq

namespace LineIndex

/-- The line starts that follow a newline in `chars`, whose first character stands at `pos`. -/
def startsAfter (pos : Nat) : List Char → List Nat
  | [] => []
  | c :: rest =>
    let next := pos + c.utf8Size
    if c = '\n' then next :: startsAfter next rest else startsAfter next rest

/-- The lines of a text: the first starts at zero and each newline starts another. -/
def ofText (text : String) : LineIndex := ⟨0 :: startsAfter 0 text.toList⟩

/-- The line of an offset is the last that starts at or before it. -/
def lineColumn (index : LineIndex) (pos : Nat) : LineColumn :=
  let reached := index.starts.takeWhile (· ≤ pos)
  ⟨reached.length, pos - reached.getLastD 0 + 1⟩

/-- The line of an offset. -/
def line (index : LineIndex) (pos : Nat) : Nat := (index.lineColumn pos).line

/-- The written form `line:column-line:column` of a span. -/
def rangeText (index : LineIndex) (span : Span) : String :=
  (index.lineColumn span.start).text ++ "-" ++ (index.lineColumn span.stop).text

end LineIndex

end ClassLang
