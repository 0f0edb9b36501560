import SnippetLang.Source.Span

/-!
# Lines and columns

A reader of a diagnostic wants a line and a column, the rest of the library works with byte
offsets.  `Lines` keeps the offset at which each line starts; an offset belongs to the last line
that starts at or before it, which a binary search finds.  Both numbers count from one, and columns
count bytes.

Offsets, lines and columns are numbers of 32 bits here.  `position?` answers nothing where a
difference or a sum would leave them.
-/

namespace SnippetLang

/-- The byte of a line feed, which is part of no other character. -/
def lineFeed : UInt8 := 10

/-- The offsets at which the lines of a source start, the first line's included. -/
structure Lines where
  starts : Array UInt32
deriving DecidableEq

namespace Lines

/-! ### The table -/

/-- The offsets just behind each line feed of bytes that begin at `offset`. -/
def feedEnds (offset : Nat) : List UInt8 → List Nat
  | [] => []
  | b :: bs =>
    let next := offset + 1
    if b = lineFeed then next :: feedEnds next bs else feedEnds next bs

/-- The bytes of a source. -/
def bytes (source : String) : List UInt8 := source.toByteArray.data.toList

/-- The lines of a source: one starts at its beginning, and one behind each line feed. -/
def ofSource (source : String) : Lines :=
  ⟨((0 :: feedEnds 0 (bytes source)).map .ofNatClamp).toArray⟩

/-! ### The search -/

/-- How the search of an element in an ascending array ended. -/
inductive Search where
  | hit (index : Nat)     -- the element stands there
  | miss (index : Nat)    -- it is missing, and would have to be inserted there
deriving DecidableEq

/-- Halves the `size` elements from `base` on until one is left: the last one at or before the
    offset, if there is such a one among them. -/
def narrow (starts : Array UInt32) (offset : UInt32) (base size : Nat) : Nat :=
  if size ≤ 1 then
    base
  else
    let middle := base + size / 2
    narrow starts offset (if offset < starts.getD middle 0 then base else middle) (size - size / 2)
termination_by size

/-- Searches an offset among the starts of lines. -/
def search (starts : Array UInt32) (offset : UInt32) : Search :=
  if starts.isEmpty then
    .miss 0
  else
    let index := narrow starts offset 0 starts.size
    let start := starts.getD index 0
    if start = offset then .hit index
    else .miss (if start < offset then index + 1 else index)

/-- The index of the line of an offset. -/
def indexOf (lines : Lines) (offset : UInt32) : Nat :=
  match search lines.starts offset with
  | .hit index => index
  | .miss index => index - 1

/-! ### Positions -/

/-- The difference of two numbers, unless it is below zero. -/
def difference? (m n : UInt32) : Option UInt32 := if n ≤ m then some (m - n) else none

/-- The sum of two numbers, unless it does not fit. -/
def sum? (m n : UInt32) : Option UInt32 :=
  if m.toNat + n.toNat < UInt32.size then some (m + n) else none

theorem difference?_of_le {m n : UInt32} (h : n ≤ m) : difference? m n = some (m - n) := if_pos h

theorem sum?_of_lt {m n : UInt32} (h : m.toNat + n.toNat < UInt32.size) :
    sum? m n = some (m + n) := if_pos h

/-- The line and the column of a byte offset, which may lie past the end of the source. -/
def position? (lines : Lines) (offset : UInt32) : Option (UInt32 × UInt32) := do
  let index := lines.indexOf offset
  let distance ← difference? offset (lines.starts.getD index 0)
  let column ← sum? distance 1
  pure (.ofNatClamp (index + 1), column)

/-- The line and the column of a byte offset as reports show them.  A column that does not fit shows
    as zero. -/
def position (lines : Lines) (offset : Nat) : Nat × Nat :=
  let offset := UInt32.ofNatClamp offset
  match lines.position? offset with
  | some (line, column) => (line.toNat, column.toNat)
  | none => (lines.indexOf offset + 1, 0)

end Lines

/-- Where a span starts, as `path:line:column`. -/
def Span.location (s : Span) (path source : String) : String :=
  let (line, column) := (Lines.ofSource source).position s.start
  s!"{path}:{line}:{column}"

end SnippetLang
