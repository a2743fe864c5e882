/-!
# Edit distance

`editDistance a b` is the least number of insertions, deletions and replacements of single
characters that turn `a` into `b`. It is computed row by row: after the characters read from `a`,
the row holds the distances from them to every initial part of `b`, so only one row is kept.
-/

set_option autoImplicit false
set_option relaxedAutoImplicit false

namespace Multimethod.Text

/-- The cells of the next row after its first one. `left` is the cell before them; the old row is
read from the cell above `left`. A cell is reached from the left by an insertion, from above by a
deletion, and from above `left` by keeping or replacing a character. -/
def nextCells (a : Char) (left : Nat) : List Char → List Nat → List Nat
  | b :: bs, corner :: above :: old =>
    let cell := min (min (above + 1) (left + 1)) (corner + if a = b then 0 else 1)
    cell :: nextCells a cell bs (above :: old)
  | _, _ => []

/-- The row after one more character has been read. -/
def nextRow (bs : List Char) (row : List Nat) (a : Char) : List Nat :=
  let first := row.headD 0 + 1
  first :: nextCells a first bs row

/-- The least number of single-character edits between two texts. -/
def editDistance (a b : List Char) : Nat :=
  (a.foldl (nextRow b) (List.range (b.length + 1))).getLastD 0

end Multimethod.Text
