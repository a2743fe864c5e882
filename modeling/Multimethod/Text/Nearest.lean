import Multimethod.Text.EditDistance

/-!
# The nearest known name

`nearest name known` is what a message may suggest for an unknown name: a known name that differs
in the case of ASCII letters only, else the first of the known names with the least edit distance,
case ignored, as long as that distance is within `tolerance`.
-/

set_option autoImplicit false
set_option relaxedAutoImplicit false

namespace Multimethod.Text

/-- The characters of a name, ASCII letters in lower case and all others as they are. -/
def folded (name : String) : List Char :=
  name.toList.map Char.toLower

/-- The greatest distance at which a name of so many characters is still worth a suggestion. -/
def tolerance (length : Nat) : Nat :=
  if length = 0 then 0
  else if length ≤ 2 then 1
  else if length ≤ 5 then 2
  else if length ≤ 10 then 3
  else min (length / 2) 5

/-- The first entry with the least measure. -/
def firstLeast {α : Type} (measure : α → Nat) : List α → Option α
  | [] => none
  | x :: xs =>
    match firstLeast measure xs with
    | none => some x
    | some y => if measure y < measure x then some y else some x

/-- The known name to suggest for an unknown one. -/
def nearest (name : String) (known : List String) : Option String :=
  match known.find? fun candidate ↦ folded candidate == folded name with
  | some candidate => some candidate
  | none =>
    let distance (candidate : String) := editDistance (folded name) (folded candidate)
    firstLeast distance (known.filter fun candidate ↦ distance candidate ≤ tolerance name.length)

end Multimethod.Text
