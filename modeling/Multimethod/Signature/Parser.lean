import Multimethod.Failure
import Multimethod.Signature
import Multimethod.Text.Blank

/-!
# Reading signatures

A signature is written as slots with commas between them, and a slot as type names with bars between
them. The mark `...` before or after the names of a slot says that the slot is repeated. Blanks
around slots, marks and names are dropped, and a name that is given again in its slot is left out.
A text of blanks is the signature without slots.

`Signature.parse` reads a text, `Signature.ofSlotTexts` a list of slot texts. Both report the first
fault of the first slot that has one, and only when all slots can be read a repeated slot that is
not the last. `Signature.normalForm` gives the normal written form of a text.
-/

set_option autoImplicit false
set_option relaxedAutoImplicit false

namespace Multimethod.Signature

open Text

/-! ### Faults -/

/-- What is wrong with the text of a signature. -/
inductive Fault where
  | emptySlot
  | doubleMark
  | emptyName
  | innerMark
  | malformedName (name : String)
  | misplacedRepetition
  deriving DecidableEq, Repr

/-- The fault in words. -/
def Fault.message : Fault → String
  | .emptySlot => "empty parameter"
  | .doubleMark => "variadic marker given twice"
  | .emptyName => "empty type alternative"
  | .innerMark => "variadic marker must trail the whole parameter"
  | .malformedName name => "malformed type name `" ++ name ++ "`"
  | .misplacedRepetition => "variadic parameter must be the last parameter"

/-! ### The mark of repetition -/

/-- The text after a mark at its start. -/
def afterMark? : List Char → Option (List Char)
  | '.' :: '.' :: '.' :: text => some text
  | _ => none

/-- The text before a mark at its end. -/
def beforeMark? (text : List Char) : Option (List Char) :=
  (afterMark? text.reverse).map List.reverse

/-- The body of a slot without the marks at its two ends, and whether there was one. -/
def unmarked (body : List Char) : Except Fault (List Char × Bool) :=
  match afterMark? body with
  | some text =>
    match beforeMark? (trimStart text) with
    | some _ => .error .doubleMark
    | none => .ok (trimStart text, true)
  | none =>
    match beforeMark? body with
    | some text => .ok (trimEnd text, true)
    | none => .ok (body, false)

/-! ### Names and slots -/

/-- The type name that a piece of a slot holds. -/
def nameOf (piece : List Char) : Except Fault String :=
  let name := trim piece
  if name.isEmpty then .error .emptyName
  else if holdsMark name then .error .innerMark
  else if name.any fun c ↦ c == ',' || isBlank c then .error (.malformedName (String.ofList name))
  else .ok (String.ofList name)

/-- The alternatives that names with bars between them give. -/
def alternativesOf (text : List Char) : Except Fault Alternatives := do
  let pieces := text.splitOn '|'
  let name ← nameOf (pieces.head (List.splitOn_ne_nil '|' text))
  let names ← pieces.tail.mapM nameOf
  return .once name names

/-- The slot that a piece of a signature holds. -/
def slotOf (piece : List Char) : Except Fault Slot := do
  let body := trim piece
  if body.isEmpty then throw .emptySlot
  let (text, repeated) ← unmarked body
  return ⟨← alternativesOf text, repeated⟩

/-- The signature whose slots are held by the given pieces. -/
def ofPieces (pieces : List (List Char)) : Except Fault Signature := do
  match ofSlots? (← pieces.mapM slotOf) with
  | some signature => return signature
  | none => throw .misplacedRepetition

/-! ### Signatures -/

/-- The failure of reading a text. -/
def faulty {α : Type} (text : String) : Except Fault α → Except Failure α
  | .ok result => .ok result
  | .error fault => .error (.malformedSignature text fault.message)

/-- Reads a signature. -/
def parse (text : String) : Except Failure Signature :=
  if (trim text.toList).isEmpty then .ok ⟨[], none⟩
  else faulty text (ofPieces (text.toList.splitOn ','))

/-- Reads a signature whose slots are given one by one. Failures quote the slots with commas between
them. -/
def ofSlotTexts (texts : List String) : Except Failure Signature :=
  faulty (",".intercalate texts) (ofPieces (texts.map String.toList))

/-- The normal written form of a signature. -/
def normalForm (text : String) : Except Failure String :=
  (parse text).map key

end Multimethod.Signature
