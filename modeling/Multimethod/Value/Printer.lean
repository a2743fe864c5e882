import Multimethod.Decimal.Positional
import Multimethod.Text.Inspect
import Multimethod.Value

/-!
# Texts of values

`Value.text` is what a user reads: numbers in positional notation, strings between quotes with
nothing escaped, arrays in brackets, objects in braces with their keys bare. `Value.inspect` is what
a log shows: every value is wrapped in the name of its kind, and strings and keys are quoted so that
they can be told apart.
-/

set_option autoImplicit false
set_option relaxedAutoImplicit false

namespace Multimethod.Value

/-! ### The text for a user -/

mutual

/-- A value as a user reads it. -/
def text : Value → String
  | .undefined => "undefined"
  | .null => "null"
  | .boolean b => Text.truth b
  | .number x => Decimal.numberText x
  | .string s => "\"" ++ s ++ "\""
  | .array items => Text.bracketed (itemTexts items)
  | .object entries => Text.braced (entryTexts entries)

/-- The texts of the items of an array. -/
def itemTexts : List Value → List String
  | [] => []
  | item :: items => text item :: itemTexts items

/-- The texts of the entries of an object. -/
def entryTexts : List (String × Value) → List String
  | [] => []
  | (key, value) :: entries => Text.entry key (text value) :: entryTexts entries

end

/-! ### The text for a log -/

mutual

/-- A value as a log shows it. -/
def inspect : Value → String
  | .undefined => "Undefined"
  | .null => "Null"
  | .boolean b => "Bool(" ++ Text.truth b ++ ")"
  | .number x => "Number(" ++ Decimal.numberText x ++ ")"
  | .string s => "Str(" ++ Text.quoted s ++ ")"
  | .array items => "Array(" ++ Text.bracketed (itemInspections items) ++ ")"
  | .object entries => "Object(" ++ Text.braced (entryInspections entries) ++ ")"

/-- The items of an array as a log shows them. -/
def itemInspections : List Value → List String
  | [] => []
  | item :: items => inspect item :: itemInspections items

/-- The entries of an object as a log shows them. -/
def entryInspections : List (String × Value) → List String
  | [] => []
  | (key, value) :: entries =>
    Text.entry (Text.quoted key) (inspect value) :: entryInspections entries

end

end Multimethod.Value
