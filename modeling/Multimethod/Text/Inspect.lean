/-!
# Inspection texts

An inspection text shows how a thing is built, for a reader of a log: names quoted, lists in square
brackets, records with their field names. `quoted` writes a string between quotes so that every
character which could be misread is escaped; the other functions put together texts that are already
inspection texts.
-/

set_option autoImplicit false
set_option relaxedAutoImplicit false

namespace Multimethod.Text

/-! ### Quoted strings -/

/-- The ranges of code points that show nothing of their own: controls, separators other than the
space, private use, and the noncharacters of the basic plane. -/
def hiddenRanges : List (Nat × Nat) :=
  [(0x00, 0x1F), (0x7F, 0xA0), (0x1680, 0x1680), (0x2000, 0x200A), (0x2028, 0x2029),
    (0x202F, 0x202F), (0x205F, 0x205F), (0x3000, 0x3000), (0xE000, 0xF8FF), (0xFDD0, 0xFDEF),
    (0xF0000, 0x10FFFF)]

/-- Whether a character has to be written by its code point. The last two code points of every
plane are noncharacters. -/
def isHidden (c : Char) : Bool :=
  hiddenRanges.any (fun range ↦ decide (range.1 ≤ c.toNat) && decide (c.toNat ≤ range.2)) ||
    decide (c.toNat % 0x10000 ≥ 0xFFFE)

/-- A character as it stands between quotes. -/
def escaped (c : Char) : List Char :=
  match c with
  | '\x00' => ['\\', '0']
  | '\t' => ['\\', 't']
  | '\r' => ['\\', 'r']
  | '\n' => ['\\', 'n']
  | '"' => ['\\', '"']
  | '\\' => ['\\', '\\']
  | c =>
    if isHidden c then
      ['\\', 'u', '\x7b'] ++ Nat.toDigits 16 c.toNat ++ ['\x7d']
    else
      [c]

/-- A string between quotes. -/
def quoted (text : String) : String :=
  String.ofList ('"' :: text.toList.flatMap escaped ++ ['"'])

/-! ### Lists, options, maps and records -/

/-- A truth value. -/
def truth : Bool → String
  | true => "true"
  | false => "false"

/-- Texts with a comma and a space between neighbours. -/
def commas (items : List String) : String :=
  ", ".intercalate items

/-- A list. -/
def bracketed (items : List String) : String :=
  "[" ++ commas items ++ "]"

/-- A set, or a map whose entries are written already. -/
def braced (items : List String) : String :=
  "\x7b" ++ commas items ++ "\x7d"

/-- One entry of a map, or one field of a record. -/
def entry (key value : String) : String :=
  key ++ ": " ++ value

/-- A value that may be missing. -/
def optional (value : Option String) : String :=
  match value with
  | none => "None"
  | some text => "Some(" ++ text ++ ")"

/-- A record with all of its fields. -/
def record (name : String) (fields : List (String × String)) : String :=
  name ++ " \x7b " ++ commas (fields.map fun field ↦ entry field.1 field.2) ++ " \x7d"

/-- A record that shows only some of its fields. -/
def openRecord (name : String) (fields : List (String × String)) : String :=
  name ++ " \x7b " ++ commas ((fields.map fun field ↦ entry field.1 field.2) ++ [".."]) ++ " \x7d"

end Multimethod.Text
