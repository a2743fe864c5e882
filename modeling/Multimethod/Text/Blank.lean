/-!
# Blank characters and trimmed text

`isBlank` is the Unicode property `White_Space`: twenty-five code points, given as ranges. `trim`
drops the blanks at both ends of a text and keeps everything between the outermost other
characters. `isBlank_of_isWhitespace` says that every ASCII space, tab or line break is blank.

Text is handled as a list of characters here and wherever it is taken apart; `String` appears where
a name is stored or a message is written.
-/

set_option autoImplicit false
set_option relaxedAutoImplicit false

namespace Multimethod.Text

/-! ### The blank characters -/

/-- The code points with the Unicode property `White_Space`, as inclusive ranges in ascending
order. -/
def blankRanges : List (Nat × Nat) :=
  [(0x09, 0x0D), (0x20, 0x20), (0x85, 0x85), (0xA0, 0xA0), (0x1680, 0x1680), (0x2000, 0x200A),
    (0x2028, 0x2029), (0x202F, 0x202F), (0x205F, 0x205F), (0x3000, 0x3000)]

/-- Whether a character is blank. -/
def isBlank (c : Char) : Bool :=
  blankRanges.any fun range ↦ decide (range.1 ≤ c.toNat) && decide (c.toNat ≤ range.2)

/-- Every character that is white space in ASCII is blank. -/
theorem isBlank_of_isWhitespace (c : Char) (h : c.isWhitespace = true) : isBlank c = true := by
  simp only [Char.isWhitespace, Bool.or_eq_true, decide_eq_true_eq] at h
  rcases h with ((h | h) | h) | h <;> subst h <;> decide

/-! ### Trimming -/

/-- The text from its first character that is not blank. -/
def trimStart (text : List Char) : List Char :=
  text.dropWhile isBlank

/-- The text up to its last character that is not blank. -/
def trimEnd (text : List Char) : List Char :=
  (text.reverse.dropWhile isBlank).reverse

/-- The text without the blanks at its two ends. -/
def trim (text : List Char) : List Char :=
  trimEnd (trimStart text)

end Multimethod.Text
